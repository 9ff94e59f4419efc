import Octet.Json.Parser
import Octet.Json.Printer
import Octet.Register
import Octet.Word

/-! # Register files

The stored registers with their values. `get` and `set` reach them by name, with numbers taken modulo
the number of values that the register has; the JSON form gives the fields in the order in which the
structure lists them.
-/

namespace Octet

structure RegisterFile where
  a : Byte
  b : Byte
  q : Byte
  h : Byte
  l : Byte
  s : Byte
  p : Address
  c : Bool
deriving DecidableEq, Repr

namespace RegisterFile

/-- The registers at power-on: the stack pointer at the top of its page, all else zero. -/
def initial : RegisterFile := ⟨0, 0, 0, 0, 0, 255, 0, false⟩

def r (rs : RegisterFile) : Address := joinBytes rs.h rs.l

def z (rs : RegisterFile) : Bool := rs.q == 0

def get (rs : RegisterFile) : Register → Nat
  | .a => rs.a.toNat
  | .b => rs.b.toNat
  | .q => rs.q.toNat
  | .h => rs.h.toNat
  | .l => rs.l.toNat
  | .p => rs.p.toNat
  | .s => rs.s.toNat
  | .c => rs.c.toNat
  | .r => rs.r.toNat
  | .z => rs.z.toNat

def set (rs : RegisterFile) (reg : Register) (n : Nat) : Except RegisterError RegisterFile :=
  match reg with
  | .a => .ok { rs with a := .ofNat n }
  | .b => .ok { rs with b := .ofNat n }
  | .q => .ok { rs with q := .ofNat n }
  | .h => .ok { rs with h := .ofNat n }
  | .l => .ok { rs with l := .ofNat n }
  | .p => .ok { rs with p := .ofNat n }
  | .s => .ok { rs with s := .ofNat n }
  | .c => .ok { rs with c := n % 2 == 1 }
  | .r | .z => .error (.readOnly reg)

theorem get_set {rs rs' : RegisterFile} {reg : Register} {n : Nat} (h : rs.set reg n = .ok rs') :
    rs'.get reg = n % reg.modulus := by
  cases reg <;> cases h <;> simp [get, Register.modulus]
  rcases Nat.mod_two_eq_zero_or_one n with h | h <;> simp [h]

def getNamed (rs : RegisterFile) (name : Text) : Except RegisterError Nat :=
  (Register.ofText name).map rs.get

def setNamed (rs : RegisterFile) (name : Text) (n : Nat) : Except RegisterError RegisterFile := do
  rs.set (← Register.ofText name) n

/-- Puts the result of a calculation into the accumulator and the carry. -/
def accumulate (rs : RegisterFile) (result : Byte × Bool) : RegisterFile :=
  { rs with a := result.1, c := result.2 }

/-- Every register with its value, on one line. -/
def text (rs : RegisterFile) : String :=
  " ".intercalate (Register.all.map fun reg => s!"{reg.letter}={rs.get reg}")

def fieldNames : List Text := [['a'], ['b'], ['q'], ['h'], ['l'], ['s'], ['p'], ['c']]

def toJson (rs : RegisterFile) : Json :=
  let member (name : Char) (v : Json) : List Json.StringUnit × Json := ([.char name], v)
  .object [member 'a' (.ofNat rs.a.toNat), member 'b' (.ofNat rs.b.toNat),
    member 'q' (.ofNat rs.q.toNat), member 'h' (.ofNat rs.h.toNat), member 'l' (.ofNat rs.l.toNat),
    member 's' (.ofNat rs.s.toNat), member 'p' (.ofNat rs.p.toNat), member 'c' (.bool rs.c)]

def ofJson? (v : Json) : Option RegisterFile := do
  match ← (← v.fields? fieldNames).mapM id with
  | [a, b, q, h, l, s, p, c] =>
    let byte (v : Json) : Option Byte := (v.natBelow? 256).map .ofNat
    return ⟨← byte a, ← byte b, ← byte q, ← byte h, ← byte l, ← byte s,
      .ofNat (← p.natBelow? 65536), ← c.bool?⟩
  | _ => none

end RegisterFile

end Octet
