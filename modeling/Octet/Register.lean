import Octet.Text.Blank

/-! # Registers

The names of the registers. Eight are stored; `r`, the address that `h` and `l` form, and `z`, which
says that `q` is zero, are computed from those and cannot be written.
-/

namespace Octet

inductive Register where
  | a | b | q | h | l | p | s | c | r | z
deriving DecidableEq, Repr

inductive RegisterError where
  | unknown (name : Text)
  | readOnly (register : Register)
deriving DecidableEq, Repr

namespace Register

def all : List Register := [.a, .b, .q, .h, .l, .p, .s, .c, .r, .z]

theorem mem_all (reg : Register) : reg ∈ all := by cases reg <;> decide

def letter : Register → Char
  | .a => 'a'
  | .b => 'b'
  | .q => 'q'
  | .h => 'h'
  | .l => 'l'
  | .p => 'p'
  | .s => 's'
  | .c => 'c'
  | .r => 'r'
  | .z => 'z'

def ofText (t : Text) : Except RegisterError Register :=
  match t with
  | [letter] =>
    match all.find? (·.letter == letter.toLower) with
    | some reg => .ok reg
    | none => .error (.unknown t)
  | _ => .error (.unknown t)

def isDerived : Register → Bool
  | .r | .z => true
  | _ => false

/-- The number of values that the register can have. -/
def modulus : Register → Nat
  | .c | .z => 2
  | .p | .r => 65536
  | _ => 256

end Register

def RegisterError.message : RegisterError → String
  | .unknown name =>
    let text := String.ofList name
    s!"unknown register `{text}`"
  | .readOnly register =>
    let letter := register.letter
    s!"register `{letter}` is derived and read-only"

end Octet
