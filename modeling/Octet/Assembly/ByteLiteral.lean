import Octet.Assembly.Event

/-! # Byte literals

A byte literal is hexadecimal behind `0x`, binary behind `0b` and decimal otherwise. The digits are
read from the left into thirty-two bits, so that a number which no longer fits is out of range even
if something that is no digit stands behind it.
-/

namespace Octet.ByteLiteral

/-- The radix of a literal, and its digits, of which a leading plus is no part. -/
def split (t : Text) : Nat × Text :=
  let (radix, rest) : Nat × Text := match t with
    | '0' :: 'x' :: rest => (16, rest)
    | '0' :: 'b' :: rest => (2, rest)
    | _ => (10, t)
  match rest with
  | '+' :: digits => (radix, digits)
  | digits => (radix, digits)

/-- Why the digits of a literal are no number of thirty-two bits. -/
inductive Flaw where
  | malformed
  | tooLarge
deriving DecidableEq, Repr

def fit (n : Nat) : Except Flaw Nat := if n < UInt32.size then .ok n else .error .tooLarge

/-- Reads digits behind others that stand for `n`. That a character is no digit is found out before
it is found out that the number has grown too large for one. -/
def readFrom (radix n : Nat) : Text → Except Flaw Nat
  | [] => .ok n
  | c :: t =>
    match Numeral.digit? radix c with
    | none => .error .malformed
    | some d => do
      let n ← fit (n * radix)
      let n ← fit (n + d)
      readFrom radix n t

def read (radix : Nat) (digits : Text) : Except Flaw Nat :=
  if digits.isEmpty then .error .malformed else readFrom radix 0 digits

def parse (t : Text) : Except CompileError Byte :=
  let (radix, digits) := split t
  match read radix digits with
  | .ok n => if n < 256 then .ok (.ofNat n) else .error (.byteOutOfRange t)
  | .error .tooLarge => .error (.byteOutOfRange t)
  | .error .malformed => .error (.byteInvalidSyntax t)

end Octet.ByteLiteral
