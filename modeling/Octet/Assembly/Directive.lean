import Octet.Assembly.Event

/-! # Directives

The one directive is `#SKIPTO`, which moves the address counter forward to a decimal address. The
causes for which a directive is refused are tried in the order of the definition.
-/

namespace Octet.Directive

/-- The address as which a counter stands, if it is one. -/
def address? (n : Nat) : Option Address := if n < 65536 then some (.ofNat n) else none

def name (text : Text) : Text :=
  match text.words with
  | ('#' :: name) :: _ => name
  | _ => []

/-- The address that an argument gives, which must not lie before the counter. -/
def destination (counter : Nat) (argument : Text) : Except CompileError Address :=
  match Numeral.ofDecimal? argument with
  | none => .error (.directiveArgumentInvalid argument)
  | some n =>
    match address? n with
    | none => .error (.directiveAddressOutOfRange argument)
    | some a => if n < counter then .error (.directiveMovesBackwards a counter) else .ok a

/-- The address to which the directive moves the counter. -/
def target (counter : Nat) (text : Text) : Except CompileError Address :=
  if name text = "SKIPTO".toList then
    match text.words.tail with
    | [argument] => destination counter argument
    | arguments => .error (.directiveArgumentCount arguments.length)
  else .error (.unknownDirective (name text))

theorem toNat_of_address? {n : Nat} {a : Address} (h : address? n = some a) : a.toNat = n := by
  simp only [address?] at h
  split at h <;> cases h
  simp only [UInt16.toNat_ofNat']
  omega

theorem le_of_destination {counter : Nat} {argument : Text} {a : Address}
    (h : destination counter argument = .ok a) : counter ≤ a.toNat := by
  simp only [destination] at h
  split at h
  · cases h
  · split at h
    · cases h
    · next ha =>
      split at h <;> cases h
      rw [toNat_of_address? ha]
      omega

theorem le_of_target {counter : Nat} {text : Text} {a : Address}
    (h : target counter text = .ok a) : counter ≤ a.toNat := by
  simp only [target] at h
  split at h
  · split at h
    · exact le_of_destination h
    · cases h
  · cases h

end Octet.Directive
