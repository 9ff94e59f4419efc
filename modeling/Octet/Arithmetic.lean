import Octet.Word

/-! # Arithmetic

What the calculating instructions do to bytes: a result is cut to a byte, and the carry says that it
did not fit. A subtraction adds the complement, so its carry says that nothing was borrowed.
-/

namespace Octet.Arithmetic

def reduce (n : Nat) : Byte × Bool := (.ofNat n, 255 < n)

theorem reduce_spec {n : Nat} (h : n < 512) :
    (reduce n).1.toNat + 256 * (reduce n).2.toNat = n := by
  simp only [reduce, UInt8.toNat_ofNat']
  by_cases hn : 255 < n <;> simp [hn] <;> omega

def add (x y : Byte) (carry : Bool) : Byte × Bool := reduce (x.toNat + y.toNat + carry.toNat)

theorem add_spec (x y : Byte) (carry : Bool) :
    (add x y carry).1.toNat + 256 * (add x y carry).2.toNat = x.toNat + y.toNat + carry.toNat := by
  apply reduce_spec
  have := x.toNat_lt
  have := y.toNat_lt
  have := carry.toNat_lt
  omega

def subtract (x y : Byte) (carry : Bool) : Byte × Bool :=
  reduce (x.toNat + (~~~y).toNat + 1 + carry.toNat)

def shiftLeft (x : Byte) (places : Nat) : Byte × Bool := reduce (x.toNat <<< places)

def shiftRight (x : Byte) : Byte × Bool := reduce (x.toNat / 2)

/-- The number of one bits. -/
def ones (x : Byte) : Nat := ((List.range 8).filter x.toNat.testBit).length

/-- Whether the one bits, the carry among them, are odd in number. -/
def parity (x : Byte) (carry : Bool) : Bool := (ones x + carry.toNat) % 2 == 1

end Octet.Arithmetic
