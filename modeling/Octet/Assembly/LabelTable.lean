import Octet.Text.Blank
import Octet.Word

/-! # Label tables

The labels that are bound, by name, in the order of their definitions. No name is bound twice: a
definition of a bound name gives the binding that stands (`define`).
-/

namespace Octet

structure Label where
  address : Address
  line : Nat
deriving DecidableEq, Repr

abbrev LabelTable := List (Text × Label)

namespace LabelTable

def get? (table : LabelTable) (name : Text) : Option Label := table.lookup name

def define (table : LabelTable) (name : Text) (label : Label) : Except Label LabelTable :=
  match table.get? name with
  | some first => .error first
  | none => .ok (table ++ [(name, label)])

theorem get?_define {table table' : LabelTable} {name : Text} {label : Label}
    (h : table.define name label = .ok table') (other : Text) :
    table'.get? other = if other = name then some label else table.get? other := by
  simp only [define] at h
  split at h
  · cases h
  · next hn =>
    cases h
    simp only [get?] at hn
    by_cases ho : other = name
    · subst ho
      simp [get?, List.lookup_append, hn]
    · have : (other == name) = false := by simpa using ho
      simp [get?, List.lookup_append, List.lookup_cons, this, ho]

/-- Whether one binding comes before another in a listing: by address, and by name at one address. -/
def precedes (x y : Text × Label) : Bool :=
  x.2.address < y.2.address || (x.2.address == y.2.address && !(decide (y.1 < x.1)))

def sorted (table : LabelTable) : List (Text × Label) := table.mergeSort precedes

end LabelTable

end Octet
