import Octet.Text.Numeral

/-! # JSON documents

`Json` is the tree of a document. A string is kept as the units it was written with, since an escape
may name half of a surrogate pair, and such a string is no text (`text?`). A number is kept as its
literal. `fields?` is the one rule by which a record is read, from an object or from an array.
-/

namespace Octet

/-- A unit of a string: a character as it stands, or the sixteen-bit code of an escape. -/
inductive Json.StringUnit where
  | char (c : Char)
  | code (n : Nat)
deriving DecidableEq, Repr

inductive Json where
  | null
  | bool (b : Bool)
  | number (literal : Text)
  | string (units : List Json.StringUnit)
  | array (items : List Json)
  | object (members : List (List Json.StringUnit × Json))
deriving Repr

namespace Json

def isHighSurrogate (n : Nat) : Bool := 0xD800 ≤ n && n < 0xDC00

def isLowSurrogate (n : Nat) : Bool := 0xDC00 ≤ n && n < 0xE000

/-- The text of a string, in which a high surrogate and the low one right behind it are one
character. A surrogate without its partner has no text. -/
def text? : List StringUnit → Option Text
  | [] => some []
  | .char c :: us => (text? us).map (c :: ·)
  | .code hi :: .code lo :: us =>
    if isHighSurrogate hi then
      if isLowSurrogate lo then
        (text? us).map (Char.ofNat (0x10000 + (hi - 0xD800) * 0x400 + (lo - 0xDC00)) :: ·)
      else none
    else if isLowSurrogate hi then none
    else (text? (.code lo :: us)).map (Char.ofNat hi :: ·)
  | .code n :: us =>
    if isHighSurrogate n || isLowSurrogate n then none else (text? us).map (Char.ofNat n :: ·)

def ofText (t : Text) : Json := .string (t.map .char)

def ofNat (n : Nat) : Json := .number (Numeral.decimal n)

/-- A natural number below `bound`. A sign, a fraction or an exponent makes a literal another kind of
number, whatever its value. -/
def natBelow? (bound : Nat) : Json → Option Nat
  | .number literal => (Numeral.ofDecimal? literal).filter (· < bound)
  | _ => none

theorem natBelow?_ofNat {n bound : Nat} (h : n < bound) : natBelow? bound (ofNat n) = some n := by
  simp [natBelow?, ofNat, Numeral.ofDecimal?_decimal, h]

def bool? : Json → Option Bool
  | .bool b => some b
  | _ => none

def textValue? : Json → Option Text
  | .string units => text? units
  | _ => none

def array? : Json → Option (List Json)
  | .array items => some items
  | _ => none

/-- The values of a record's fields in the order of `names`, `none` for one that is not given. An
object gives each name at most once, and its other members do not count; an array gives the leading
fields and nothing more. -/
def fields? (names : List Text) : Json → Option (List (Option Json))
  | .object members => do
    let members ← members.mapM fun (key, v) => (text? key).map (·, v)
    names.mapM fun name =>
      match members.filter (·.1 == name) with
      | [] => some none
      | [(_, v)] => some (some v)
      | _ => none
  | .array items =>
    if items.length ≤ names.length then
      some ((List.range names.length).map (items[·]?))
    else none
  | _ => none

end Json

end Octet
