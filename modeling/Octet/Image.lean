import Octet.Json.Parser
import Octet.Json.Printer
import Octet.Word

/-! # Images

An image is the list of bytes that a program puts at addresses, in the order in which they are
stored. Its JSON form is a list of pairs, the address first, and reading what is written gives the
image back (`ofJson?_toJson`).
-/

namespace Octet

structure Image.Entry where
  address : Address
  byte : Byte
deriving DecidableEq, Repr

abbrev Image := List Image.Entry

namespace Image

def Entry.toJson (e : Entry) : Json := .array [.ofNat e.address.toNat, .ofNat e.byte.toNat]

def Entry.ofJson? : Json → Option Entry
  | .array [address, byte] => do
    return ⟨.ofNat (← address.natBelow? 65536), .ofNat (← byte.natBelow? 256)⟩
  | _ => none

theorem Entry.ofJson?_toJson (e : Entry) : Entry.ofJson? e.toJson = some e := by
  simp [ofJson?, toJson, Json.natBelow?_ofNat e.address.toNat_lt, Json.natBelow?_ofNat e.byte.toNat_lt]

def toJson (image : Image) : Json := .array (image.map Entry.toJson)

def ofJson? (v : Json) : Option Image := do (← v.array?).mapM Entry.ofJson?

theorem ofJson?_toJson (image : Image) : ofJson? (toJson image) = some image := by
  simp only [ofJson?, toJson, Json.array?, Option.bind_eq_bind, Option.bind_some, List.mapM_map]
  induction image with
  | nil => rfl
  | cons e es ih => simp [List.mapM_cons, Function.comp_def, Entry.ofJson?_toJson] at ih ⊢; simp [ih]

def render (image : Image) : Text := (toJson image).render

def parse? (t : Text) : Option Image := do ofJson? (← Json.parse? t)

end Image

end Octet
