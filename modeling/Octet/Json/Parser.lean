import Octet.Json.Lexeme

/-! # Reading JSON

One pass over the lexemes with a stack of the containers that are still open. The stack bounds
neither the depth nor the length of a document, and the pass is a fold, so that what is read of a
text is read independently of what follows it.
-/

namespace Octet.Json

/-- An open container: what it holds so far, last first, and for an object the key whose value is
under way. -/
inductive Frame where
  | array (items : List Json)
  | object (members : List (List StringUnit × Json)) (key : List StringUnit)

/-- What the lexemes read so far call for. -/
inductive Expecting where
  | value (stack : List Frame)
  | firstItem (stack : List Frame)
  | key (first : Bool) (members : List (List StringUnit × Json)) (stack : List Frame)
  | colon (key : List StringUnit) (members : List (List StringUnit × Json)) (stack : List Frame)
  | nothing (v : Json) (stack : List Frame)

def startValue (stack : List Frame) : Lexeme → Option Expecting
  | .scalar v => some (.nothing v stack)
  | .openArray => some (.firstItem stack)
  | .openObject => some (.key true [] stack)
  | _ => none

def Expecting.step : Expecting → Lexeme → Option Expecting
  | .value stack, l => startValue stack l
  | .firstItem stack, .closeArray => some (.nothing (.array []) stack)
  | .firstItem stack, l => startValue (.array [] :: stack) l
  | .key _ members stack, .scalar (.string k) => some (.colon k members stack)
  | .key true members stack, .closeObject => some (.nothing (.object members.reverse) stack)
  | .colon k members stack, .colon => some (.value (.object members k :: stack))
  | .nothing v (.array items :: stack), .comma => some (.value (.array (v :: items) :: stack))
  | .nothing v (.array items :: stack), .closeArray =>
    some (.nothing (.array (v :: items).reverse) stack)
  | .nothing v (.object members k :: stack), .comma => some (.key false ((k, v) :: members) stack)
  | .nothing v (.object members k :: stack), .closeObject =>
    some (.nothing (.object ((k, v) :: members).reverse) stack)
  | _, _ => none

def parse? (t : Text) : Option Json := do
  let ls ← lexemes? t
  match ← ls.foldlM Expecting.step (.value []) with
  | .nothing v [] => some v
  | _ => none

end Octet.Json
