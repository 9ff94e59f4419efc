import Octet.Assembly.ByteLiteral
import Octet.Assembly.LabelTable
import Octet.Assembly.Token

/-! # Encoding

Once the labels are bound every token that is not errored has its byte, except that a label stands
for none.
-/

namespace Octet

namespace Encoding

def byte? (labels : LabelTable) (t : Token) : Except CompileError (Option Byte) :=
  match t.kind with
  | .instruction =>
    match Opcode.ofMnemonic? t.text with
    | some op => .ok (some op.id)
    | none => .error (.internal .uncheckedInstruction)
  | .addressByte half =>
    let name := t.referencedLabel?.getD []
    match labels.get? name with
    | some label => .ok (some (half.of label.address))
    | none => .error (.labelNotFound name)
  | .byteLiteral => (ByteLiteral.parse t.text).map some
  | .label => .ok none
  | .address => .error (.internal .unsplitAddress)
  | .directive => .error (.internal .unappliedDirective)
  | .invalid => .error (.internal .unreportedInvalid)

/-- Puts a byte into a token, which from then on shows its binary digits. -/
def store (t : Token) (byte : Byte) : Token :=
  { t with byte := some byte, output := Numeral.fixed 2 8 byte.toNat }.note (.encoded byte)

def token (labels : LabelTable) (t : Token) : Token :=
  if t.isErrored then t
  else match byte? labels t with
  | .ok (some byte) => store t byte
  | .ok none => t.note .labelEmitsNothing
  | .error e => t.error e

/-- Whether the token takes part in the encoding and has a byte. -/
def succeeds (labels : LabelTable) (t : Token) : Bool :=
  !t.isErrored && match byte? labels t with
    | .ok (some _) => true
    | _ => false

end Encoding

def encode (labels : LabelTable) (ts : List Token) : List Token := ts.map (Encoding.token labels)

def encodedCount (labels : LabelTable) (ts : List Token) : Nat :=
  ts.countP (Encoding.succeeds labels)

end Octet
