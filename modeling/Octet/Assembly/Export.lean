import Octet.Assembly.Token
import Octet.Image

/-! # Exports

The image of a list of tokens: a byte at its address for every token except labels and directives.
There is none as long as a token is errored.
-/

namespace Octet

inductive ExportError where
  | hasErrors (count : Nat)
  | missingByte (text : Text) (line : Nat)
deriving DecidableEq, Repr

def ExportError.message : ExportError → String
  | .hasErrors count => s!"cannot export: {count} token(s) have errors"
  | .missingByte text line =>
    let text := String.ofList text
    s!"cannot export: `{text}` on line {line} has no byte or address"

/-- Whether a token of this kind stands for a byte. -/
def TokenKind.takesByte : TokenKind → Bool
  | .label | .directive => false
  | _ => true

def Token.entry (t : Token) : Except ExportError Image.Entry :=
  match t.address, t.byte with
  | some address, some byte => .ok ⟨address, byte⟩
  | _, _ => .error (.missingByte t.text t.line)

def Image.ofTokens (ts : List Token) : Except ExportError Image :=
  let errored := ts.countP (·.isErrored)
  if errored = 0 then (ts.filter (·.kind.takesByte)).mapM Token.entry
  else .error (.hasErrors errored)

end Octet
