import Octet.Assembly.Encoding
import Octet.Assembly.Export
import Octet.Assembly.Layout
import Octet.Assembly.Line
import Octet.Assembly.Operands

/-! # Compilations

A source text always compiles: what is wrong stays with the tokens. From the tokens are read a
summary of one line, a listing with a row for each token, and the image, if nothing is wrong.
-/

namespace Octet

structure Compilation where
  tokens : List Token
  labels : LabelTable
deriving DecidableEq, Repr

/-- The outcome on one line; a failure names the first errored token. -/
inductive Summary where
  | clean
  | failed (line : Nat) (address : Option Address) (category : String) (count : Nat)
deriving DecidableEq, Repr

def Summary.message : Summary → String
  | .clean => "compiled without errors"
  | .failed line address category count =>
    let place := match address with
      | some a => s!" (address {a})"
      | none => ""
    let more := count - 1
    let others := if 1 < count then s!"; {more} more error(s)" else ""
    s!"{category} on line {line}{place}{others}"

structure ListingRow where
  line : Nat
  address : Option Address
  text : Text
  explanation : List String
deriving DecidableEq, Repr

/-- What a listing shows for a token: a label has its colon, an errored token its first error. -/
def Token.rendered (t : Token) : Text :=
  let colon := if t.kind = .label then [':'] else []
  let category := match t.firstError? with
    | some e => ' ' :: e.category.toList
    | none => []
  t.output ++ colon ++ category

def compile (source : Text) : Compilation :=
  let (ts, labels) := layout (checkOperands (splitAddresses (tokenize source)))
  ⟨encode labels ts, labels⟩

namespace Compilation

def errored (c : Compilation) : List Token := c.tokens.filter (·.isErrored)

def hasErrors (c : Compilation) : Bool := c.tokens.any (·.isErrored)

def summary (c : Compilation) : Summary :=
  match c.errored with
  | [] => .clean
  | t :: ts =>
    .failed t.line t.address ((t.firstError?.map (·.category)).getD "unknown") (ts.length + 1)

def listing (c : Compilation) : List ListingRow :=
  c.tokens.map fun t => ⟨t.line, t.address, t.rendered, t.events.map (·.message)⟩

def image (c : Compilation) : Except ExportError Image := Image.ofTokens c.tokens

end Compilation

end Octet
