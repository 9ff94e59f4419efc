import Octet.Assembly.Pattern

/-! # Lines

A source text is cut into lines and each line into tokens. What stands behind the first `-` of a line
is a comment. A line that begins with `#` is one directive; any other is its pieces, and pieces are
separated by spaces only.
-/

namespace Octet

namespace Line

/-- A line without its comment, its leading blanks and the return at its end. -/
def code (raw : Text) : Text :=
  Text.trimStart (((raw.dropSuffix? ['\r']).getD raw).takeWhile (· != '-'))

example : code " \tNOP \r".toList = "NOP ".toList ∧ code "NOP\r\r".toList = "NOP\r".toList ∧
    code "NOP 5- a - b".toList = "NOP 5".toList := by decide +kernel

def tokens (line : Nat) (raw : Text) : List Token :=
  match code raw with
  | [] => []
  | '#' :: rest => [.ofDirective line ('#' :: rest)]
  | code => code.pieces.map (.ofPiece line)

end Line

/-- The tokens of a source text; its lines are counted from one. -/
def tokenize (source : Text) : List Token :=
  ((source.splitOn '\n').zipIdx 1).flatMap fun (raw, line) => Line.tokens line raw

def Token.splits (t : Token) : Bool := t.kind == .address && !t.isErrored

def splitAddresses (ts : List Token) : List Token :=
  ts.flatMap fun t => if t.splits then [t.half .high, t.half .low] else [t]

def splitCount (ts : List Token) : Nat := ts.countP (·.splits)

end Octet
