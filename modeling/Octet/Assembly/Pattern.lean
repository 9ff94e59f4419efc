import Octet.Assembly.Token

/-! # Patterns of pieces

The forms that a piece of a line can have. `Token.ofPiece` takes the first pattern that the piece
fits; a piece that fits none is errored from the start.
-/

namespace Octet

namespace Pattern

def isNameChar (c : Char) : Bool := c.isAlpha || c == '_' || c == '-'

def isLabelChar (c : Char) : Bool := isNameChar c || c.isDigit

def isHexDigits (t : Text) : Bool := !t.isEmpty && t.all fun c => (Numeral.digit? 16 c).isSome

def isMnemonic (t : Text) : Bool := !t.isEmpty && t.all Char.isUpper

def isName (t : Text) : Bool := !t.isEmpty && t.all isNameChar

def isLabelName (t : Text) : Bool := !t.isEmpty && t.all isLabelChar

def address? : Text → Option Text
  | '@' :: name => if isName name then some name else none
  | _ => none

/-- The half that an address byte selects. -/
def half? (t : Text) : Option Half :=
  match t with
  | '@' :: rest =>
    match Text.dropSuffix? rest Half.high.suffix, Text.dropSuffix? rest Half.low.suffix with
    | some name, _ => if isName name then some .high else none
    | none, some name => if isName name then some .low else none
    | none, none => none
  | _ => none

def label? (t : Text) : Option Text :=
  match t.dropSuffix? [':'] with
  | some name => if isLabelName name then some name else none
  | none => none

def isByteLiteral (t : Text) : Bool :=
  isHexDigits t ||
    match t with
    | '0' :: 'b' :: digits | '0' :: 'x' :: digits => isHexDigits digits
    | _ => false

/-- The kind of a piece, and what a listing shows for it. -/
def classify (t : Text) : TokenKind × Text :=
  if isMnemonic t then (.instruction, t)
  else match address? t, half? t, label? t with
    | some name, _, _ => (.address, name)
    | none, some half, _ => (.addressByte half, t.drop 1)
    | none, none, some name => (.label, name)
    | none, none, none => if isByteLiteral t then (.byteLiteral, t) else (.invalid, t)

end Pattern

namespace Token

def ofPiece (line : Nat) (text : Text) : Token :=
  let (kind, output) := Pattern.classify text
  let t := fresh line text kind output
  if kind = .invalid then t.error (.invalidToken text) else t.note (.classified kind)

/-- The token of a line that begins with `#`. -/
def ofDirective (line : Nat) (text : Text) : Token :=
  (fresh line text.trim .directive text.trim).note (.classified .directive)

def half (t : Token) (h : Half) : Token :=
  (ofPiece t.line (t.text ++ h.suffix)).note (.splitFromAddress h)

@[simp] theorem line_ofPiece (line : Nat) (text : Text) : (ofPiece line text).line = line := by
  simp only [ofPiece]
  split <;> rfl

@[simp] theorem text_ofPiece (line : Nat) (text : Text) : (ofPiece line text).text = text := by
  simp only [ofPiece]
  split <;> rfl

end Token

end Octet
