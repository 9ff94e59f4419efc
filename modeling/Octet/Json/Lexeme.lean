import Octet.Json.Basic

/-! # JSON lexemes

`lexemes?` cuts a text into brackets, separators and scalars. A number takes every following
character that a number may hold, and the whole run has to be one number; between lexemes stand only
space, tab, line feed and carriage return.
-/

namespace Octet.Json

inductive Lexeme where
  | openArray
  | closeArray
  | openObject
  | closeObject
  | comma
  | colon
  | scalar (v : Json)
deriving Repr

def punctuation? : Char → Option Lexeme
  | '[' => some .openArray
  | ']' => some .closeArray
  | '{' => some .openObject
  | '}' => some .closeObject
  | ',' => some .comma
  | ':' => some .colon
  | _ => none

def isSpace (c : Char) : Bool := c == ' ' || c == '\t' || c == '\n' || c == '\r'

def escaped? : Char → Option Char
  | '"' => some '"'
  | '\\' => some '\\'
  | '/' => some '/'
  | 'b' => some '\x08'
  | 'f' => some '\x0c'
  | 'n' => some '\n'
  | 'r' => some '\r'
  | 't' => some '\t'
  | _ => none

/-- The units up to the closing quote, and what stands behind it. -/
def scanString : Text → Option (List StringUnit × Text)
  | [] => none
  | '"' :: rest => some ([], rest)
  | '\\' :: 'u' :: a :: b :: c :: d :: rest => do
    let ds ← [a, b, c, d].mapM (Numeral.digit? 16)
    let (units, rest) ← scanString rest
    return (.code (Numeral.value 16 ds) :: units, rest)
  | '\\' :: c :: rest => do
    let c ← escaped? c
    let (units, rest) ← scanString rest
    return (.char c :: units, rest)
  | c :: rest =>
    if c.val < 0x20 then none
    else do
      let (units, rest) ← scanString rest
      return (.char c :: units, rest)

theorem length_lt_of_scanString {t rest : Text} {units : List StringUnit}
    (h : scanString t = some (units, rest)) : rest.length < t.length := by
  fun_induction scanString t generalizing units rest with
  | case1 => simp at h
  | case2 r => simp at h; simp [h.2]
  | case3 a b c d r ih =>
    simp only [bind, Option.bind_eq_some_iff, pure, Option.some.injEq, Prod.mk.injEq] at h
    obtain ⟨ds, -, ⟨us, r'⟩, hs, -, rfl⟩ := h
    have := ih hs
    simp only [List.length_cons]; omega
  | case4 c r _ ih =>
    simp only [bind, Option.bind_eq_some_iff, pure, Option.some.injEq, Prod.mk.injEq] at h
    obtain ⟨_, -, ⟨us, r'⟩, hs, -, rfl⟩ := h
    have := ih hs
    simp only [List.length_cons]; omega
  | case5 => simp at h
  | case6 c r _ _ _ _ ih =>
    simp only [bind, Option.bind_eq_some_iff, pure, Option.some.injEq, Prod.mk.injEq] at h
    obtain ⟨⟨us, r'⟩, hs, -, rfl⟩ := h
    have := ih hs
    simp only [List.length_cons]; omega

def isNumberChar (c : Char) : Bool :=
  c.isDigit || c == '-' || c == '+' || c == '.' || c == 'e' || c == 'E'

def isDigits (t : Text) : Bool := !t.isEmpty && t.all Char.isDigit

def isExponent : Text → Bool
  | [] => true
  | e :: '+' :: t => (e == 'e' || e == 'E') && isDigits t
  | e :: '-' :: t => (e == 'e' || e == 'E') && isDigits t
  | e :: t => (e == 'e' || e == 'E') && isDigits t

def isFraction : Text → Bool
  | '.' :: t => !(t.takeWhile Char.isDigit).isEmpty && isExponent (t.dropWhile Char.isDigit)
  | t => isExponent t

/-- A number without its sign: digits with no leading zero, a fraction, an exponent. -/
def isUnsigned (t : Text) : Bool :=
  let whole := t.takeWhile Char.isDigit
  (whole == ['0'] || (!whole.isEmpty && whole.head? != some '0')) &&
    isFraction (t.dropWhile Char.isDigit)

def isNumber : Text → Bool
  | '-' :: t => isUnsigned t
  | t => isUnsigned t

def lexemes? : Text → Option (List Lexeme)
  | [] => some []
  | 'n' :: 'u' :: 'l' :: 'l' :: rest => (lexemes? rest).map (.scalar .null :: ·)
  | 't' :: 'r' :: 'u' :: 'e' :: rest => (lexemes? rest).map (.scalar (.bool true) :: ·)
  | 'f' :: 'a' :: 'l' :: 's' :: 'e' :: rest => (lexemes? rest).map (.scalar (.bool false) :: ·)
  | '"' :: rest =>
    match _h : scanString rest with
    | some (units, rest') => (lexemes? rest').map (.scalar (.string units) :: ·)
    | none => none
  | c :: rest =>
    match punctuation? c with
    | some l => (lexemes? rest).map (l :: ·)
    | none =>
      let literal := c :: rest.takeWhile isNumberChar
      if isSpace c then lexemes? rest
      else if isNumber literal then
        (lexemes? (rest.dropWhile isNumberChar)).map (.scalar (.number literal) :: ·)
      else none
termination_by t => t.length
decreasing_by
  all_goals simp only [List.length_cons]
  all_goals first
    | omega
    | exact Nat.lt_succ_of_lt (length_lt_of_scanString _h)
    | exact Nat.lt_succ_of_le (List.dropWhile_sublist isNumberChar).length_le

end Octet.Json
