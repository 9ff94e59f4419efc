import Octet.Assembly.Event

/-! # Tokens

A token is a piece of a source text with what has been found out about it: its kind, its byte and the
address of that byte, and the events in their order. A token with an error among its events is
errored, and stays so, since events are only added.
-/

namespace Octet

structure Token where
  line : Nat
  text : Text
  kind : TokenKind
  /-- What a listing shows for the token. -/
  output : Text
  byte : Option Byte
  address : Option Address
  events : List Event
deriving DecidableEq, Repr

namespace Token

def fresh (line : Nat) (text : Text) (kind : TokenKind) (output : Text) : Token :=
  ⟨line, text, kind, output, none, none, []⟩

def record (t : Token) (e : Event) : Token := { t with events := t.events ++ [e] }

def note (t : Token) (n : Note) : Token := t.record (.note n)

def error (t : Token) (e : CompileError) : Token := t.record (.error e)

def errors (t : Token) : List CompileError := t.events.filterMap Event.error?

def isErrored (t : Token) : Bool := t.events.any (·.error?.isSome)

def firstError? (t : Token) : Option CompileError := t.errors.head?

theorem isErrored_iff (t : Token) : t.isErrored = true ↔ t.errors ≠ [] := by
  simp [isErrored, errors, Option.isSome_iff_ne_none]

@[simp] theorem errors_note (t : Token) (n : Note) : (t.note n).errors = t.errors := by
  simp [note, record, errors, Event.error?]

@[simp] theorem errors_error (t : Token) (e : CompileError) : (t.error e).errors = t.errors ++ [e] := by
  simp [error, record, errors, Event.error?]

@[simp] theorem isErrored_note (t : Token) (n : Note) : (t.note n).isErrored = t.isErrored := by
  simp [note, record, isErrored, Event.error?]

@[simp] theorem isErrored_error (t : Token) (e : CompileError) : (t.error e).isErrored = true := by
  simp [error, record, isErrored, Event.error?]

/-- The label that an address byte refers to: its text without the leading mark and without the two
bytes of its suffix. There is none if the cut falls within a character. -/
def referencedLabel? (t : Token) : Option Text :=
  match t.kind with
  | .addressByte _ =>
    let name : Text := match t.text with
      | '@' :: name => name
      | name => name
    name.takeUtf8? (name.utf8Size - 2)
  | _ => none

end Token

end Octet
