import Octet.Assembly.Directive
import Octet.Assembly.LabelTable
import Octet.Assembly.Token

/-! # Layout

A cursor walks the tokens with the address of the next byte and the labels bound so far. A label
takes the address that the counter shows and no room; a directive moves the counter and leaves; every
other token, the errored ones among them, takes one address.
-/

namespace Octet

structure Cursor where
  counter : Nat
  labels : LabelTable
deriving DecidableEq, Repr

namespace Cursor

def start : Cursor := ⟨0, []⟩

def advance (c : Cursor) : Cursor := { c with counter := c.counter + 1 }

/-- An errored token takes up room, and has an address where there is one. -/
def skip (c : Cursor) (t : Token) : Token := { t with address := Directive.address? c.counter }

def bind (c : Cursor) (t : Token) : Token × Cursor :=
  match Directive.address? c.counter with
  | none => (t.error (.addressOutOfRange c.counter), c)
  | some a =>
    match c.labels.define t.output ⟨a, t.line⟩ with
    | .ok labels => ({ t with address := some a }.note (.labelBound a), { c with labels })
    | .error first => (t.error (.labelAlreadyDefined t.output first.line), c)

/-- Places one token. A directive that has moved the counter is dropped. -/
def place (c : Cursor) (t : Token) : Option Token × Cursor :=
  if t.isErrored then (some (c.skip t), c.advance)
  else match t.kind with
  | .label => let (t, c) := c.bind t; (some t, c)
  | .directive =>
    match Directive.target c.counter t.output with
    | .ok a => (none, { c with counter := a.toNat })
    | .error e => (some (c.skip (t.error e)), c.advance)
  | _ =>
    match Directive.address? c.counter with
    | some a => (some { t with address := some a }, c.advance)
    | none => (some (t.error (.addressOutOfRange c.counter)), c.advance)

def placeAll (c : Cursor) : List Token → List Token × Cursor
  | [] => ([], c)
  | t :: ts =>
    let (placed, c) := c.place t
    let (rest, c) := placeAll c ts
    (placed.toList ++ rest, c)

theorem placeAll_append (c : Cursor) (ss ts : List Token) :
    c.placeAll (ss ++ ts) =
      ((c.placeAll ss).1 ++ ((c.placeAll ss).2.placeAll ts).1,
        ((c.placeAll ss).2.placeAll ts).2) := by
  induction ss generalizing c with
  | nil => rfl
  | cons s ss ih => simp [placeAll, ih, List.append_assoc]

end Cursor

def layout (ts : List Token) : List Token × LabelTable :=
  let (ts, c) := Cursor.start.placeAll ts
  (ts, c.labels)

end Octet
