import Octet.Proofs.Assembly.Extension

/-! # Lines further down

What is found out about a token before it is placed does not depend on the number of its line. So
the lines of a text that is moved down have the tokens that they had, moved down likewise.
-/

namespace Octet

namespace Token

/-- The token one line further down. -/
def down (t : Token) : Token := { t with line := t.line + 1 }

@[simp] theorem line_down (t : Token) : t.down.line = t.line + 1 := rfl

@[simp] theorem text_down (t : Token) : t.down.text = t.text := rfl

@[simp] theorem kind_down (t : Token) : t.down.kind = t.kind := rfl

@[simp] theorem isErrored_down (t : Token) : t.down.isErrored = t.isErrored := rfl

theorem error_down (t : Token) (e : CompileError) : t.down.error e = (t.error e).down := rfl

theorem note_down (t : Token) (n : Note) : t.down.note n = (t.note n).down := rfl

theorem ofPiece_down (line : Nat) (piece : Text) :
    ofPiece (line + 1) piece = (ofPiece line piece).down := by
  simp only [ofPiece]
  split <;> rfl

theorem SamePiece.down {t t' : Token} (h : SamePiece t t') : SamePiece t.down t'.down :=
  ⟨congrArg (· + 1) h.line, h.kind, h.text⟩

theorem half_down (t : Token) (side : Half) : t.down.half side = (t.half side).down := by
  rw [half, line_down, ofPiece_down, note_down, text_down, half]

end Token

open Token

theorem Line.tokens_down (line : Nat) (raw : Text) :
    tokens (line + 1) raw = (tokens line raw).map down := by
  unfold tokens
  split
  · rfl
  · rfl
  · rw [List.map_map]
    exact List.map_congr_left fun piece _ => ofPiece_down line piece

theorem splitAddresses_down (ts : List Token) :
    splitAddresses (ts.map down) = (splitAddresses ts).map down := by
  rw [splitAddresses, List.flatMap_map, splitAddresses, List.map_flatMap]
  refine List.flatMap_congr fun t _ => ?_
  have hsplits : t.down.splits = t.splits := rfl
  rw [hsplits, half_down, half_down]
  split <;> rfl

namespace Operands

theorem mark_down (op : Opcode) (position : Nat) (expected : OperandKind) (t : Token) :
    mark op position expected t.down = (mark op position expected t).down := by
  rw [mark, mark, apply_ite down]
  rfl

theorem take_down (op : Opcode) (given : Nat) (kinds : List OperandKind) (ts : List Token) :
    take op given kinds (ts.map down) = ((take op given kinds ts).1,
      (take op given kinds ts).2.1.map down, (take op given kinds ts).2.2.map down) := by
  induction kinds generalizing given ts with
  | nil => rfl
  | cons expected more ih =>
    cases ts with
    | nil => rfl
    | cons t ts =>
      have hfault : ∀ position,
          fault? op position expected t.down = fault? op position expected t := fun _ => rfl
      simp only [List.map_cons, take, ih, mark_down, hfault]

theorem excess_down (op : Opcode) (ts : List Token) :
    excess op (ts.map down) = ((excess op ts).1, (excess op ts).2.map down) := by
  cases ts <;> rfl

theorem conclude_down (op : Opcode) (t : Token) (es : List CompileError) :
    conclude op t.down es = (conclude op t es).down := by
  cases es with
  | nil => rfl
  | cons e es =>
    rw [conclude_cons, conclude_cons]
    rfl

theorem checkLine_down (isFirst : Bool) (ts : List Token) :
    checkLine isFirst (ts.map down) = (checkLine isFirst ts).map down := by
  fun_induction checkLine isFirst ts with
  | case1 => rw [List.map_nil, checkLine]
  | case2 isFirst t ts h ih =>
    rw [List.map_cons, checkLine, kind_down, isErrored_down, if_pos h, ih, List.map_cons]
  | case3 isFirst t ts h hop ih =>
    rw [List.map_cons, checkLine, kind_down, isErrored_down, if_neg h, text_down, hop]
    simp only [ih, error_down, List.map_cons]
  | case4 isFirst t ts h op hop start taken left ih =>
    rw [List.map_cons, checkLine, kind_down, isErrored_down, if_neg h, text_down, hop]
    simp only [take_down, excess_down, conclude_down]
    rw [List.map_cons, List.map_append, ← ih]
    cases isFirst <;> rfl

end Operands

theorem Says.of_down {ts : List Token} {p : Program} (h : Says (ts.map down) p) : Says ts p := by
  obtain ⟨hc, hread⟩ := h
  refine ⟨fun t ht => hc t.down (List.mem_map_of_mem ht), ?_⟩
  rwa [List.mapM_map] at hread

theorem checkedFrom_succ (n : Nat) (source : Text) :
    checkedFrom (n + 1) source = (checkedFrom n source).map down := by
  rw [checkedFrom, checkedFrom, List.map_flatMap, List.zipIdx_succ, List.flatMap_map]
  refine List.flatMap_congr fun x _ => ?_
  rw [Line.tokens_down, splitAddresses_down, Operands.checkLine_down]

end Octet
