import Octet.Proofs.Assembly.OperandBlame
import Octet.Proofs.Assembly.OperandWalk

/-! # Lines checked alone

What the operand check makes of a line of a source text it makes of the tokens on that line alone. So
an error on a line is never due to another line, and what an instruction needs and blames is found
among the tokens next to it.
-/

namespace Octet

open Token Operands

theorem events_of_instruction {source : Text} {t : Token}
    (ht : t ∈ splitAddresses (tokenize source)) (hk : t.kind = .instruction) :
    t.events = [.note (.classified .instruction)] := by
  rw [tokenize, splitAddresses_flatMap] at ht
  obtain ⟨x, -, ht⟩ := List.mem_flatMap.1 ht
  exact (part_of_mem_splitAddresses ht).events hk

def onLine (n : Nat) (ts : List Token) : List Token := ts.filter (·.line == n)

theorem checkOperands_onLine (n : Nat) (ts : List Token) :
    checkOperands (onLine n ts) = checkLine true (onLine n ts) := by
  simpa using checkOperands_flatMap (fun x : Unit × Nat => onLine x.2 ts) (by simp [onLine]) [()] n

theorem onLine_checkLine {line : Nat} {ts : List Token} (h : ∀ t ∈ ts, t.line = line) (n : Nat) :
    onLine n (checkLine true ts) = checkLine true (onLine n ts) := by
  by_cases hn : line = n
  · have hall : ∀ {us : List Token}, (∀ t ∈ us, t.line = line) → onLine n us = us := fun h =>
      List.filter_eq_self.2 fun t ht => by rw [h t ht, hn, beq_self_eq_true]
    rw [hall h, hall (line_of_mem_checkLine h)]
  · have hnone : ∀ {us : List Token}, (∀ t ∈ us, t.line = line) → onLine n us = [] := fun h =>
      List.filter_eq_nil_iff.2 fun t ht => by simp [h t ht, hn]
    rw [hnone h, hnone (line_of_mem_checkLine h), checkLine]

/-- A line of the checked tokens is that line of the tokens, checked alone. -/
theorem onLine_checked (n : Nat) (source : Text) :
    onLine n (checked source) = checkLine true (onLine n (splitAddresses (tokenize source))) := by
  let f (x : Text × Nat) : List Token := splitAddresses (Line.tokens x.2 x.1)
  have hf : ∀ x, ∀ t ∈ f x, t.line = x.2 := fun x =>
    line_of_mem_splitAddresses fun t ht => line_of_mem_tokens ht
  have hon : ∀ x, ∀ t ∈ onLine n (f x), t.line = x.2 := fun x t ht =>
    hf x t (List.mem_of_mem_filter ht)
  have hbefore : splitAddresses (tokenize source) =
      ((source.splitOn '\n').zipIdx 1).flatMap f := splitAddresses_flatMap _ _
  calc onLine n (checked source)
      = ((source.splitOn '\n').zipIdx 1).flatMap fun x => onLine n (checkLine true (f x)) := by
        rw [checked_eq, onLine, List.filter_flatMap]
        rfl
    _ = ((source.splitOn '\n').zipIdx 1).flatMap fun x => checkLine true (onLine n (f x)) := by
        simp only [onLine_checkLine (hf _)]
    _ = checkOperands (((source.splitOn '\n').zipIdx 1).flatMap fun x => onLine n (f x)) :=
        (checkOperands_flatMap _ hon _ _).symm
    _ = checkOperands (onLine n (splitAddresses (tokenize source))) := by
        rw [hbefore, onLine, List.filter_flatMap]
        rfl
    _ = checkLine true (onLine n (splitAddresses (tokenize source))) := checkOperands_onLine n _

/-- What the operand check makes of the tokens of a line. -/
structure LineCheck (before after : List Token) : Prop where
  /-- No other line matters. -/
  alone : after = checkOperands before
  samePiece : List.Forall₂ SamePiece before after
  instruction : ∀ {i t}, after[i]? = some t → t.kind = .instruction →
    (t.isErrored = false ↔ i = 0 ∧ ∃ op, Takes op t after.tail ∧ Clean after.tail)
  satisfied : ∀ {t}, t ∈ after → t.kind = .instruction → t.isErrored = false →
    ∃ op, Opcode.ofMnemonic? t.text = some op ∧
      t.events = [.note (.classified .instruction), .note (.operandsSatisfied op)]
  other : ∀ {i t t'}, before[i]? = some t → after[i]? = some t' → t.kind ≠ .instruction →
    Sound after i t t'

/-- The check of a source text is one walk over its tokens, and yet what it makes of a line depends
on that line alone: an instruction is without an error exactly at its beginning and before its
operands, and any other token gains only an error that an instruction on the line blames on it. -/
theorem lineCheck_checked (source : Text) :
    checked source = walk none (splitAddresses (tokenize source)) ∧
      ∀ n, LineCheck (onLine n (splitAddresses (tokenize source))) (onLine n (checked source)) := by
  refine ⟨checkOperands_eq_walk _, fun n => ?_⟩
  have hevents : ∀ t ∈ onLine n (splitAddresses (tokenize source)), t.kind = .instruction →
      t.events = [.note (.classified .instruction)] := fun t ht =>
    events_of_instruction (List.mem_of_mem_filter ht)
  have halone := checkOperands_onLine n (splitAddresses (tokenize source))
  rw [onLine_checked]
  generalize onLine n (splitAddresses (tokenize source)) = line at hevents halone ⊢
  refine ⟨halone.symm, ?samePiece, ?instruction, ?satisfied, ?other⟩
  case samePiece => exact (forall₂_checkLine true line).imp fun _ _ h => h.annotated.samePiece
  case instruction =>
    refine unerrored_iff_takes fun t ht hk => ?_
    simp [isErrored, hevents t ht hk, Event.error?]
  case satisfied =>
    intro t' ht' hk he
    obtain ⟨i, hi⟩ := List.mem_iff_getElem?.1 ht'
    obtain ⟨op, t, operands, -, rfl, htakes, -, rfl, -⟩ := exists_takes_of_unerrored hi hk he
    refine ⟨op, htakes.known, ?_⟩
    rw [note, record, hevents t (by simp) htakes.kind]
    rfl
  case other =>
    intro i t t' h h' hk
    obtain ⟨u, hu, hsound⟩ := sound_checkLine h hk
    obtain rfl : u = t' := Option.some.inj (hu.symm.trans h')
    exact hsound

/-- The first token too many and an instruction in its place are blamed, the token behind is not. -/
example : (checked "CLA 1 2 3\nNOP HLT".toList).map (·.errors.map (·.category)) =
    [["excess argument"], [], ["excess argument"], [], ["excess argument"], ["excess argument"]] := by
  decide +kernel

end Octet
