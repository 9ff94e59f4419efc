import Mathlib.Data.List.Forall2
import Mathlib.Data.List.SplitBy
import Octet.Assembly.Operands
import Octet.Proofs.Assembly.Piece

/-! # What the operand check leaves

The check of a line adds events to its tokens and changes nothing else about them. It leaves the line
without errors exactly if there was none before and the line is an instruction with its operands, or
holds no instruction at all.
-/

namespace Octet

namespace Token

def annotate (t : Token) (es : List Event) : Token := { t with events := t.events ++ es }

theorem annotate_nil (t : Token) : t.annotate [] = t := by simp [annotate]

theorem annotate_annotate (t : Token) (es fs : List Event) :
    (t.annotate es).annotate fs = t.annotate (es ++ fs) := by
  simp [annotate]

/-- Events that blame the source text, not the assembler. -/
def Plain (es : List Event) : Prop := ∀ fault, Event.error (.internal fault) ∉ es

theorem plain_append {es fs : List Event} : Plain (es ++ fs) ↔ Plain es ∧ Plain fs := by
  simp [Plain, forall_and]

/-- What a check can make of a token. -/
def Annotated (t t' : Token) : Prop := ∃ es, t' = t.annotate es ∧ Plain es

theorem Annotated.refl (t : Token) : Annotated t t :=
  ⟨[], t.annotate_nil.symm, fun _ h => by cases h⟩

theorem Annotated.trans {t u v : Token} (h : Annotated t u) (h' : Annotated u v) :
    Annotated t v := by
  obtain ⟨es, rfl, hes⟩ := h
  obtain ⟨fs, rfl, hfs⟩ := h'
  exact ⟨es ++ fs, t.annotate_annotate es fs, plain_append.2 ⟨hes, hfs⟩⟩

theorem annotated_note (t : Token) (n : Note) : Annotated t (t.note n) :=
  ⟨[.note n], rfl, by simp [Plain]⟩

theorem annotated_error (t : Token) {e : CompileError} (h : ∀ fault, e ≠ .internal fault) :
    Annotated t (t.error e) :=
  ⟨[.error e], rfl, by simpa [Plain, eq_comm] using h⟩

/-- The token `t'` is made of the same piece of the source text as `t`. -/
structure SamePiece (t t' : Token) : Prop where
  line : t'.line = t.line
  kind : t'.kind = t.kind
  text : t'.text = t.text

theorem SamePiece.trans {t u v : Token} (h : SamePiece t u) (h' : SamePiece u v) : SamePiece t v :=
  ⟨h'.line.trans h.line, h'.kind.trans h.kind, h'.text.trans h.text⟩

theorem SamePiece.symm {t t' : Token} (h : SamePiece t t') : SamePiece t' t :=
  ⟨h.line.symm, h.kind.symm, h.text.symm⟩

theorem Annotated.samePiece {t t' : Token} (h : Annotated t t') : SamePiece t t' := by
  obtain ⟨es, rfl, -⟩ := h
  exact ⟨rfl, rfl, rfl⟩

end Token

namespace Operands

open Token

/-- An instruction and the tokens behind it, if these are exactly its operands. -/
structure Takes (op : Opcode) (t : Token) (operands : List Token) : Prop where
  kind : t.kind = .instruction
  known : Opcode.ofMnemonic? t.text = some op
  accepts : List.Forall₂ (fun k o => OperandKind.accepts k o.kind = true) op.operands operands

theorem not_instruction_of_accepts {k : OperandKind} {kind : TokenKind}
    (h : k.accepts kind = true) : kind ≠ .instruction := by
  rintro rfl
  cases k <;> cases h

theorem not_instruction_of_forall₂ {kinds : List OperandKind} {operands : List Token}
    (h : List.Forall₂ (fun k o => OperandKind.accepts k o.kind = true) kinds operands) :
    ∀ o ∈ operands, o.kind ≠ .instruction := by
  induction h with
  | nil => simp
  | cons hk _ ih => exact List.forall_mem_cons.2 ⟨not_instruction_of_accepts hk, ih⟩

theorem take_of_accepts (op : Opcode) {kinds : List OperandKind} {operands : List Token}
    (h : List.Forall₂ (fun k o => OperandKind.accepts k o.kind = true) kinds operands)
    (hc : Clean operands) (given : Nat) (rest : List Token) :
    take op given kinds (operands ++ rest) = ([], operands, rest) := by
  induction h generalizing given with
  | nil => rfl
  | cons ha _ ih =>
    obtain ⟨ht, hc⟩ := clean_cons.1 hc
    simp [take, fault?, mark, ht, ha, ih hc]

theorem accepts_of_take {op : Opcode} {given : Nat} {kinds : List OperandKind} {ts : List Token}
    (h : (take op given kinds ts).1 = []) :
    ∃ operands rest, ts = operands ++ rest ∧ Clean operands ∧
      List.Forall₂ (fun k o => OperandKind.accepts k o.kind = true) kinds operands := by
  induction kinds generalizing given ts with
  | nil => exact ⟨[], ts, rfl, clean_nil, .nil⟩
  | cons k kinds ih =>
    cases ts with
    | nil => simp [take] at h
    | cons t ts =>
      simp only [take, List.append_eq_nil_iff, Option.toList_eq_nil_iff] at h
      obtain ⟨operands, rest, rfl, hc, ha⟩ := ih h.2
      have ht := h.1
      simp only [fault?] at ht
      split at ht
      · cases ht
      · next he =>
        split at ht
        · next hk => exact ⟨t :: operands, rest, rfl, by simp [he, hc], .cons hk ha⟩
        · cases ht

/-- Tokens in which an instruction finds no fault and nothing too many are its operands. -/
theorem accepts_of_take_excess {op : Opcode} {ts : List Token}
    (htake : (take op 0 op.operands ts).1 = [])
    (hexcess : (excess op (take op 0 op.operands ts).2.2).1 = []) :
    Clean ts ∧ List.Forall₂ (fun k o => OperandKind.accepts k o.kind = true) op.operands ts := by
  obtain ⟨operands, rest, rfl, hc, ha⟩ := accepts_of_take htake
  rw [take_of_accepts op ha hc] at hexcess
  cases rest with
  | nil => simpa using And.intro hc ha
  | cons t ts => simp [excess] at hexcess

theorem isErrored_conclude (op : Opcode) (t : Token) (es : List CompileError) :
    (conclude op t es).isErrored = (t.isErrored || !es.isEmpty) := by
  have fold : ∀ (es : List CompileError) (t : Token),
      (es.foldl Token.error t).isErrored = (t.isErrored || !es.isEmpty) := by
    intro es
    induction es with
    | nil => simp
    | cons e es ih => simp [ih]
  cases es with
  | nil => simp [conclude]
  | cons e es => exact fold (e :: es) t

theorem checkLine_of_no_instruction {ts : List Token} (h : ∀ t ∈ ts, t.kind ≠ .instruction)
    (isFirst : Bool) : checkLine isFirst ts = ts := by
  induction ts generalizing isFirst with
  | nil => simp [checkLine]
  | cons t ts ih =>
    have ht : (t.kind != .instruction || t.isErrored) = true := by simp [h t (by simp)]
    rw [checkLine, if_pos ht, ih fun s hs => h s (by simp [hs])]

theorem checkLine_of_takes {op : Opcode} {t : Token} {operands : List Token}
    (h : Takes op t operands) (ht : t.isErrored = false) (hc : Clean operands) :
    checkLine true (t :: operands) = t.note (.operandsSatisfied op) :: operands := by
  have htake := take_of_accepts op h.accepts hc 0 []
  rw [List.append_nil] at htake
  simp [checkLine, h.kind, ht, h.known, htake, excess, conclude]

theorem no_instruction_of_clean {ts : List Token} (h : Clean (checkLine false ts)) :
    Clean ts ∧ ∀ t ∈ ts, t.kind ≠ .instruction := by
  induction ts with
  | nil => simp
  | cons t ts ih =>
    rw [checkLine] at h
    split at h
    · next hp =>
      obtain ⟨ht, hc⟩ := clean_cons.1 h
      obtain ⟨hc, hk⟩ := ih hc
      simp only [ht, Bool.or_false, bne_iff_ne] at hp
      exact ⟨clean_cons.2 ⟨ht, hc⟩, List.forall_mem_cons.2 ⟨hp, hk⟩⟩
    · split at h
      · simp at h
      · have := (clean_cons.1 h).1
        simp [isErrored_conclude] at this

theorem clean_checkLine_iff {ts : List Token} : Clean (checkLine true ts) ↔
    Clean ts ∧ ((∀ t ∈ ts, t.kind ≠ .instruction) ∨
      ∃ op t operands, ts = t :: operands ∧ Takes op t operands) := by
  constructor
  · intro h
    cases ts with
    | nil => simp
    | cons t ts =>
      rw [checkLine] at h
      split at h
      · next hp =>
        obtain ⟨ht, hc⟩ := clean_cons.1 h
        obtain ⟨hc, hk⟩ := no_instruction_of_clean hc
        simp only [ht, Bool.or_false, bne_iff_ne] at hp
        exact ⟨clean_cons.2 ⟨ht, hc⟩, Or.inl (List.forall_mem_cons.2 ⟨hp, hk⟩)⟩
      · next hp =>
        simp only [Bool.or_eq_true, bne_iff_ne, not_or, not_not, Bool.not_eq_true] at hp
        split at h
        · simp at h
        · next op hop =>
          have hs := (clean_cons.1 h).1
          simp only [isErrored_conclude, ↓reduceIte, List.nil_append, Bool.or_eq_false_iff,
            Bool.not_eq_false', List.isEmpty_iff, List.append_eq_nil_iff] at hs
          obtain ⟨hc, ha⟩ := accepts_of_take_excess hs.2.1 hs.2.2
          exact ⟨clean_cons.2 ⟨hp.2, hc⟩, Or.inr ⟨op, t, ts, rfl, hp.1, hop, ha⟩⟩
  · rintro ⟨hc, hk | ⟨op, t, operands, rfl, h⟩⟩
    · rwa [checkLine_of_no_instruction hk]
    · obtain ⟨ht, hc⟩ := clean_cons.1 hc
      rw [checkLine_of_takes h ht hc]
      simp [ht, hc]

/-- What the check makes of a token: it adds events, and an instruction that stays unerrored has a
known mnemonic. -/
structure Checked (t t' : Token) : Prop where
  annotated : Annotated t t'
  known : t'.kind = .instruction → t'.isErrored = false →
    ∃ op, Opcode.ofMnemonic? t'.text = some op

theorem Checked.of_not_instruction {t t' : Token} (h : Annotated t t')
    (hk : t.kind ≠ .instruction) : Checked t t' := by
  refine ⟨h, fun hk' => ?_⟩
  obtain ⟨es, rfl, -⟩ := h
  exact absurd hk' hk

theorem Checked.of_isErrored {t t' : Token} (h : Annotated t t') (he : t'.isErrored = true) :
    Checked t t' :=
  ⟨h, fun _ hn => by rw [he] at hn; cases hn⟩

theorem plain_map_error {es : List CompileError}
    (h : ∀ e ∈ es, ∀ fault, e ≠ .internal fault) : Plain (es.map .error) := by
  intro fault hf
  obtain ⟨e, he, heq⟩ := List.mem_map.1 hf
  exact h e he fault (Event.error.inj heq)

theorem foldl_error (t : Token) (es : List CompileError) :
    es.foldl Token.error t = t.annotate (es.map .error) := by
  induction es generalizing t with
  | nil => exact t.annotate_nil.symm
  | cons e es ih => rw [List.foldl_cons, ih]; exact t.annotate_annotate [.error e] _

theorem annotated_conclude (op : Opcode) (t : Token) {es : List CompileError}
    (h : ∀ e ∈ es, ∀ fault, e ≠ .internal fault) : Annotated t (conclude op t es) := by
  cases es with
  | nil => exact annotated_note t _
  | cons e es => exact ⟨_, foldl_error t (e :: es), plain_map_error h⟩

theorem checked_mark (op : Opcode) (position : Nat) (expected : OperandKind) (t : Token) :
    Checked t (mark op position expected t) := by
  simp only [mark]
  split
  · next h =>
    rcases Bool.or_eq_true _ _ ▸ h with he | ha
    · exact .of_isErrored (.refl t) he
    · exact .of_not_instruction (.refl t) (not_instruction_of_accepts ha)
  · exact .of_isErrored (annotated_error t (by simp)) (isErrored_error t _)

theorem plain_take (op : Opcode) (given : Nat) (kinds : List OperandKind) (ts : List Token) :
    ∀ e ∈ (take op given kinds ts).1, ∀ fault, e ≠ .internal fault := by
  induction kinds generalizing given ts with
  | nil => simp [take]
  | cons k kinds ih =>
    cases ts with
    | nil => simp [take]
    | cons t ts =>
      intro e he
      simp only [take, List.mem_append, Option.mem_toList] at he
      rcases he with he | he
      · simp only [fault?] at he
        split at he
        · cases he; simp
        · split at he <;> cases he; simp
      · exact ih (given + 1) ts e he

theorem forall₂_take (op : Opcode) (given : Nat) (kinds : List OperandKind) (ts : List Token) :
    ∃ front, ts = front ++ (take op given kinds ts).2.2 ∧
      List.Forall₂ Checked front (take op given kinds ts).2.1 := by
  induction kinds generalizing given ts with
  | nil => exact ⟨[], rfl, .nil⟩
  | cons k kinds ih =>
    cases ts with
    | nil => exact ⟨[], rfl, .nil⟩
    | cons t ts =>
      obtain ⟨front, hts, hf⟩ := ih (given + 1) ts
      exact ⟨t :: front, congrArg (t :: ·) hts, .cons (checked_mark op _ k t) hf⟩

theorem forall₂_excess (op : Opcode) (ts : List Token) :
    List.Forall₂ Annotated ts (excess op ts).2 := by
  cases ts with
  | nil => exact .nil
  | cons t ts =>
    exact .cons (annotated_error t (by simp)) (List.forall₂_same.2 fun s _ => .refl s)

theorem plain_excess (op : Opcode) (ts : List Token) :
    ∀ e ∈ (excess op ts).1, ∀ fault, e ≠ .internal fault := by
  cases ts <;> simp [excess]

theorem forall₂_trans {ss ts us : List Token} (h : List.Forall₂ Annotated ss ts)
    (h' : List.Forall₂ Checked ts us) : List.Forall₂ Checked ss us := by
  induction h generalizing us with
  | nil => exact h'
  | cons ha _ ih =>
    obtain ⟨u, us, hu, hus, rfl⟩ := List.forall₂_cons_left_iff.1 h'
    exact .cons ⟨ha.trans hu.annotated, hu.known⟩ (ih hus)

theorem forall₂_checkLine (isFirst : Bool) (ts : List Token) :
    List.Forall₂ Checked ts (checkLine isFirst ts) := by
  fun_induction checkLine isFirst ts with
  | case1 => exact .nil
  | case2 isFirst t ts h ih =>
    refine .cons ⟨.refl t, fun hk he => ?_⟩ ih
    simp [hk, he] at h
  | case3 isFirst t ts h hop ih =>
    exact .cons (.of_isErrored (annotated_error t (by simp)) (isErrored_error t _)) ih
  | case4 isFirst t ts h op hop start taken left ih =>
    obtain ⟨front, hts, hf⟩ := forall₂_take op 0 op.operands ts
    have hplain : ∀ e ∈ start ++ taken.1 ++ left.1, ∀ fault, e ≠ .internal fault := by
      intro e he
      rcases List.mem_append.1 he with he | he
      · rcases List.mem_append.1 he with he | he
        · cases isFirst <;> simp [start] at he
          simp [he]
        · exact plain_take op 0 op.operands ts e he
      · exact plain_excess op _ e he
    refine .cons ⟨annotated_conclude op t hplain, fun _ _ => ⟨op, ?_⟩⟩ ?_
    · obtain ⟨es, he, -⟩ := annotated_conclude op t hplain
      rw [he]
      exact hop
    · rw [hts]
      exact List.rel_append hf (forall₂_trans (forall₂_excess op _) ih)

end Operands

/-- Tokens that stand line by line are checked line by line. -/
theorem checkOperands_flatMap {α : Type} (f : α × Nat → List Token)
    (hf : ∀ x, ∀ t ∈ f x, t.line = x.2) (xs : List α) (n : Nat) :
    checkOperands ((xs.zipIdx n).flatMap f) =
      (xs.zipIdx n).flatMap fun x => Operands.checkLine true (f x) := by
  induction xs generalizing n with
  | nil => rfl
  | cons x xs ih =>
    have hlater : ∀ t ∈ (xs.zipIdx (n + 1)).flatMap f, n < t.line := by
      intro t ht
      obtain ⟨y, hy, ht⟩ := List.mem_flatMap.1 ht
      rw [hf y t ht]
      exact List.le_snd_of_mem_zipIdx hy
    have hsplit : (f (x, n) ++ (xs.zipIdx (n + 1)).flatMap f).splitBy (fun s t => s.line == t.line) =
        (f (x, n)).splitBy (fun s t => s.line == t.line) ++
          ((xs.zipIdx (n + 1)).flatMap f).splitBy (fun s t => s.line == t.line) := by
      refine List.splitBy_append fun s hs t ht => ?_
      have hs := hf (x, n) s (List.mem_of_mem_getLast? hs)
      have ht := hlater t (List.mem_of_mem_head? ht)
      simp only [beq_eq_false_iff_ne]
      omega
    have hfirst : ((f (x, n)).splitBy fun s t => s.line == t.line).flatMap
        (Operands.checkLine true) = Operands.checkLine true (f (x, n)) := by
      cases hl : f (x, n) with
      | nil => simp [Operands.checkLine]
      | cons t ts =>
        rw [List.splitBy_of_isChain (by simp)]
        · simp
        · refine (List.pairwise_of_forall_mem_list fun s hs u hu => ?_).isChain
          rw [← hl] at hs hu
          simp [hf (x, n) s hs, hf (x, n) u hu]
    have ih := ih (n + 1)
    simp only [checkOperands] at ih ⊢
    rw [List.zipIdx_cons, List.flatMap_cons, List.flatMap_cons, hsplit, List.flatMap_append, hfirst,
      ih]

end Octet
