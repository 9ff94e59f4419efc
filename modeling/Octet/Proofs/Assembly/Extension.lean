import Octet.Proofs.Assembly.OperandBlame
import Octet.Proofs.Assembly.Outcome

/-! # Source text that is continued

What follows a source text does not change what has been found out about its tokens: every line is
checked alone, and the cursor comes to what stands first first. Only the encoding looks forward, for
it reads the labels of the whole text. So a reference to a label that is missing may be settled by
text that follows, and nothing else.
-/

namespace Octet

open Token Operands

def lineCount (source : Text) : Nat := (source.splitOn '\n').length

/-- The tokens of a source text before they are placed, its lines being counted from `n`. -/
def checkedFrom (n : Nat) (source : Text) : List Token :=
  ((source.splitOn '\n').zipIdx n).flatMap fun x =>
    checkLine true (splitAddresses (Line.tokens x.2 x.1))

theorem checked_eq_checkedFrom (source : Text) : checked source = checkedFrom 1 source :=
  checked_eq source

theorem checked_append (source more : Text) : checked (source ++ '\n' :: more) =
    checked source ++ checkedFrom (lineCount source + 1) more := by
  rw [checked_eq, checked_eq, List.splitOn_append_cons_self, List.zipIdx_append,
    List.flatMap_append, Nat.add_comm]
  rfl

theorem line_bounds {n : Nat} {source : Text} {t : Token} (h : t ∈ checkedFrom n source) :
    n ≤ t.line ∧ t.line < n + lineCount source := by
  obtain ⟨x, hx, ht⟩ := List.mem_flatMap.1 h
  obtain ⟨hle, hlt, -⟩ := List.mem_zipIdx hx
  have hline : t.line = x.2 :=
    line_of_mem_checkLine (line_of_mem_splitAddresses fun t ht => line_of_mem_tokens ht) t ht
  rw [hline]
  exact ⟨hle, hlt⟩

theorem laidOut_append (source more : Text) : laidOut (source ++ '\n' :: more) =
    ((laidOut source).1 ++
        ((laidOut source).2.placeAll (checkedFrom (lineCount source + 1) more)).1,
      ((laidOut source).2.placeAll (checkedFrom (lineCount source + 1) more)).2) := by
  rw [laidOut, checked_append, Cursor.placeAll_append]
  rfl

theorem extends_labels_append (source more : Text) :
    (compile (source ++ '\n' :: more)).labels.Extends (compile source).labels := by
  rw [labels_compile, laidOut_append, labels_compile]
  exact Cursor.extends_placeAll _ _

/-- The tokens on the lines that come first, encoded with the labels of the whole text. -/
theorem filter_line_tokens_append (source more : Text) :
    (compile (source ++ '\n' :: more)).tokens.filter (·.line ≤ lineCount source) =
      encode (compile (source ++ '\n' :: more)).labels (laidOut source).1 := by
  rw [tokens_compile, laidOut_append, encode, List.map_append, List.filter_append, ← encode,
    List.filter_eq_self.2, List.filter_eq_nil_iff.2, List.append_nil]
  · intro t ht
    obtain ⟨s, hs, hts⟩ := line_of_mem_placed ht
    have hbounds := (line_bounds hs).1
    simp only [decide_eq_true_eq]
    omega
  · intro t ht
    obtain ⟨s, hs, hts⟩ := line_of_mem_placed ht
    rw [checked_eq_checkedFrom] at hs
    have hbounds := (line_bounds hs).2
    simp only [decide_eq_true_eq]
    omega

theorem Token.errors_eq_nil_iff {t : Token} : t.errors = [] ↔ t.isErrored = false := by
  rw [← Bool.not_eq_true, isErrored_iff, not_not]

/-- What the check makes of a token that is no instruction: at most it blames it for something. -/
theorem exists_of_mem_checkLine {isFirst : Bool} {ts : List Token} {t' : Token}
    (h : t' ∈ checkLine isFirst ts) (hk : t'.kind ≠ .instruction) :
    ∃ t ∈ ts, t.kind = t'.kind ∧ (t' = t ∨ ∃ op gap e, t' = t.error e ∧ Blames op gap t e) := by
  obtain ⟨i, hi, rfl⟩ := List.getElem_of_mem h
  have hchecked := List.forall₂_iff_get.1 (forall₂_checkLine isFirst ts)
  have hi' : i < ts.length := hchecked.1 ▸ hi
  have hkind : (checkLine isFirst ts)[i].kind = ts[i].kind :=
    (hchecked.2 i hi' hi).annotated.samePiece.kind
  rw [hkind] at hk
  obtain ⟨t', ht', hsound⟩ : ∃ t', (checkLine isFirst ts)[i]? = some t' ∧
      Sound (checkLine isFirst ts) i ts[i] t' := sound_checkLine (List.getElem?_eq_getElem hi') hk
  rw [List.getElem?_eq_getElem hi, Option.some.injEq] at ht'
  subst ht'
  refine ⟨ts[i], List.getElem_mem hi', hkind.symm, ?_⟩
  rcases hsound with hsame | ⟨e, he, _, gap, _, op, _, _, _, _, _, hb⟩
  · exact .inl hsame
  · exact .inr ⟨op, gap, e, he, hb⟩

def Token.Unsought (t : Token) : Prop :=
  ∀ side, t.kind = .addressByte side → ∀ name, .labelNotFound name ∉ t.errors

theorem unsought_of_mem_checked {source : Text} {t : Token} (h : t ∈ checked source) :
    t.Unsought := by
  rw [checked_eq] at h
  obtain ⟨x, -, h⟩ := List.mem_flatMap.1 h
  intro side hk name hmem
  obtain ⟨s, hs, hsk, ht⟩ := exists_of_mem_checkLine h (by simp [hk])
  have hnone : s.errors = [] := by
    refine errors_eq_nil_iff.2 (Bool.eq_false_iff.2 fun he => ?_)
    have hinvalid := (part_of_mem_splitAddresses hs).invalid he
    rw [hsk, hk] at hinvalid
    cases hinvalid
  rcases ht with rfl | ⟨op, gap, e, rfl, hb⟩
  · rw [hnone] at hmem
    cases hmem
  · rw [errors_error, hnone, List.nil_append, List.mem_singleton] at hmem
    subst hmem
    cases hb

theorem unsought_place {c : Cursor} {t t' : Token} (ht : t.Unsought)
    (h' : (c.place t).1 = some t') : t'.Unsought := by
  intro side hk name hmem
  have hkind := (Cursor.samePiece_place h').kind
  rw [hkind] at hk
  rcases placing c t with ⟨_, h⟩ | ⟨_, _, _, hl, _, _, _⟩ | ⟨_, _, hl, _, _, _⟩ | ⟨_, hl, _, _⟩ |
    ⟨_, _, hl, _, _⟩ | ⟨_, _, hl, _, _⟩ | ⟨_, _, _, _, _, h⟩ | ⟨_, _, _, _, h⟩
  case errored | located =>
    rw [h] at h'
    cases h'
    exact ht side hk name hmem
  case beyond =>
    rw [h] at h'
    cases h'
    rw [errors_error, List.mem_append, List.mem_singleton] at hmem
    rcases hmem with hmem | hmem
    · exact ht side hk name hmem
    · cases hmem
  all_goals
    rw [hl] at hk
    cases hk

theorem unsought_placeAll {c : Cursor} {ts : List Token} (hts : ∀ t ∈ ts, t.Unsought) :
    ∀ t' ∈ (c.placeAll ts).1, t'.Unsought := by
  induction ts generalizing c with
  | nil => simp [Cursor.placeAll]
  | cons t ts ih =>
    obtain ⟨ht, hts⟩ := List.forall_mem_cons.1 hts
    intro t' h'
    rcases List.mem_append.1 h' with h' | h'
    · exact unsought_place ht (Option.mem_toList.1 h')
    · exact ih hts t' h'

/-- What a token of a compilation is in that of a continued text with the labels: itself, or, if it
is an address byte the label of which was missing and is one of them, without that error and
encoded. -/
inductive Settled (labels : LabelTable) : Token → Token → Prop
  | kept (t : Token)
    (h : ∀ side name, t.kind = .addressByte side → .labelNotFound name ∈ t.errors →
      labels.get? name = none) : Settled labels t t
  | found (t : Token) (side : Half) (name : Text) (label : Label) (he : t.isErrored = false)
    (hk : t.kind = .addressByte side) (hn : t.referencedLabel? = some name)
    (hl : labels.get? name = some label) :
    Settled labels (t.error (.labelNotFound name)) (Encoding.store t (side.of label.address))

namespace Encoding

variable {labels labels' : LabelTable} {t : Token} {side : Half} {name : Text}

theorem byte?_of_not_addressByte (h : ∀ side, t.kind ≠ .addressByte side) (labels' : LabelTable) :
    byte? labels' t = byte? labels t := by
  unfold byte?
  split
  · rfl
  · next side hk => exact absurd hk (h side)
  all_goals rfl

theorem byte?_of_addressByte (hk : t.kind = .addressByte side)
    (hn : t.referencedLabel? = some name) :
    byte? labels t = match labels.get? name with
      | some label => .ok (some (side.of label.address))
      | none => .error (.labelNotFound name) := by
  cases hg : labels.get? name <;> simp [byte?, hk, hn, hg]

theorem token_of_bound {label : Label} (he : t.isErrored = false) (hk : t.kind = .addressByte side)
    (hn : t.referencedLabel? = some name) (hg : labels.get? name = some label) :
    token labels t = store t (side.of label.address) := by
  simp [token, he, byte?_of_addressByte hk hn, hg]

theorem token_of_missing (he : t.isErrored = false) (hk : t.kind = .addressByte side)
    (hn : t.referencedLabel? = some name) (hg : labels.get? name = none) :
    token labels t = t.error (.labelNotFound name) := by
  simp [token, he, byte?_of_addressByte hk hn, hg]

theorem settled_addressByte (he : t.isErrored = false) (hk : t.kind = .addressByte side)
    (hn : t.referencedLabel? = some name) (h : labels'.Extends labels) :
    Settled labels' (token labels t) (token labels' t) := by
  have hclean := errors_eq_nil_iff.2 he
  cases hg : labels.get? name with
  | some label =>
    rw [token_of_bound he hk hn hg, token_of_bound he hk hn (h name label hg)]
    refine .kept _ fun _ other _ hmem => ?_
    rw [store, errors_note] at hmem
    exact absurd (hclean ▸ hmem) List.not_mem_nil
  | none =>
    rw [token_of_missing he hk hn hg]
    cases hg' : labels'.get? name with
    | none =>
      rw [token_of_missing he hk hn hg']
      refine .kept _ fun _ other _ hmem => ?_
      rw [errors_error, hclean, List.nil_append, List.mem_singleton] at hmem
      cases hmem
      exact hg'
    | some label =>
      rw [token_of_bound he hk hn hg']
      exact .found t side name label he hk hn hg'

theorem settled_token (ht : t.Placed labels) (hu : t.Unsought) (h : labels'.Extends labels) :
    Settled labels' (token labels t) (token labels' t) := by
  cases he : t.isErrored with
  | true =>
    rw [token, if_pos he, token, if_pos he]
    exact .kept t fun side name hk hmem => absurd hmem (hu side hk name)
  | false =>
    by_cases hk : ∃ side, t.kind = .addressByte side
    · obtain ⟨side, hk⟩ := hk
      obtain ⟨name, htext⟩ := ht.lexed.half side hk
      exact settled_addressByte he hk (referencedLabel?_of_text hk htext) h
    · have hk : ∀ side, t.kind ≠ .addressByte side := fun side h => hk ⟨side, h⟩
      have htoken : token labels' t = token labels t := by
        rw [token, byte?_of_not_addressByte hk labels', ← token]
      rw [htoken]
      refine .kept _ fun side _ hside => ?_
      rw [(samePiece_token labels t).kind] at hside
      exact absurd hside (hk side)

end Encoding

/-- Text behind a newline changes no token in front of it, but for the references to labels that it
is the first to bind, and every label keeps its place. -/
theorem settled_of_append (source more : Text) :
    List.Forall₂ (Settled (compile (source ++ '\n' :: more)).labels) (compile source).tokens
        ((compile (source ++ '\n' :: more)).tokens.filter (·.line ≤ lineCount source)) ∧
      (compile (source ++ '\n' :: more)).labels.Extends (compile source).labels := by
  have hextends := extends_labels_append source more
  refine ⟨?_, hextends⟩
  rw [filter_line_tokens_append, tokens_compile]
  refine List.forall₂_map_left_iff.2 (List.forall₂_map_right_iff.2 (List.forall₂_same.2 ?_))
  intro t ht
  have hunsought := unsought_placeAll (fun _ h => unsought_of_mem_checked h) t ht
  exact Encoding.settled_token (placed_laidOut ht) hunsought hextends

/-- A label that follows settles both halves of the reference to it, and no other reference. -/
example : (compile "ADR @A\nADR @B".toList).tokens.map (·.byte) =
      [some 2, none, none, some 2, none, none] ∧
    (compile "ADR @A\nADR @B\n#SKIPTO 258\nA:".toList).tokens.map (·.byte) =
      [some 2, some 1, some 2, some 2, none, none, none] := by
  decide +kernel

end Octet
