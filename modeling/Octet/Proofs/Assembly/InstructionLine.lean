import Mathlib.Data.List.Nodup
import Octet.Proofs.Assembly.Correctness

/-! # Lines with an instruction

In a source text without errors the tokens on the line of an instruction are the instruction and its
operands, and they stand one behind the other.
-/

namespace Octet

open Token Operands

def addressesFrom (n count : Nat) : List (Option Address) :=
  (List.range' n count).map fun i => some (.ofNat i)

/-- A token that takes room and is placed without an error is given the address of the counter. -/
theorem Cursor.place_of_slot {c : Cursor} {t : Token} (he : t.isErrored = false)
    (hl : t.kind ≠ .label) (hd : t.kind ≠ .directive)
    (hc : ∀ t', (c.place t).1 = some t' → t'.isErrored = false) :
    c.place t = (some { t with address := some (.ofNat c.counter) }, c.advance) := by
  rcases placing c t with ⟨he', _⟩ | ⟨_, _, _, hk, _, _, _⟩ | ⟨_, _, hk, _, _, _⟩ | ⟨_, hk, _, _⟩ |
    ⟨_, _, hk, _, _⟩ | ⟨_, _, hk, _, _⟩ | ⟨a, _, _, _, ha, h⟩ | ⟨_, _, _, _, h⟩
  · rw [he] at he'
    cases he'
  · exact absurd hk hl
  · exact absurd hk hl
  · exact absurd hk hl
  · exact absurd hk hd
  · exact absurd hk hd
  · rw [h, (Directive.address?_eq_some_iff.1 ha).2]
  · have herr := hc _ (by rw [h])
    rw [isErrored_error] at herr
    cases herr

theorem Cursor.placeAll_of_slots {c : Cursor} {ts : List Token}
    (hs : ∀ t ∈ ts, t.isErrored = false ∧ t.kind ≠ .label ∧ t.kind ≠ .directive)
    (hc : Clean (c.placeAll ts).1) :
    List.Forall₂ SamePiece ts (c.placeAll ts).1 ∧
      (c.placeAll ts).1.map (·.address) = addressesFrom c.counter ts.length := by
  induction ts generalizing c with
  | nil => exact ⟨.nil, rfl⟩
  | cons t ts ih =>
    obtain ⟨⟨he, hl, hd⟩, hts⟩ := List.forall_mem_cons.1 hs
    rw [placeAll_cons] at hc ⊢
    obtain ⟨hhead, htail⟩ := clean_append.1 hc
    have hplace := place_of_slot he hl hd fun t' h' => hhead t' (Option.mem_toList.2 h')
    rw [hplace] at htail
    obtain ⟨hsame, haddr⟩ := ih hts htail
    rw [hplace]
    refine ⟨.cons ⟨rfl, rfl, rfl⟩ hsame, ?_⟩
    exact congrArg (List.cons (some (UInt16.ofNat c.counter))) haddr

theorem line_of_mem_checkLine {n : Nat} {isFirst : Bool} {ts : List Token} (h : ∀ t ∈ ts, t.line = n) :
    ∀ t ∈ checkLine isFirst ts, t.line = n := by
  intro t ht
  obtain ⟨s, hs, hc⟩ := exists_of_mem_right (forall₂_checkLine isFirst ts) ht
  rw [hc.annotated.samePiece.line, h s hs]

/-- The tokens of a source text on either side of those on one of its lines. -/
theorem exists_line_of_mem_checked {source : Text} {t : Token} (ht : t ∈ checked source) :
    ∃ before line after, checked source = before ++ checkLine true line ++ after ∧
      t ∈ checkLine true line ∧ (∀ s ∈ checkLine true line, s.line = t.line) ∧
      ∀ s ∈ before ++ after, s.line ≠ t.line := by
  have hline : ∀ x : Text × Nat,
      ∀ s ∈ checkLine true (splitAddresses (Line.tokens x.2 x.1)), s.line = x.2 := fun x =>
    line_of_mem_checkLine (line_of_mem_splitAddresses fun t ht => line_of_mem_tokens ht)
  rw [checked_eq] at ht ⊢
  obtain ⟨x, hx, ht⟩ := List.mem_flatMap.1 ht
  obtain ⟨pre, post, hsplit⟩ := List.append_of_mem hx
  have hnodup : ((pre ++ x :: post).map (·.2)).Nodup := by
    rw [← hsplit, List.zipIdx_map_snd]
    exact List.nodup_range'
  have hother : ∀ y ∈ pre ++ post, y.2 ≠ x.2 := by
    rw [List.map_append, List.map_cons, List.nodup_middle, ← List.map_append] at hnodup
    intro y hy hyx
    exact (List.nodup_cons.1 hnodup).1 (hyx ▸ List.mem_map_of_mem hy)
  rw [hsplit, List.flatMap_append, List.flatMap_cons, ← List.append_assoc]
  refine ⟨_, _, _, rfl, ht, fun s hs => (hline x s hs).trans (hline x t ht).symm, ?_⟩
  intro s hs
  rw [← List.flatMap_append] at hs
  obtain ⟨y, hy, hs⟩ := List.mem_flatMap.1 hs
  rw [hline y s hs, hline x t ht]
  exact hother y hy

theorem Operands.Takes.of_samePiece {op : Opcode} {t t' : Token} {operands operands' : List Token}
    (h : Takes op t operands) (ht : SamePiece t t') (ho : List.Forall₂ SamePiece operands operands') :
    Takes op t' operands' := by
  refine ⟨ht.kind.trans h.kind, by rw [ht.text, h.known], ?_⟩
  have accepts : ∀ {kinds : List OperandKind} {operands operands' : List Token},
      List.Forall₂ (fun k o => k.accepts o.kind = true) kinds operands →
      List.Forall₂ SamePiece operands operands' →
      List.Forall₂ (fun k o => k.accepts o.kind = true) kinds operands' := by
    intro kinds operands operands' hk
    induction hk generalizing operands' with
    | nil => exact fun h => by cases h; exact .nil
    | cons hk _ ih =>
      intro h
      cases h with
      | cons hsame h => exact .cons (by rw [hsame.kind, hk]) (ih h)
  exact accepts h.accepts ho

theorem Operands.Takes.mem_kind {op : Opcode} {t : Token} {operands : List Token}
    (h : Takes op t operands) {s : Token} (hs : s ∈ t :: operands) :
    s.kind ≠ .label ∧ s.kind ≠ .directive := by
  rcases List.mem_cons.1 hs with rfl | hs
  · simp [h.kind]
  · obtain ⟨k, -, hk⟩ := exists_of_mem_right h.accepts hs
    cases hs : s.kind <;> cases k <;> simp [hs, OperandKind.accepts] at hk ⊢

/-- Before they are placed, an instruction and its operands stand alone on their line. -/
theorem exists_takes_of_mem_checked {source : Text} (hc : Clean (checked source)) {s : Token}
    (hs : s ∈ checked source) (hk : s.kind = .instruction) :
    ∃ before op operands after, checked source = before ++ s :: operands ++ after ∧
      Takes op s operands ∧ (∀ u ∈ s :: operands, u.line = s.line) ∧
      ∀ u ∈ before ++ after, u.line ≠ s.line := by
  obtain ⟨before, line, after, hsplit, hmem, hline, hother⟩ := exists_line_of_mem_checked hs
  have hclean : Clean (checkLine true line) :=
    fun u hu => hc u (by rw [hsplit]; simp [hu])
  obtain ⟨hcl, hno | ⟨op, t, operands, rfl, htakes⟩⟩ := clean_checkLine_iff.1 hclean
  · rw [checkLine_of_no_instruction hno] at hmem
    exact absurd hk (hno s hmem)
  · obtain ⟨ht, ho⟩ := clean_cons.1 hcl
    rw [checkLine_of_takes htakes ht ho] at hsplit hmem hline
    rcases List.mem_cons.1 hmem with rfl | hmem
    · exact ⟨before, op, operands, after, hsplit, ⟨htakes.kind, htakes.known, htakes.accepts⟩, hline,
        hother⟩
    · exact absurd hk (not_instruction_of_forall₂ htakes.accepts s hmem)

theorem line_of_mem_placed {labels : LabelTable} {c : Cursor} {ts : List Token} {t : Token}
    (h : t ∈ (c.placeAll ts).1.map (Encoding.token labels)) : ∃ s ∈ ts, t.line = s.line := by
  obtain ⟨t', ht', rfl⟩ := List.mem_map.1 h
  obtain ⟨s, hs, hsame⟩ := Cursor.exists_of_mem_placeAll ht'
  exact ⟨s, hs, (hsame.trans (Encoding.samePiece_token labels t')).line⟩

theorem filter_line_tokens {source : Text} {before line after : List Token} {n : Nat}
    (hsplit : checked source = before ++ line ++ after) (hline : ∀ u ∈ line, u.line = n)
    (hother : ∀ u ∈ before ++ after, u.line ≠ n) :
    (compile source).tokens.filter (·.line == n) =
      ((Cursor.start.placeAll before).2.placeAll line).1.map
        (Encoding.token (compile source).labels) := by
  have away : ∀ (c : Cursor) (ts : List Token), (∀ u ∈ ts, u.line ≠ n) →
      ((c.placeAll ts).1.map (Encoding.token (compile source).labels)).filter (·.line == n) = [] := by
    intro c ts h
    rw [List.filter_eq_nil_iff]
    intro t ht
    obtain ⟨s, hs, hts⟩ := line_of_mem_placed ht
    rw [hts]
    simpa using h s hs
  have hbefore := away Cursor.start before fun u hu => hother u (List.mem_append_left _ hu)
  have hafter := away (Cursor.start.placeAll (before ++ line)).2 after
    fun u hu => hother u (List.mem_append_right _ hu)
  rw [tokens_compile, encode, laidOut, hsplit, Cursor.placeAll_append, List.map_append,
    List.filter_append, hafter, Cursor.placeAll_append, List.map_append, List.filter_append,
    hbefore, List.append_nil, List.nil_append, List.filter_eq_self]
  intro t ht
  obtain ⟨s, hs, hts⟩ := line_of_mem_placed ht
  rw [hts, hline s hs]
  exact beq_self_eq_true n

theorem Encoding.forall₂_samePiece (labels : LabelTable) {ss ts : List Token}
    (h : List.Forall₂ SamePiece ss ts) :
    List.Forall₂ SamePiece ss (ts.map (Encoding.token labels)) :=
  List.forall₂_map_right_iff.2 (h.imp fun _ t hs => hs.trans (samePiece_token labels t))

/-- The tokens on the line of an instruction are the instruction and its operands, at addresses one
after the other. -/
theorem line_of_instruction {source : Text} (hc : Clean (compile source).tokens) {t : Token}
    (ht : t ∈ (compile source).tokens) (hk : t.kind = .instruction) :
    ∃ op n operands, Takes op t operands ∧
      (compile source).tokens.filter (·.line == t.line) = t :: operands ∧
      (t :: operands).map (·.address) = addressesFrom n (operands.length + 1) := by
  obtain ⟨p, ⟨hclean, -⟩, -⟩ := clean_tokens_iff.1 hc
  obtain ⟨t', ht', htoken⟩ := mem_tokens_iff.1 ht
  obtain ⟨s, hs, hsame⟩ := Cursor.exists_of_mem_placeAll ht'
  have hst : SamePiece s t := htoken ▸ hsame.trans (Encoding.samePiece_token _ t')
  obtain ⟨before, op, operands, after, hsplit, htakes, hline, hother⟩ :=
    exists_takes_of_mem_checked hclean hs (hst.kind.symm.trans hk)
  have hfilter := filter_line_tokens hsplit hline hother
  rw [← hst.line] at hfilter
  have hslots : ∀ u ∈ s :: operands, u.isErrored = false ∧ u.kind ≠ .label ∧ u.kind ≠ .directive := by
    intro u hu
    refine ⟨hclean u ?_, htakes.mem_kind hu⟩
    rw [hsplit]
    exact List.mem_append_left _ (List.mem_append_right _ hu)
  have hplaced : Clean ((Cursor.start.placeAll before).2.placeAll (s :: operands)).1 := by
    intro u hu
    have hmem : Encoding.token (compile source).labels u ∈ (compile source).tokens :=
      List.mem_of_mem_filter (hfilter ▸ List.mem_map_of_mem hu)
    exact (Encoding.isErrored_token_eq_false_iff.1 (hc _ hmem)).1
  obtain ⟨hpieces, haddr⟩ := Cursor.placeAll_of_slots hslots hplaced
  have hsames := Encoding.forall₂_samePiece (compile source).labels hpieces
  rw [← hfilter] at hsames
  have haddrs := congrArg (List.map Token.address) hfilter
  rw [List.map_map, Function.comp_def] at haddrs
  simp only [Encoding.address_token] at haddrs
  rw [haddr] at haddrs
  obtain ⟨u, us, hu, hus, hline'⟩ := List.forall₂_cons_left_iff.1 hsames
  have htakes' := htakes.of_samePiece hu hus
  obtain rfl : t = u := by
    have hmem : t ∈ (compile source).tokens.filter (·.line == t.line) :=
      List.mem_filter.2 ⟨ht, beq_self_eq_true t.line⟩
    rw [hline'] at hmem
    rcases List.mem_cons.1 hmem with h | h
    · exact h
    · exact absurd hk (not_instruction_of_forall₂ htakes'.accepts t h)
  refine ⟨op, (Cursor.start.placeAll before).2.counter, us, htakes', hline', ?_⟩
  rw [hline'] at haddrs
  rw [haddrs, List.length_cons, hus.length_eq]

end Octet
