import Mathlib.Data.List.Nodup
import Octet.Proofs.Assembly.Visits

/-! # Labels and their first definitions

A name is bound where the walk of the cursor first meets a label of that name without an error and
within the address space. Whatever comes later under the name is refused, and it is as if it were not
there. A listing of the bindings does not depend on how the table keeps them.
-/

namespace Octet

open Token

namespace LabelTable

variable {table table' : LabelTable} {x y z : Text × Label}

/-- No name is bound twice. -/
def Keyed (table : LabelTable) : Prop := (table.map (·.1)).Nodup

theorem Keyed.of_perm (h : table.Keyed) (hp : table'.Perm table) : table'.Keyed :=
  (hp.map Prod.fst).nodup_iff.2 h

theorem Keyed.define {name : Text} {label : Label} (h : table.Keyed)
    (hd : table.define name label = .ok table') : table'.Keyed := by
  have hfree := get?_eq_none_of_define hd
  rw [get?, List.lookup_eq_none_iff] at hfree
  have hnew : name ∉ table.map (·.1) := by
    intro hmem
    obtain ⟨x, hx, rfl⟩ := List.mem_map.1 hmem
    exact bne_iff_ne.1 (hfree x hx) rfl
  simp only [LabelTable.define] at hd
  split at hd
  · cases hd
  · cases hd
    have hcons : Keyed ((name, label) :: table) := List.nodup_cons.2 ⟨hnew, h⟩
    exact hcons.of_perm List.perm_append_comm

/-- The bindings of a table without doubles are what is found in it. -/
theorem Keyed.mem_iff (h : table.Keyed) : x ∈ table ↔ table.get? x.1 = some x.2 := by
  rw [get?, List.lookup_eq_some_iff]
  constructor
  · intro hx
    obtain ⟨front, behind, rfl⟩ := List.append_of_mem hx
    have hmiddle := h.of_perm List.perm_middle.symm
    refine ⟨front, behind, rfl, fun y hy => bne_iff_ne.2 fun hne => ?_⟩
    refine (List.nodup_cons.1 hmiddle).1 (List.mem_map.2 ⟨y, List.mem_append_left _ hy, hne.symm⟩)
  · rintro ⟨front, behind, rfl, -⟩
    exact List.mem_append_right _ (List.mem_cons_self ..)

/-- By address, and by name at one address. -/
def Ascends (x y : Text × Label) : Prop :=
  x.2.address < y.2.address ∨ (x.2.address = y.2.address ∧ x.1 < y.1)

theorem Ascends.asymm (h : Ascends x y) : ¬ Ascends y x := by
  rintro (h' | ⟨ha', hn'⟩)
  · rcases h with h | ⟨ha, -⟩
    · exact UInt16.lt_asymm h h'
    · exact UInt16.lt_irrefl _ (ha ▸ h')
  · rcases h with h | ⟨-, hn⟩
    · exact UInt16.lt_irrefl _ (ha' ▸ h)
    · exact List.lt_asymm hn hn'

theorem precedes_iff : precedes x y = true ↔
    x.2.address < y.2.address ∨ (x.2.address = y.2.address ∧ ¬ y.1 < x.1) := by
  simp only [precedes, Bool.or_eq_true, Bool.and_eq_true, decide_eq_true_eq, beq_iff_eq,
    Bool.not_eq_true', decide_eq_false_iff_not]

theorem precedes_trans (x y z : Text × Label) (h : precedes x y = true) (h' : precedes y z = true) :
    precedes x z = true := by
  rw [precedes_iff] at h h' ⊢
  rcases h with h | ⟨h, hn⟩
  · rcases h' with h' | ⟨h', -⟩
    · exact .inl (UInt16.lt_trans h h')
    · exact .inl (h' ▸ h)
  · rcases h' with h' | ⟨h', hn'⟩
    · exact .inl (h ▸ h')
    · exact .inr ⟨h.trans h', List.not_lt.2 (List.le_trans (List.not_lt.1 hn) (List.not_lt.1 hn'))⟩

theorem precedes_total (x y : Text × Label) : (precedes x y || precedes y x) = true := by
  rw [Bool.or_eq_true, precedes_iff, precedes_iff]
  by_cases ha : x.2.address = y.2.address
  · exact (List.le_total x.1 y.1).imp (fun hn => .inr ⟨ha, List.not_lt.2 hn⟩) fun hn =>
      .inr ⟨ha.symm, List.not_lt.2 hn⟩
  · rcases UInt16.lt_or_lt_of_ne ha with h | h
    · exact .inl (.inl h)
    · exact .inr (.inl h)

theorem ascends_of_precedes (h : precedes x y = true) (hne : x.1 ≠ y.1) : Ascends x y := by
  refine (precedes_iff.1 h).imp_right fun ⟨ha, hle⟩ => ⟨ha, Classical.byContradiction fun hn => ?_⟩
  exact hne (List.le_antisymm (List.not_lt.1 hle) (List.not_lt.1 hn))

theorem mem_sorted : x ∈ table.sorted ↔ x ∈ table := (List.mergeSort_perm table precedes).mem_iff

theorem Keyed.pairwise_sorted (h : table.Keyed) : table.sorted.Pairwise Ascends := by
  have hsorted := List.pairwise_mergeSort precedes_trans precedes_total table
  have hnames := List.pairwise_map.1 (h.of_perm (List.mergeSort_perm table precedes))
  exact (hsorted.and hnames).imp fun h => ascends_of_precedes h.1 h.2

/-- However a table keeps its bindings, their listing is the same. -/
theorem Keyed.sorted_eq (h : table.Keyed) (hp : table'.Perm table) : table'.sorted = table.sorted := by
  have hperm : table'.sorted.Perm table.sorted :=
    (List.mergeSort_perm table' precedes).trans
      (hp.trans (List.mergeSort_perm table precedes).symm)
  refine hperm.eq_of_pairwise (fun x y _ _ hxy hyx => ?_) (h.of_perm hp).pairwise_sorted
    h.pairwise_sorted
  exact absurd hyx hxy.asymm

end LabelTable

namespace Visit

/-- Whether the token counts as a definition of the name. -/
def defines (name : Text) (v : Visit) : Bool :=
  v.token.kind == .label && !v.token.isErrored && v.token.output == name &&
    v.cursor.counter ≤ 65535

def label (v : Visit) : Label := ⟨.ofNat v.cursor.counter, v.token.line⟩

variable {v : Visit} {name : Text}

theorem defines_iff : v.defines name = true ↔ v.token.kind = .label ∧ v.token.isErrored = false ∧
    v.token.output = name ∧ v.cursor.counter ≤ 65535 := by
  simp [defines, and_assoc]

/-- A definition binds a name that is free, and nothing else binds one. -/
theorem get?_next (v : Visit) (name : Text) : v.next.labels.get? name =
    (v.cursor.labels.get? name).or (if v.defines name then some v.label else none) := by
  rcases placing v.cursor v.token with ⟨he, h⟩ | ⟨a, labels, he, hk, ha, hl, h⟩ |
    ⟨first, _, _, _, hl, h⟩ | ⟨_, _, hc, h⟩ | ⟨_, _, hk, _, h⟩ | ⟨_, _, hk, _, h⟩ |
    ⟨_, _, hk, _, _, h⟩ | ⟨_, hk, _, _, h⟩
  all_goals rw [(eq_of_place h).2]
  case errored => simp [defines, he, Cursor.advance]
  case bound =>
    obtain ⟨hc, rfl⟩ := Directive.address?_eq_some_iff.1 ha
    rw [LabelTable.get?_define hl]
    by_cases hn : v.token.output = name
    · subst hn
      have hd : v.defines v.token.output = true :=
        defines_iff.2 ⟨hk, he, rfl, Nat.le_of_lt_succ hc⟩
      simp [LabelTable.get?_eq_none_of_define hl, hd, label]
    · simp [defines, hn, Ne.symm hn]
  case rebound =>
    by_cases hn : v.token.output = name
    · subst hn
      simp [hl]
    · simp [defines, hn]
  case unbound => simp [defines, Nat.not_le.2 (Nat.lt_of_succ_le hc)]
  case applied | refused | located | beyond => simp [defines, hk, Cursor.advance]

/-- A definition of a bound name is refused and leaves the cursor where it is. -/
theorem refused_of_bound {first : Label} (hd : v.defines name = true)
    (hg : v.cursor.labels.get? name = some first) :
    v.left? = some (v.token.error (.labelAlreadyDefined name first.line)) ∧ v.next = v.cursor := by
  obtain ⟨hk, he, rfl, hc⟩ := defines_iff.1 hd
  rcases placing v.cursor v.token with ⟨he', _⟩ | ⟨_, _, _, _, _, hl, _⟩ | ⟨other, _, _, _, hl, h⟩ |
    ⟨_, _, hc', _⟩ | ⟨_, _, hk', _, _⟩ | ⟨_, _, hk', _, _⟩ | ⟨_, _, hk', _, _, _⟩ | ⟨_, hk', _, _, _⟩
  case rebound =>
    obtain rfl : other = first := Option.some.inj (hl.symm.trans hg)
    exact eq_of_place h
  case errored =>
    rw [he] at he'
    cases he'
  case bound =>
    rw [LabelTable.get?_eq_none_of_define hl] at hg
    cases hg
  case unbound => omega
  case applied | refused =>
    rw [hk] at hk'
    cases hk'
  case located | beyond => exact absurd hk hk'

end Visit

namespace Cursor

variable {c : Cursor} {ts : List Token}

/-- The bindings at the end are those before, and then the first definition of every name. -/
theorem get?_labels_visits (c : Cursor) (ts : List Token) (name : Text) :
    (c.placeAll ts).2.labels.get? name =
      (c.labels.get? name).or (((c.visits ts).find? (·.defines name)).map (·.label)) := by
  induction ts generalizing c with
  | nil => simp [placeAll, visits]
  | cons t ts ih =>
    have hstep := Visit.get?_next ⟨c, t⟩ name
    rw [placeAll_cons, ih, visits, List.find?_cons]
    rw [show (c.place t).2 = Visit.next ⟨c, t⟩ from rfl, hstep, Option.or_assoc]
    cases Visit.defines name ⟨c, t⟩ <;> simp

theorem keyed_place (h : c.labels.Keyed) (t : Token) : (c.place t).2.labels.Keyed := by
  rcases placing c t with ⟨_, hp⟩ | ⟨_, _, _, _, _, hl, hp⟩ | ⟨_, _, _, _, _, hp⟩ | ⟨_, _, _, hp⟩ |
    ⟨_, _, _, _, hp⟩ | ⟨_, _, _, _, hp⟩ | ⟨_, _, _, _, _, hp⟩ | ⟨_, _, _, _, hp⟩
  all_goals rw [hp]
  case bound => exact h.define hl
  all_goals exact h

theorem keyed_placeAll (h : c.labels.Keyed) (ts : List Token) : (c.placeAll ts).2.labels.Keyed := by
  induction ts generalizing c with
  | nil => exact h
  | cons t ts ih => exact ih (keyed_place h t)

theorem visits_eq_append {before after : List Visit} {v : Visit}
    (h : c.visits ts = before ++ v :: after) :
    c.visits (before.map (·.token)) = before ∧
      v.cursor = (c.placeAll (before.map (·.token))).2 ∧
      v.next.visits (after.map (·.token)) = after := by
  induction before generalizing c ts with
  | nil =>
    cases ts with
    | nil => cases h
    | cons t ts =>
      obtain ⟨rfl, rfl⟩ := List.cons.inj h
      refine ⟨rfl, rfl, ?_⟩
      rw [map_token_visits]
      rfl
  | cons b before ih =>
    cases ts with
    | nil => cases h
    | cons t ts =>
      obtain ⟨rfl, hrest⟩ := List.cons.inj h
      obtain ⟨hbefore, hcursor, hafter⟩ := ih hrest
      exact ⟨congrArg (List.cons _) hbefore, hcursor, hafter⟩

end Cursor

/-- A layout binds a name exactly if some label of that name comes without an error and within the
address space, and then to the counter and the line of the first of them. Every later one is refused
with the line of the first, and the walk along the other tokens is as if it were not there; a label
that comes with an error is only given its place. The listing has every binding once, by address and
then by name, however the table keeps them. -/
theorem first_definition_wins (ts : List Token) :
    let visits := Cursor.start.visits ts
    let labels := (layout ts).2
    visits.map (·.token) = ts ∧ visits.filterMap (·.left?) = (layout ts).1 ∧
    (∀ name, labels.get? name = (visits.find? (·.defines name)).map (·.label)) ∧
    (∀ before v after name first, visits = before ++ v :: after → v.defines name = true →
      before.find? (·.defines name) = some first →
      v.left? = some (v.token.error (.labelAlreadyDefined name first.token.line)) ∧
        v.next = v.cursor ∧
        Cursor.start.visits ((before ++ after).map (·.token)) = before ++ after) ∧
    (∀ v ∈ visits, v.token.isErrored = true → v.gained = [] ∧ v.next = v.cursor.advance) ∧
    (∀ name label, (name, label) ∈ labels.sorted ↔ labels.get? name = some label) ∧
    labels.sorted.Pairwise LabelTable.Ascends ∧
    ∀ table, table.Perm labels → LabelTable.sorted table = labels.sorted := by
  intro visits labels
  have hfound (ts : List Token) (name : Text) := Cursor.start.get?_labels_visits ts name
  have hempty : Cursor.start.labels.Keyed := List.nodup_nil
  have hkeyed : labels.Keyed := Cursor.keyed_placeAll hempty ts
  refine ⟨Cursor.start.map_token_visits ts, Cursor.start.filterMap_left?_visits ts, hfound ts, ?_,
    ?_, ?_, hkeyed.pairwise_sorted, fun table hp => hkeyed.sorted_eq hp⟩
  · intro before v after name first hsplit hd hfirst
    obtain ⟨hbefore, hcursor, hafter⟩ := Cursor.visits_eq_append hsplit
    have hbound : v.cursor.labels.get? name = some first.label := by
      rw [hcursor, hfound, hbefore, hfirst]
      rfl
    obtain ⟨hleft, hnext⟩ := Visit.refused_of_bound hd hbound
    refine ⟨hleft, hnext, ?_⟩
    rw [List.map_append, Cursor.visits_append, hbefore, ← hcursor, ← hnext, hafter]
  · intro v _ he
    have hplace : v.cursor.place v.token = (some (v.cursor.skip v.token), v.cursor.advance) :=
      if_pos he
    obtain ⟨hleft, hnext⟩ := Visit.eq_of_place hplace
    exact ⟨Visit.gained_of_left? hleft (List.append_nil _).symm, hnext⟩
  · intro name label
    rw [LabelTable.mem_sorted, hkeyed.mem_iff]

end Octet
