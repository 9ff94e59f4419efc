import Octet.Proofs.Assembly.Placement

/-! # Laying out what says a program

Nothing is wrong with a placement exactly if every item fits where the counter stands and no name is
bound twice. The tokens then stand where the program has its items, and the labels are its bindings.
-/

namespace Octet

namespace Item

theorem fitsAt_of_takesByte {item : Item} (h : item.takesByte = true) {n : Nat} :
    item.FitsAt n ↔ n ≤ 65535 := by
  cases item <;> first | rfl | cases h

theorem defined?_of_takesByte {item : Item} (h : item.takesByte = true) : item.defined? = none := by
  cases item <;> first | rfl | cases h

theorem target?_of_takesByte {item : Item} (h : item.takesByte = true) : item.target? = none := by
  cases item <;> first | rfl | cases h

end Item

namespace Token

theorem takesByte_of_item? {t : Token} {item : Item} (h : t.item? = some item)
    (hl : t.kind ≠ .label) (hd : t.kind ≠ .directive) : item.takesByte = true := by
  simp only [item?] at h
  split at h
  · obtain ⟨op, -, rfl⟩ := Option.map_eq_some_iff.1 h
    rfl
  · cases h
    rfl
  · next hk => exact absurd hk hl
  · cases h
    rfl
  · next hk => exact absurd hk hd
  · cases h
  · cases h

theorem item?_of_label {t : Token} (hk : t.kind = .label) : t.item? = some (.label t.output) := by
  simp [item?, hk]

theorem item?_of_directive {t : Token} (hk : t.kind = .directive) :
    t.item? = Item.skip? t.output := by
  simp [item?, hk]

/-- The token stands at `n` without an error and says the item. -/
structure At (t : Token) (n : Nat) (item : Item) : Prop where
  clean : t.isErrored = false
  reads : t.item? = some item
  address : t.address = some (.ofNat n)

end Token

namespace Cursor

open Token

/-- Whether the item can stand at the cursor: it fits there, and its name is free. -/
def Admits (c : Cursor) (item : Item) : Prop :=
  item.FitsAt c.counter ∧ ∀ name, item.defined? = some name → c.labels.get? name = none

/-- What placing a token that says an item comes to where the item is admitted. -/
structure Takes (c : Cursor) (t : Token) (item : Item) : Prop where
  leaves : item.target? ≠ none → (c.place t).1 = none
  stays : item.target? = none → ∃ t', (c.place t).1 = some t' ∧ t'.At c.counter item
  counter : (c.place t).2.counter = item.next c.counter
  labels : ∀ name, (c.place t).2.labels.get? name =
    if item.defined? = some name then some ⟨.ofNat c.counter, t.line⟩ else c.labels.get? name

variable {c : Cursor} {t : Token} {item : Item}

/-- What is placed without an error and says an item was admitted. -/
theorem admits_of_place
    (h : ∀ t', (c.place t).1 = some t' → t'.isErrored = false ∧ t'.item?.isSome = true) :
    t.isErrored = false ∧ ∃ item, t.item? = some item ∧ c.Admits item := by
  have herror : ∀ t', (c.place t).1 = some t' → t'.isErrored = true → False := by
    intro t' h' he
    rw [(h t' h').1] at he
    cases he
  rcases placing c t with ⟨he, hp⟩ | ⟨a, labels, he, hk, ha, hl, _⟩ | ⟨first, _, _, _, _, hp⟩ |
    ⟨_, _, _, hp⟩ | ⟨a, he, hk, hd, _⟩ | ⟨e, _, _, _, hp⟩ | ⟨a, he, hl, hd, ha, hp⟩ | ⟨_, _, _, _, hp⟩
  · exact (herror (c.skip t) (by rw [hp]) he).elim
  · refine ⟨he, .label t.output, item?_of_label hk, ?_, ?_⟩
    · exact Nat.le_of_lt_succ (Directive.address?_eq_some_iff.1 ha).1
    · intro name hname
      cases hname
      exact LabelTable.get?_eq_none_of_define hl
  · exact (herror _ (by rw [hp]) (isErrored_error _ _)).elim
  · exact (herror _ (by rw [hp]) (isErrored_error _ _)).elim
  · obtain ⟨hs, hle⟩ := Directive.target_eq_ok_iff.1 hd
    refine ⟨he, .skip a.toNat, (item?_of_directive hk).trans hs, ⟨hle, ?_⟩, ?_⟩
    · exact Nat.le_of_lt_succ a.toNat_lt
    · intro name hname
      cases hname
  · exact (herror (c.skip (t.error e)) (by rw [hp]) (isErrored_error t e)).elim
  · have hread : t.item?.isSome = true := (h { t with address := some a } (by rw [hp])).2
    obtain ⟨item, hi⟩ := Option.isSome_iff_exists.1 hread
    have hb := takesByte_of_item? hi hl hd
    refine ⟨he, item, hi, (Item.fitsAt_of_takesByte hb).2 ?_, ?_⟩
    · exact Nat.le_of_lt_succ (Directive.address?_eq_some_iff.1 ha).1
    · intro name hname
      rw [Item.defined?_of_takesByte hb] at hname
      cases hname
  · exact (herror _ (by rw [hp]) (isErrored_error _ _)).elim

theorem place_of_admits (he : t.isErrored = false) (hi : t.item? = some item)
    (ha : c.Admits item) : c.Takes t item := by
  rcases placing c t with ⟨he', h⟩ | ⟨a, labels, _, hk, hc, hl, h⟩ | ⟨first, _, hk, _, hg, h⟩ |
    ⟨_, hk, hc, h⟩ | ⟨a, _, hk, hd, h⟩ | ⟨e, _, hk, hd, h⟩ | ⟨a, _, hl, hd, hc, h⟩ |
    ⟨_, hl, hd, hc, h⟩
  · rw [he] at he'
    cases he'
  · obtain rfl : item = .label t.output := Option.some.inj (hi.symm.trans (item?_of_label hk))
    obtain ⟨-, rfl⟩ := Directive.address?_eq_some_iff.1 hc
    refine ⟨fun hn => absurd rfl hn, fun _ => ⟨_, by rw [h], ?_⟩, by rw [h]; rfl, fun name => ?_⟩
    · exact ⟨(isErrored_note _ _).trans he, hi, rfl⟩
    · rw [h]
      simp only [Item.defined?, Option.some.injEq]
      rw [LabelTable.get?_define hl]
      simp only [eq_comm]
  · obtain rfl : item = .label t.output := Option.some.inj (hi.symm.trans (item?_of_label hk))
    rw [ha.2 _ rfl] at hg
    cases hg
  · obtain rfl : item = .label t.output := Option.some.inj (hi.symm.trans (item?_of_label hk))
    have : c.counter ≤ 65535 := ha.1
    omega
  · obtain ⟨hs, -⟩ := Directive.target_eq_ok_iff.1 hd
    obtain rfl : item = .skip a.toNat :=
      Option.some.inj (hi.symm.trans ((item?_of_directive hk).trans hs))
    refine ⟨fun _ => by rw [h], fun hn => ?_, by rw [h]; rfl, fun name => by rw [h]; rfl⟩
    cases hn
  · have hs : Item.skip? t.output = some item := (item?_of_directive hk).symm.trans hi
    obtain ⟨argument, n, -, -, rfl⟩ := Directive.skip?_eq_some_iff.1 hs
    obtain ⟨hle, hn⟩ : c.counter ≤ n ∧ n ≤ 65535 := ha.1
    have htoNat : (UInt16.ofNat n).toNat = n := by simp; omega
    have htarget : Directive.target c.counter t.output = .ok (UInt16.ofNat n) := by
      rw [Directive.target_eq_ok_iff, htoNat]
      exact ⟨hs, hle⟩
    rw [hd] at htarget
    cases htarget
  · have hb := takesByte_of_item? hi hl hd
    obtain ⟨-, rfl⟩ := Directive.address?_eq_some_iff.1 hc
    refine ⟨fun hn => absurd (Item.target?_of_takesByte hb) hn, fun _ => ⟨_, by rw [h], ?_⟩, ?_,
      fun name => ?_⟩
    · exact ⟨he, hi, rfl⟩
    · rw [h, Item.next_eq_succ hb]
      rfl
    · rw [h, Item.defined?_of_takesByte hb]
      rfl
  · have := (Item.fitsAt_of_takesByte (takesByte_of_item? hi hl hd)).1 ha.1
    omega

/-- Whether the items can stand from the cursor on, one behind the other. -/
structure AdmitsAll (c : Cursor) (p : Program) : Prop where
  fits : ∀ x ∈ Program.placedFrom c.counter p, x.2.FitsAt x.1
  nodup : p.labels.Nodup
  free : ∀ name ∈ p.labels, c.labels.get? name = none

theorem admitsAll_nil (c : Cursor) : c.AdmitsAll [] :=
  ⟨by simp [Program.placedFrom], by simp [Program.labels], by simp [Program.labels]⟩

theorem AdmitsAll.head {p : Program} (h : c.AdmitsAll (item :: p)) : c.Admits item :=
  ⟨h.fits _ (List.mem_cons_self ..), fun name hd => h.free name (Program.mem_labels_cons.2 (.inl hd))⟩

theorem admitsAll_cons {p : Program} (ht : c.Takes t item) :
    c.AdmitsAll (item :: p) ↔ c.Admits item ∧ (c.place t).2.AdmitsAll p := by
  constructor
  · rintro ⟨hf, hn, hfree⟩
    rw [Program.placedFrom, List.forall_mem_cons] at hf
    refine ⟨⟨hf.1, fun name hd => hfree name (Program.mem_labels_cons.2 (.inl hd))⟩, ?_, ?_, ?_⟩
    · rw [ht.counter]
      exact hf.2
    · exact (Program.nodup_labels_cons.1 hn).2
    · intro name hname
      rw [ht.labels, if_neg]
      · exact hfree name (Program.mem_labels_cons.2 (.inr hname))
      · exact fun hd => (Program.nodup_labels_cons.1 hn).1 name hd hname
  · rintro ⟨⟨hf, hfree⟩, hf', hn', hfree'⟩
    rw [ht.counter] at hf'
    have later : ∀ name ∈ p.labels, item.defined? ≠ some name ∧ c.labels.get? name = none := by
      intro name hname
      have hl := hfree' name hname
      rw [ht.labels] at hl
      split at hl
      · cases hl
      · next hd => exact ⟨hd, hl⟩
    refine ⟨?_, ?_, ?_⟩
    · rw [Program.placedFrom, List.forall_mem_cons]
      exact ⟨hf, hf'⟩
    · exact Program.nodup_labels_cons.2 ⟨fun name hd hname => (later name hname).1 hd, hn'⟩
    · intro name hname
      rcases Program.mem_labels_cons.1 hname with hd | hname
      · exact hfree name hd
      · exact (later name hname).2

/-- The tokens that stay stand where the program has its items. -/
theorem at_placeAll {ts : List Token} {p : Program} (hs : Says ts p) (ha : c.AdmitsAll p) :
    List.Forall₂ (fun x t' => t'.At x.1 x.2)
      ((Program.placedFrom c.counter p).filter (·.2.target?.isNone)) (c.placeAll ts).1 := by
  induction ts generalizing c p with
  | nil =>
    obtain rfl := Says.nil_iff.1 hs
    exact .nil
  | cons t ts ih =>
    obtain ⟨he, item, p, hi, hts, rfl⟩ := Says.cons_iff.1 hs
    have ht := place_of_admits he hi ha.head
    have hrest := ih hts ((admitsAll_cons ht).1 ha).2
    rw [ht.counter] at hrest
    simp only [Program.placedFrom, placeAll, List.filter_cons]
    cases hk : item.target? with
    | some target => simpa [ht.leaves (by simp [hk])] using hrest
    | none =>
      obtain ⟨t', h', hat⟩ := ht.stays hk
      simpa [h'] using ⟨hat, hrest⟩

/-- The bindings at the end are those before, then those of the program. -/
theorem get?_labels_placeAll {ts : List Token} {p : Program} (hs : Says ts p) (ha : c.AdmitsAll p)
    (name : Text) : ((c.placeAll ts).2.labels.get? name).map (·.address.toNat) =
      ((c.labels.get? name).map (·.address.toNat)).or
        ((Program.bindingsFrom c.counter p).lookup name) := by
  induction ts generalizing c p with
  | nil =>
    obtain rfl := Says.nil_iff.1 hs
    simp [placeAll, Program.bindingsFrom, Program.placedFrom]
  | cons t ts ih =>
    obtain ⟨he, item, p, hi, hts, rfl⟩ := Says.cons_iff.1 hs
    have hadm := ha.head
    have ht := place_of_admits he hi hadm
    have hrest := ih hts ((admitsAll_cons ht).1 ha).2
    rw [ht.counter, ht.labels] at hrest
    rw [placeAll, hrest, Program.lookup_bindingsFrom_cons]
    by_cases hd : item.defined? = some name
    · have hc : c.counter ≤ 65535 := by
        cases item with
        | label _ => exact hadm.1
        | _ => cases hd
      simp only [if_pos hd, hadm.2 name hd, Option.map_some, Option.map_none, Option.some_or,
        Option.none_or, UInt16.toNat_ofNat', Option.some.injEq]
      omega
    · rw [if_neg hd, if_neg hd]

/-- A placement after which every token is unerrored and says an item had a program before it. -/
theorem says_of_placeAll {ts : List Token}
    (h : ∀ t' ∈ (c.placeAll ts).1, t'.isErrored = false ∧ t'.item?.isSome = true) :
    ∃ p, Says ts p ∧ c.AdmitsAll p := by
  induction ts generalizing c with
  | nil => exact ⟨[], Says.nil_iff.2 rfl, c.admitsAll_nil⟩
  | cons t ts ih =>
    rw [placeAll, List.forall_mem_append] at h
    obtain ⟨he, item, hi, hadm⟩ := admits_of_place fun t' h' => h.1 t' (Option.mem_toList.2 h')
    obtain ⟨p, hs, ha⟩ := ih h.2
    refine ⟨item :: p, Says.cons_iff.2 ⟨he, item, p, hi, hs, rfl⟩, ?_⟩
    exact (admitsAll_cons (place_of_admits he hi hadm)).2 ⟨hadm, ha⟩

end Cursor

end Octet
