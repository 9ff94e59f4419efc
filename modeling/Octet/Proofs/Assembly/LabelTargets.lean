import Octet.Proofs.Assembly.Correctness

/-! # Labels and the bytes behind them

A label stands for the address that the counter shows where it is defined. The next byte has this
address too unless a skip in between moves the counter on: then nothing is assembled where the label
points to.
-/

namespace Octet

namespace Program

def counterFrom (n : Nat) (p : Program) : Nat := p.foldl Item.next n

theorem placedFrom_append (n : Nat) (p q : Program) :
    placedFrom n (p ++ q) = placedFrom n p ++ placedFrom (counterFrom n p) q := by
  induction p generalizing n with
  | nil => rfl
  | cons item p ih => rw [List.cons_append, placedFrom, ih, placedFrom]; rfl

theorem counterFrom_eq_iff {n : Nat} {p : Program} (hf : ∀ x ∈ placedFrom n p, x.2.FitsAt x.1)
    (hb : ∀ item ∈ p, item.takesByte = false) :
    n ≤ counterFrom n p ∧ (counterFrom n p = n ↔ ∀ target, .skip target ∈ p → target = n) := by
  induction p generalizing n with
  | nil => simp [counterFrom]
  | cons item p ih =>
    rw [placedFrom, List.forall_mem_cons] at hf
    obtain ⟨hfits, hf⟩ := hf
    obtain ⟨hitem, hb⟩ := List.forall_mem_cons.1 hb
    obtain ⟨hle, hiff⟩ := ih hf hb
    change n ≤ counterFrom (item.next n) p ∧ (counterFrom (item.next n) p = n ↔ _)
    cases item with
    | label name => simpa [Item.next] using ⟨hle, hiff⟩
    | skip target =>
      simp only [Item.next] at hle hiff ⊢
      have hn : n ≤ target := hfits.1
      refine ⟨Nat.le_trans hn hle, fun h => ?_, fun h => ?_⟩
      · obtain rfl : target = n := by omega
        simpa using hiff.1 h
      · obtain rfl : target = n := h target (List.mem_cons_self ..)
        exact hiff.2 fun other ho => h other (List.mem_cons_of_mem _ ho)
    | instruction | literal | half => cases hitem

theorem lookup_bindingsFrom_label {n : Nat} {before after : Program} {name : Text}
    (h : name ∉ before.labels) :
    (bindingsFrom n (before ++ .label name :: after)).lookup name = some (counterFrom n before) := by
  induction before generalizing n with
  | nil => simp [lookup_bindingsFrom_cons, Item.defined?, counterFrom]
  | cons item before ih =>
    rw [mem_labels_cons, not_or] at h
    rw [List.cons_append, lookup_bindingsFrom_cons, if_neg h.1, ih h.2]
    rfl

theorem isSome_byte? {bindings : List (Text × Nat)} {item : Item} (h : item.Resolves bindings) :
    (byte? bindings item).isSome = item.takesByte := by
  cases item with
  | literal text =>
    obtain ⟨n, hn, -⟩ := h
    simp [byte?, hn, Item.takesByte]
  | half side name =>
    obtain ⟨a, ha⟩ := Option.isSome_iff_exists.1 h
    cases side <;> simp [byte?, ha, Item.takesByte]
  | _ => rfl

/-- The byte of an item stands in the image behind those of the items before it. -/
theorem getElem?_image {before after : Program} {item : Item} {p : Program}
    (hp : p = before ++ item :: after) (hr : ∀ item ∈ p, item.Resolves p.bindings)
    (hi : item.takesByte = true) :
    ∃ b, p.image[before.countP Item.takesByte]? = some (counterFrom 0 before, b) := by
  let entry : Nat × Item → Option (Nat × Nat) := fun x => (byte? p.bindings x.2).map (x.1, ·)
  have hsome (x : Nat × Item) (hx : x.2 ∈ p) : (entry x).isSome = x.2.takesByte := by
    rw [← isSome_byte? (hr x.2 hx), Option.isSome_map]
  have hlength : ((placedFrom 0 before).filterMap entry).length = before.countP Item.takesByte := by
    rw [List.length_filterMap_eq_countP]
    conv => rhs; rw [← map_snd_placedFrom 0 before, List.countP_map]
    refine List.countP_congr fun x hx => ?_
    have hmem : x.2 ∈ before := map_snd_placedFrom 0 before ▸ List.mem_map_of_mem hx
    rw [hsome x (hp ▸ List.mem_append_left _ hmem)]
    rfl
  have hbyte : (entry (counterFrom 0 before, item)).isSome = true :=
    (hsome (counterFrom 0 before, item) (by simp [hp])).trans hi
  obtain ⟨e, he⟩ := Option.isSome_iff_exists.1 hbyte
  obtain ⟨b, -, rfl⟩ := Option.map_eq_some_iff.1 he
  have himage : p.image = (placedFrom 0 before).filterMap entry ++ (counterFrom 0 before, b) ::
      (placedFrom (item.next (counterFrom 0 before)) after).filterMap entry := by
    rw [← List.filterMap_cons_some he, ← List.filterMap_append]
    have hplaced : p.placed =
        placedFrom 0 before ++ placedFrom (counterFrom 0 before) (item :: after) := by
      rw [placed_eq_placedFrom, hp, placedFrom_append]
    exact congrArg (List.filterMap entry) hplaced
  refine ⟨b, ?_⟩
  rw [himage, ← hlength, List.getElem?_append_right (Nat.le_refl _), Nat.sub_self]
  rfl

theorem not_mem_labels_of_nodup {before after : Program} {name : Text}
    (h : (labels (before ++ .label name :: after)).Nodup) : name ∉ before.labels := by
  rw [labels, List.filterMap_append, List.nodup_append] at h
  exact fun hmem => h.2.2 name hmem name (List.mem_cons_self ..) rfl

end Program

/-- In a source text without errors a label is bound to the address of the next byte behind it, or to
one in front of that: to the address itself exactly if every skip in between is to where the label
stands. -/
theorem label_meets_next_byte_iff (source : Text) (before between after : Program) (name : Text)
    (item : Item) (hc : ∀ t ∈ (compile source).tokens, t.isErrored = false)
    (hp : Program.ofSource? source = some (before ++ .label name :: (between ++ item :: after)))
    (hb : ∀ item ∈ between, item.takesByte = false) (hi : item.takesByte = true) :
    ∃ label image e, (compile source).labels.get? name = some label ∧
      (compile source).image = .ok image ∧ image[before.countP Item.takesByte]? = some e ∧
      label.address ≤ e.address ∧
      (label.address = e.address ↔
        ∀ target, .skip target ∈ between → target = label.address.toNat) := by
  obtain ⟨p, hp', hw⟩ := exists_program_of_clean hc
  obtain rfl := Option.some.inj (hp'.symm.trans hp)
  have hs := (says_checked_iff source).2 hp
  obtain ⟨ha, hr⟩ := Program.wellFormed_iff.1 hw
  obtain ⟨image, him, hmap⟩ := exists_image_of_program hs hw
  have hbound := binds_labels hs ha name
  rw [Program.bindings_eq_bindingsFrom,
    Program.lookup_bindingsFrom_label (Program.not_mem_labels_of_nodup ha.nodup)] at hbound
  obtain ⟨label, hl, haddress⟩ := Option.map_eq_some_iff.1 hbound
  have hsplit : before ++ .label name :: (between ++ item :: after) =
      (before ++ .label name :: between) ++ item :: after := by simp
  have hcount : (before ++ .label name :: between).countP Item.takesByte =
      before.countP Item.takesByte := by
    have hnone : between.countP Item.takesByte = 0 := List.countP_eq_zero.2 (by simpa using hb)
    simp [List.countP_append, Item.takesByte, hnone]
  have hcounter : Program.counterFrom 0 (before ++ .label name :: between) =
      Program.counterFrom label.address.toNat between := by
    rw [haddress]
    simp [Program.counterFrom, Item.next]
  obtain ⟨b, hbyte⟩ := Program.getElem?_image hsplit hr hi
  rw [hcount, hcounter, ← hmap, List.getElem?_map] at hbyte
  obtain ⟨e, he, hebyte⟩ := Option.map_eq_some_iff.1 hbyte
  have headdress : e.address.toNat = Program.counterFrom label.address.toNat between :=
    congrArg Prod.fst hebyte
  have hfits : ∀ x ∈ Program.placedFrom label.address.toNat between, x.2.FitsAt x.1 := by
    intro x hx
    refine ha.fits x ?_
    rw [Program.placedFrom_append]
    refine List.mem_append_right _ (List.mem_cons_of_mem _ ?_)
    rw [Program.placedFrom_append]
    exact List.mem_append_left _ (haddress ▸ hx)
  obtain ⟨hle, hiff⟩ := Program.counterFrom_eq_iff hfits hb
  refine ⟨label, image, e, hl, him, he, ?_, ?_⟩
  · rw [UInt16.le_iff_toNat_le, headdress]
    exact hle
  · rw [← UInt16.toNat_inj, headdress, eq_comm]
    exact hiff

/-- Two labels, a skip that does not move the counter, a comment and a blank line in between. -/
theorem label_meets_next_byte_iff_unmoved :
    let source := "NOP\na:\nb:\n#SKIPTO 1\n- end\n\nCLA 7".toList
    (∀ t ∈ (compile source).tokens, t.isErrored = false) ∧
      ∃ label image e, (compile source).labels.get? ['a'] = some label ∧
        (compile source).image = .ok image ∧ image[1]? = some e ∧ label.address = e.address := by
  intro source
  have hc : ∀ t ∈ (compile source).tokens, t.isErrored = false := by decide +kernel
  have hp : Program.ofSource? source = some ([.instruction .nop] ++ .label ['a'] ::
      ([.label ['b'], .skip 1] ++ .instruction .cla :: [.literal ['7']])) := by decide +kernel
  obtain ⟨label, image, e, hl, him, he, -, hiff⟩ :=
    label_meets_next_byte_iff source _ _ _ _ _ hc hp (by decide) rfl
  have haddress : ((compile source).labels.get? ['a']).map (·.address.toNat) = some 1 := by
    decide +kernel
  rw [hl, Option.map_some, Option.some.injEq] at haddress
  refine ⟨hc, label, image, e, hl, him, he, hiff.2 fun target ht => ?_⟩
  obtain rfl : target = 1 := by simpa using ht
  exact haddress.symm

/-- Behind a label the counter is moved on, so that nothing is assembled where the label points. -/
theorem label_misses_byte_behind_skip :
    let source := "a:\n#SKIPTO 10\nNOP".toList
    (∀ t ∈ (compile source).tokens, t.isErrored = false) ∧
      Program.ofSource? source = some [.label ['a'], .skip 10, .instruction .nop] ∧
      (compile source).labels = [(['a'], ⟨0, 1⟩)] ∧ (compile source).image = .ok [⟨10, 1⟩] := by
  decide +kernel

end Octet
