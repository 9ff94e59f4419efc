import Octet.Proofs.Assembly.Outcome

/-! # What is assembled

A source text compiles without an error exactly if it has a well-formed program, and then the image is
the one that two passes over that program give, and the labels are its bindings.
-/

namespace Octet

open Token

theorem Program.wellFormed_iff {p : Program} : p.WellFormed ↔
    Cursor.start.AdmitsAll p ∧ ∀ item ∈ p, item.Resolves p.bindings := by
  have bound : ∀ name, (p.bindings.lookup name).isSome = true ↔ name ∈ p.labels := by
    intro name
    rw [bindings_eq_bindingsFrom, lookup_bindingsFrom]
  constructor
  · rintro ⟨hn, hr, hl, hf⟩
    rw [placed_eq_placedFrom] at hf
    refine ⟨⟨hf, hn, fun name _ => rfl⟩, fun item hi => ?_⟩
    cases item with
    | literal text => exact hl text (List.mem_filterMap.2 ⟨_, hi, rfl⟩)
    | half side name => exact (bound name).2 (hr name (List.mem_filterMap.2 ⟨_, hi, rfl⟩))
    | _ => trivial
  · rintro ⟨⟨hf, hn, -⟩, hr⟩
    refine ⟨hn, fun name hname => ?_, fun text htext => ?_, ?_⟩
    · obtain ⟨item, hi, hd⟩ := List.mem_filterMap.1 hname
      cases item with
      | half side other =>
        cases hd
        exact (bound name).1 (hr _ hi)
      | _ => cases hd
    · obtain ⟨item, hi, hd⟩ := List.mem_filterMap.1 htext
      cases item with
      | literal other =>
        cases hd
        exact hr _ hi
      | _ => cases hd
    · rw [placed_eq_placedFrom]
      exact hf

section

variable {source : Text} {p : Program}

theorem at_laidOut (hs : Says (checked source) p) (ha : Cursor.start.AdmitsAll p) :
    List.Forall₂ (fun x t => t.At x.1 x.2) (p.placed.filter (·.2.target?.isNone))
      (laidOut source).1 := by
  rw [Program.placed_eq_placedFrom]
  exact Cursor.at_placeAll hs ha

theorem binds_labels (hs : Says (checked source) p) (ha : Cursor.start.AdmitsAll p) :
    (compile source).labels.Binds p.bindings := by
  intro name
  rw [Program.bindings_eq_bindingsFrom]
  exact Cursor.get?_labels_placeAll hs ha name

theorem mem_of_mem_placed {x : Nat × Item} (h : x ∈ p.placed) : x.2 ∈ p := by
  rw [Program.placed_eq_placedFrom] at h
  rw [← Program.map_snd_placedFrom 0 p]
  exact List.mem_map_of_mem h

/-- Where an item stands that is no skip, a token stands that says it. -/
theorem exists_at (hs : Says (checked source) p) (ha : Cursor.start.AdmitsAll p) {item : Item}
    (hi : item ∈ p) (hk : item.target? = none) :
    ∃ t ∈ (laidOut source).1, t.isErrored = false ∧ t.item? = some item := by
  rw [← Program.map_snd_placedFrom 0 p, ← Program.placed_eq_placedFrom] at hi
  obtain ⟨x, hx, rfl⟩ := List.mem_map.1 hi
  have hmem : x ∈ p.placed.filter (·.2.target?.isNone) := List.mem_filter.2 ⟨hx, by simp [hk]⟩
  obtain ⟨t, ht, hat⟩ := exists_of_mem_left (at_laidOut hs ha) hmem
  exact ⟨t, ht, hat.clean, hat.reads⟩

end

/-- The tokens are without errors exactly if they say a program of which each item has its place and
what it refers to. -/
theorem clean_tokens_iff {source : Text} : Clean (compile source).tokens ↔
    ∃ p, Says (checked source) p ∧ Cursor.start.AdmitsAll p ∧ ∀ item ∈ p, item.Resolves p.bindings := by
  constructor
  · intro hc
    have hclean : ∀ t ∈ (laidOut source).1, t.isErrored = false ∧ t.item?.isSome = true := by
      intro t ht
      have he := (Encoding.isErrored_token_eq_false_iff.1 (hc _ (mem_tokens_iff.2 ⟨t, ht, rfl⟩))).1
      obtain ⟨item, hi, -⟩ := (placed_laidOut ht).exists_item he
      exact ⟨he, Option.isSome_iff_exists.2 ⟨item, hi⟩⟩
    obtain ⟨p, hs, ha⟩ := Cursor.says_of_placeAll hclean
    refine ⟨p, hs, ha, fun item hi => ?_⟩
    cases hk : item.target? with
    | some target =>
      cases item with
      | skip _ => trivial
      | _ => cases hk
    | none =>
      obtain ⟨t, ht, he, hread⟩ := exists_at hs ha hi hk
      have hb := binds_labels hs ha
      refine (Encoding.isErrored_token_iff_resolves (placed_laidOut ht) he hread hb).1 ?_
      exact hc _ (mem_tokens_iff.2 ⟨t, ht, rfl⟩)
  · rintro ⟨p, hs, ha, hr⟩ t ht
    obtain ⟨t', ht', rfl⟩ := mem_tokens_iff.1 ht
    obtain ⟨x, hx, hat⟩ := exists_of_mem_right (at_laidOut hs ha) ht'
    have hb := binds_labels hs ha
    refine (Encoding.isErrored_token_iff_resolves (placed_laidOut ht') hat.clean hat.reads hb).2 ?_
    exact hr x.2 (mem_of_mem_placed (List.mem_filter.1 hx).1)

theorem exists_program_of_clean {source : Text} (hc : Clean (compile source).tokens) :
    ∃ p, Program.ofSource? source = some p ∧ p.WellFormed := by
  obtain ⟨p, hs, ha, hr⟩ := clean_tokens_iff.1 hc
  exact ⟨p, (says_checked_iff source).1 hs, Program.wellFormed_iff.2 ⟨ha, hr⟩⟩

/-- No token is errored exactly if the source text is that of a well-formed program. -/
theorem compile_clean_iff (source : Text) :
    (∀ t ∈ (compile source).tokens, t.isErrored = false) ↔
      ∃ p, Program.ofSource? source = some p ∧ p.WellFormed := by
  constructor
  · intro hc
    exact exists_program_of_clean hc
  · rintro ⟨p, hp, hw⟩
    obtain ⟨ha, hr⟩ := Program.wellFormed_iff.1 hw
    exact clean_tokens_iff.2 ⟨p, (says_checked_iff source).2 hp, ha, hr⟩

section

variable {labels : LabelTable} {bindings : List (Text × Nat)}

/-- A token that says an item exports the byte of the item, if there is one. -/
theorem entry_token {x : Nat × Item} {t : Token} (ht : t.Placed labels) (hat : t.At x.1 x.2)
    (hb : labels.Binds bindings) (hr : x.2.Resolves bindings) (hx : x.1 ≤ 65535) :
    (Program.byte? bindings x.2 = none ∧
      (Encoding.token labels t).kind.takesByte = false) ∨
    ∃ e : Image.Entry, Program.byte? bindings x.2 = some e.byte.toNat ∧ e.address.toNat = x.1 ∧
      (Encoding.token labels t).kind.takesByte = true ∧
      (Encoding.token labels t).entry = .ok e := by
  obtain ⟨b, hbyte, hvalue⟩ := Encoding.byte?_of_resolves ht hat.clean hat.reads hb hr
  rcases Encoding.coding ht with ⟨he, _⟩ | ⟨he, hk, hb', h⟩ | ⟨b', he, hk, hb', h⟩ | ⟨e, _, _, hb', _⟩
  · rw [hat.clean] at he
    cases he
  · rw [hbyte] at hb'
    cases hb'
    refine .inl ⟨hvalue.symm, ?_⟩
    rw [h]
    exact congrArg TokenKind.takesByte hk
  · rw [hbyte] at hb'
    cases hb'
    have hkind : t.kind.takesByte = true := by
      cases hk' : t.kind with
      | label => exact absurd hk' hk
      | directive =>
        rw [ht.applied hk'] at he
        cases he
      | _ => rfl
    refine .inr ⟨⟨.ofNat x.1, b'⟩, hvalue.symm, ?_, by rw [h]; exact hkind, ?_⟩
    · simp only [UInt16.toNat_ofNat']
      omega
    · rw [h]
      simp [Encoding.store, Token.entry, note, record, hat.address]
  · rw [hbyte] at hb'
    cases hb'

/-- The tokens in their order export the bytes of the items in their order. -/
theorem exists_entries {xs : List (Nat × Item)} {ts : List Token}
    (h : List.Forall₂ (fun x t => t.At x.1 x.2) xs ts) (ht : ∀ t ∈ ts, t.Placed labels)
    (hb : labels.Binds bindings) (hx : ∀ x ∈ xs, x.1 ≤ 65535 ∧ x.2.Resolves bindings) :
    ∃ image : Image, ((encode labels ts).filter (·.kind.takesByte)).mapM Token.entry = .ok image ∧
      image.map (fun e => (e.address.toNat, e.byte.toNat)) =
        xs.filterMap fun x => (Program.byte? bindings x.2).map (x.1, ·) := by
  induction h with
  | nil => exact ⟨[], rfl, rfl⟩
  | @cons x t xs ts hat _ ih =>
    obtain ⟨ht, hts⟩ := List.forall_mem_cons.1 ht
    obtain ⟨⟨hx, hr⟩, hxs⟩ := List.forall_mem_cons.1 hx
    obtain ⟨image, him, hmap⟩ := ih hts hxs
    rcases entry_token ht hat hb hr hx with ⟨hnone, hk⟩ | ⟨e, hsome, haddr, hk, he⟩
    · refine ⟨image, ?_, ?_⟩
      · rw [encode, List.map_cons, List.filter_cons_of_neg (by simp [hk])]
        exact him
      · rw [List.filterMap_cons_none (by simp [hnone]), hmap]
    · refine ⟨e :: image, ?_, ?_⟩
      · rw [encode, List.map_cons, List.filter_cons_of_pos (by simpa using hk)]
        exact mapM_eq_ok_iff.2 (.cons he (mapM_eq_ok_iff.1 him))
      · rw [List.filterMap_cons_some (b := (x.1, e.byte.toNat)) (by simp [hsome]), List.map_cons,
          hmap, haddr]

end

theorem exists_image_of_program {source : Text} {p : Program} (hs : Says (checked source) p)
    (hw : p.WellFormed) : ∃ image : Image, (compile source).image = .ok image ∧
      image.map (fun e => (e.address.toNat, e.byte.toNat)) = p.image := by
  obtain ⟨ha, hr⟩ := Program.wellFormed_iff.1 hw
  have hc : (compile source).hasErrors = false :=
    (Compilation.hasErrors_eq_false_iff _).2 (clean_tokens_iff.2 ⟨p, hs, ha, hr⟩)
  have hfits : ∀ x ∈ p.placed.filter (·.2.target?.isNone),
      x.1 ≤ 65535 ∧ x.2.Resolves p.bindings := by
    intro x hx
    have hx := (List.mem_filter.1 hx).1
    exact ⟨Item.le_of_fitsAt (hw.placed_fit x hx), hr x.2 (mem_of_mem_placed hx)⟩
  obtain ⟨image, him, hmap⟩ :=
    exists_entries (at_laidOut hs ha) (fun _ => placed_laidOut) (binds_labels hs ha) hfits
  refine ⟨image, (Compilation.image_of_clean hc).trans him, ?_⟩
  rw [hmap, Program.image, List.filterMap_filter]
  congr 1
  funext x
  cases hx : x.2 <;> simp [Item.target?, Program.byte?, hx]

theorem clean_tokens_of_image {source : Text} {image : Image}
    (h : (compile source).image = .ok image) : Clean (compile source).tokens :=
  (Compilation.hasErrors_eq_false_iff _).1 (Compilation.clean_of_image h)

theorem increasing_image {source : Text} {image : Image} (h : (compile source).image = .ok image) :
    image.Pairwise (·.address < ·.address) := by
  obtain ⟨p, hp, hw⟩ := exists_program_of_clean (clean_tokens_of_image h)
  obtain ⟨image', him, hmap⟩ := exists_image_of_program ((says_checked_iff source).2 hp) hw
  obtain rfl : image' = image := Except.ok.inj (him.symm.trans h)
  have hsorted := Program.pairwise_image hw.placed_fit
  rw [← hmap, List.pairwise_map] at hsorted
  exact hsorted.imp fun hlt => UInt16.lt_iff_toNat_lt.2 hlt

/-- The image of a source text without errors is the one that two passes over its program give, with
its labels bound as in the first of them; the addresses increase. -/
theorem image_eq_program_image (source : Text)
    (h : ∀ t ∈ (compile source).tokens, t.isErrored = false) :
    ∃ p image, Program.ofSource? source = some p ∧ (compile source).image = .ok image ∧
      image.map (fun e => (e.address.toNat, e.byte.toNat)) = p.image ∧
      (∀ name, ((compile source).labels.get? name).map (·.address.toNat) = p.bindings.lookup name) ∧
      image.Pairwise (·.address < ·.address) := by
  obtain ⟨p, hp, hw⟩ := exists_program_of_clean h
  have hs := (says_checked_iff source).2 hp
  obtain ⟨image, him, hmap⟩ := exists_image_of_program hs hw
  have hb := binds_labels hs (Program.wellFormed_iff.1 hw).1
  exact ⟨p, image, hp, him, hmap, hb, increasing_image him⟩

/-- A reference to a label behind a skip. -/
theorem image_eq_program_image_forward :
    let source := "ADR @b\nCLA 0x0f\n#SKIPTO 512\na: 7 @a.h\nb:".toList
    (∀ t ∈ (compile source).tokens, t.isErrored = false) ∧
      ∃ image, (compile source).image = .ok image ∧
        image.map (fun e => (e.address.toNat, e.byte.toNat)) =
          [(0, 2), (1, 2), (2, 2), (3, 13), (4, 15), (512, 7), (513, 2)] := by
  intro source
  have h : ∀ t ∈ (compile source).tokens, t.isErrored = false := by decide +kernel
  obtain ⟨p, image, hp, him, hmap, -⟩ := image_eq_program_image source h
  have hprogram : (Program.ofSource? source).map Program.image =
      some [(0, 2), (1, 2), (2, 2), (3, 13), (4, 15), (512, 7), (513, 2)] := by decide +kernel
  rw [hp, Option.map_some, Option.some.injEq] at hprogram
  exact ⟨h, image, him, hmap.trans hprogram⟩

end Octet
