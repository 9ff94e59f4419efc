import Octet.AddressRange

/-! # What the text of a range means

A range is given by a text, and the text alone decides whether there is such a range, what is wrong with
it otherwise, and which addresses the range covers.
-/

namespace Octet.AddressRange

theorem length_le_of_digits {t : Text} (h : ∀ c ∈ t, c = '0' ∨ c = '1') :
    t.utf8Size ≤ 16 ↔ t.length ≤ 16 := by
  rw [utf8Size_of_digits h]

theorem exists_ofText_iff (t : Text) :
    (∃ r, ofText t = .ok r) ↔ t.length ≤ 16 ∧ ∀ c ∈ t, c = '0' ∨ c = '1' := by
  constructor
  · rintro ⟨r, hr⟩
    obtain ⟨hsize, hlen, hread⟩ := ofText_eq_ok_iff.1 hr
    have hdigits := (exists_readFrom_iff hlen).1 ⟨r, hread⟩
    exact ⟨(length_le_of_digits hdigits).1 hsize, hdigits⟩
  · rintro ⟨hl, hdigits⟩
    have hlen : any.length + t.length ≤ 16 := by simpa [any] using hl
    obtain ⟨r, hr⟩ := (exists_readFrom_iff hlen).2 hdigits
    exact ⟨r, ofText_eq_ok_iff.2 ⟨(length_le_of_digits hdigits).2 hl, hlen, hr⟩⟩

theorem ofText_of_long {t : Text} (h : 16 < t.utf8Size) : ofText t = .error (.rangeLength t) := by
  rw [ofText, dif_neg (Nat.not_le.2 h)]

theorem ofText_of_short {t : Text} (h : t.utf8Size ≤ 16) :
    (∃ r, ofText t = .ok r) ∨ ofText t = .error (.rangeDigits t) := by
  rw [ofText, dif_pos h]
  split
  · next r _ => exact .inl ⟨r, rfl⟩
  · exact .inr rfl

theorem ofText_eq_rangeLength_iff (t : Text) :
    ofText t = .error (.rangeLength t) ↔ 16 < t.utf8Size := by
  refine ⟨fun h => Nat.lt_of_not_le fun hshort => ?_, ofText_of_long⟩
  obtain ⟨r, hr⟩ | hr := ofText_of_short hshort
  · cases h.symm.trans hr
  · cases h.symm.trans hr

theorem ofText_eq_rangeDigits_iff (t : Text) : ofText t = .error (.rangeDigits t) ↔
    t.utf8Size ≤ 16 ∧ ∃ c ∈ t, c ≠ '0' ∧ c ≠ '1' := by
  constructor
  · intro h
    have hshort : t.utf8Size ≤ 16 := by
      refine Nat.le_of_not_lt fun hlong => ?_
      cases h.symm.trans (ofText_of_long hlong)
    refine ⟨hshort, Classical.byContradiction fun hnone => ?_⟩
    have hdigits : ∀ c ∈ t, c = '0' ∨ c = '1' := by
      intro c hc
      refine Decidable.or_iff_not_not_and_not.2 fun hne => hnone ⟨c, hc, hne⟩
    obtain ⟨r, hr⟩ := (exists_ofText_iff t).2 ⟨(length_le_of_digits hdigits).1 hshort, hdigits⟩
    cases h.symm.trans hr
  · rintro ⟨hshort, c, hc, h0, h1⟩
    refine (ofText_of_short hshort).resolve_left fun hok => ?_
    rcases ((exists_ofText_iff t).1 hok).2 c hc with h | h
    · exact h0 h
    · exact h1 h

/-- A text is read as a range exactly if it has at most sixteen characters, all of them binary digits.
What is wrong otherwise is its length if it takes more than sixteen bytes, and its digits in every other
case. A range that is read is written as the text that it was read from, and covers the addresses whose
sixteen binary digits begin with that text; and every range is read back from its own. -/
theorem ofText_exact :
    (∀ t, ((∃ r, ofText t = .ok r) ↔ t.length ≤ 16 ∧ ∀ c ∈ t, c = '0' ∨ c = '1') ∧
      (ofText t = .error (.rangeLength t) ↔ 16 < t.utf8Size) ∧
      (ofText t = .error (.rangeDigits t) ↔ t.utf8Size ≤ 16 ∧ ∃ c ∈ t, c ≠ '0' ∧ c ≠ '1')) ∧
    (∀ t r, ofText t = .ok r → r.text = t ∧
      ∀ a : Address, r.covers a = true ↔ t <+: Numeral.fixed 2 16 a.toNat) ∧
    ∀ r : AddressRange, ofText r.text = .ok r := by
  refine ⟨fun t => ?_, fun t r hr => ?_, ofText_text⟩
  · exact ⟨exists_ofText_iff t, ofText_eq_rangeLength_iff t, ofText_eq_rangeDigits_iff t⟩
  · have ht := text_ofText hr
    refine ⟨ht, fun a => ?_⟩
    rw [← ht]
    exact covers_iff r a

/-- Sixteen characters can take more than sixteen bytes, and then it is their length that is wrong. -/
example : ofText "é000000000000000".toList = .error (.rangeLength "é000000000000000".toList) := rfl

end Octet.AddressRange
