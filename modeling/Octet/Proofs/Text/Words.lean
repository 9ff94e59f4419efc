import Octet.Text.Blank

/-! # Words of a text

Blanks at either end of a text do not change its words, and a blank within it parts them.
-/

namespace Octet.Text

theorem words_cons_of_isBlank {c : Char} (h : isBlank c = true) (t : Text) :
    words (c :: t) = words t := by
  simp [words, List.splitOnP_cons_eq_if_modifyHead, h]

theorem words_append_cons {c : Char} (h : isBlank c = true) (s t : Text) :
    words (s ++ c :: t) = words s ++ words t := by
  rw [words, List.splitOnP_append_cons s t h, List.filter_append, words, words]

theorem isBlank_of_isDigit {c : Char} (h : c.isDigit = true) : isBlank c = false := by
  have hbounds : 48 ≤ c.val.toNat ∧ c.val.toNat ≤ 57 := by
    simpa [Char.isDigit, UInt32.le_iff_toNat_le] using h
  simp only [isBlank, UInt32.le_iff_toNat_le, ← UInt32.toNat_inj, Bool.or_eq_false_iff,
    Bool.and_eq_false_iff, decide_eq_false_iff_not, beq_eq_false_iff_ne, ne_eq, UInt32.reduceToNat]
  omega

theorem words_of_not_blank {t : Text} (ht : t ≠ []) (h : ∀ c ∈ t, isBlank c = false) :
    words t = [t] := by
  simp [words, List.splitOnP_eq_singleton h, ht]

theorem words_append_of_isBlank (t : Text) {bs : Text} (h : ∀ c ∈ bs, isBlank c = true) :
    words (t ++ bs) = words t := by
  induction bs generalizing t with
  | nil => rw [List.append_nil]
  | cons c bs ih =>
    have hc : isBlank c = true := h c (by simp)
    have hbs : words bs = [] := ih [] fun d hd => h d (by simp [hd])
    rw [words_append_cons hc, hbs, List.append_nil]

theorem words_trimStart (t : Text) : words (trimStart t) = words t := by
  induction t with
  | nil => rfl
  | cons c t ih =>
    cases h : isBlank c with
    | true =>
      rw [words_cons_of_isBlank h, ← ih]
      simp [trimStart, h]
    | false => simp [trimStart, h]

theorem words_trimEnd (t : Text) : words (trimEnd t) = words t := by
  have ht : t = trimEnd t ++ (t.reverse.takeWhile isBlank).reverse := by
    rw [trimEnd, ← List.reverse_append, List.takeWhile_append_dropWhile, List.reverse_reverse]
  have hb : ∀ c ∈ (t.reverse.takeWhile isBlank).reverse, isBlank c = true := by
    intro c hc
    exact List.all_eq_true.1 (List.all_takeWhile (p := isBlank)) c (List.mem_reverse.1 hc)
  conv => rhs; rw [ht]
  exact (words_append_of_isBlank _ hb).symm

theorem words_trim (t : Text) : words (trim t) = words t := by
  rw [trim, words_trimEnd, words_trimStart]

end Octet.Text
