import Octet.Proofs.Json.Documents

/-! # Texts and their lexemes

A text that is cut into lexemes consists of theirs, one behind the other, with spaces between them
and nowhere else, unless strings are among them. Punctuation is cut off wherever it stands, and a
number where no further character of a number follows.
-/

namespace Octet.Json

/-- The text consists of the lexemes and of spaces between them. What a string looks like is left
open. -/
inductive Cut : Text → List Lexeme → Prop
  | nil : Cut [] []
  | space {c : Char} {t : Text} {ls : List Lexeme} (hc : isSpace c = true) (h : Cut t ls) :
    Cut (c :: t) ls
  | lexeme {l : Lexeme} {t : Text} {ls : List Lexeme} (hl : l.Sound)
    (htext : ∀ c ∈ l.text, isSpace c = false) (h : Cut t ls) : Cut (l.text ++ t) (l :: ls)
  | string {s t : Text} {units : List StringUnit} {ls : List Lexeme} (h : Cut t ls) :
    Cut (s ++ t) (.scalar (.string units) :: ls)

theorem isSpace_of_isNumberChar {c : Char} (h : isNumberChar c = true) : isSpace c = false := by
  simp only [isSpace, Bool.or_eq_false_iff, beq_eq_false_iff_ne]
  refine ⟨⟨⟨?_, ?_⟩, ?_⟩, ?_⟩
  all_goals
    rintro rfl
    revert h
    decide

theorem text_of_punctuation {c : Char} {l : Lexeme} (h : punctuation? c = some l) :
    l.text = [c] ∧ l.Sound ∧ c.isDigit = false ∧ isSpace c = false := by
  fun_cases punctuation? c with
  | case7 => simp [punctuation?, *] at h
  | _ =>
    cases h
    exact ⟨rfl, trivial, rfl, rfl⟩

theorem eq_append_of_scanString {t rest : Text} {units : List StringUnit}
    (h : scanString t = some (units, rest)) : ∃ s, t = s ++ rest := by
  fun_induction scanString t generalizing units rest with
  | case1 | case5 => cases h
  | case2 r =>
    cases h
    exact ⟨['"'], rfl⟩
  | case3 a b c d r ih =>
    simp only [bind, Option.bind_eq_some_iff, pure, Option.some.injEq, Prod.mk.injEq] at h
    obtain ⟨_, -, ⟨us, r'⟩, hr, -, rfl⟩ := h
    obtain ⟨s, rfl⟩ := ih hr
    exact ⟨'\\' :: 'u' :: a :: b :: c :: d :: s, rfl⟩
  | case4 c r _ ih =>
    simp only [bind, Option.bind_eq_some_iff, pure, Option.some.injEq, Prod.mk.injEq] at h
    obtain ⟨_, -, ⟨us, r'⟩, hr, -, rfl⟩ := h
    obtain ⟨s, rfl⟩ := ih hr
    exact ⟨'\\' :: c :: s, rfl⟩
  | case6 c r _ _ _ _ ih =>
    simp only [bind, Option.bind_eq_some_iff, pure, Option.some.injEq, Prod.mk.injEq] at h
    obtain ⟨⟨us, r'⟩, hr, -, rfl⟩ := h
    obtain ⟨s, rfl⟩ := ih hr
    exact ⟨c :: s, rfl⟩

theorem cut_of_lexemes? {t : Text} {ls : List Lexeme} (h : lexemes? t = some ls) : Cut t ls := by
  fun_induction lexemes? t generalizing ls with
  | case1 =>
    cases h
    exact .nil
  | case2 rest ih =>
    obtain ⟨ls, hrest, rfl⟩ := Option.map_eq_some_iff.1 h
    exact .lexeme (l := .scalar .null) trivial
      (by simp [Lexeme.text, render, isSpace]) (ih hrest)
  | case3 rest ih =>
    obtain ⟨ls, hrest, rfl⟩ := Option.map_eq_some_iff.1 h
    exact .lexeme (l := .scalar (.bool true)) trivial
      (by simp [Lexeme.text, render, isSpace]) (ih hrest)
  | case4 rest ih =>
    obtain ⟨ls, hrest, rfl⟩ := Option.map_eq_some_iff.1 h
    exact .lexeme (l := .scalar (.bool false)) trivial
      (by simp [Lexeme.text, render, isSpace]) (ih hrest)
  | case5 rest units rest' hscan ih =>
    obtain ⟨ls, hrest, rfl⟩ := Option.map_eq_some_iff.1 h
    obtain ⟨s, rfl⟩ := eq_append_of_scanString hscan
    exact .string (s := '"' :: s) (ih hrest)
  | case6 | case10 => cases h
  | case7 c rest _ _ _ _ l hl ih =>
    obtain ⟨ls, hrest, rfl⟩ := Option.map_eq_some_iff.1 h
    obtain ⟨htext, hsound, -, hspace⟩ := text_of_punctuation hl
    have hcut : Cut (l.text ++ rest) (l :: ls) :=
      .lexeme hsound (by simpa [htext] using hspace) (ih hrest)
    rwa [htext] at hcut
  | case8 c rest _ _ _ _ _ hspace ih => exact .space hspace (ih h)
  | case9 c rest _ _ _ _ _ literal hspace hnumber =>
    rename_i ih
    obtain ⟨ls, hrest, rfl⟩ := Option.map_eq_some_iff.1 h
    have htext : ∀ d ∈ literal, isSpace d = false := by
      intro d hd
      rcases List.mem_cons.1 hd with rfl | hd
      · simpa using hspace
      · exact isSpace_of_isNumberChar (List.all_eq_true.1 List.all_takeWhile d hd)
    have hcut := Cut.lexeme (l := .scalar (.number literal)) hnumber
      (by rwa [Lexeme.text, render]) (ih hrest)
    have hsplit : literal ++ rest.dropWhile isNumberChar = c :: rest :=
      congrArg (c :: ·) List.takeWhile_append_dropWhile
    rwa [Lexeme.text, render, hsplit] at hcut

namespace Cut

variable {t : Text} {ls : List Lexeme}

theorem sound (h : Cut t ls) : ∀ l ∈ ls, l.Sound := by
  induction h with
  | nil => nofun
  | space _ _ ih => exact ih
  | lexeme hl _ _ ih => exact List.forall_mem_cons.2 ⟨hl, ih⟩
  | string _ ih => exact List.forall_mem_cons.2 ⟨trivial, ih⟩

theorem filter_isSpace (h : Cut t ls) (hls : ∀ units, .scalar (.string units) ∉ ls) :
    t.filter (!isSpace ·) = ls.flatMap Lexeme.text := by
  induction h with
  | nil => rfl
  | space hc _ ih =>
    rw [List.filter_cons_of_neg (by simp [hc])]
    exact ih hls
  | @lexeme l t ls _ htext _ ih =>
    have hkept : l.text.filter (!isSpace ·) = l.text :=
      List.filter_eq_self.2 fun c hc => by simp [htext c hc]
    rw [List.filter_append, hkept, ih fun units hu => hls units (List.mem_cons_of_mem _ hu)]
    rfl
  | string => exact absurd (List.mem_cons_self ..) (hls _)

end Cut

/-- A character with which nothing but punctuation, a space or a number begins. -/
theorem lexemes?_cons {c : Char} (hc : c ∉ ['n', 't', 'f', '"']) (rest : Text) :
    lexemes? (c :: rest) = (punctuation? c).elim
      (if isSpace c then lexemes? rest
        else if isNumber (c :: rest.takeWhile isNumberChar) then
          (lexemes? (rest.dropWhile isNumberChar)).map
            (.scalar (.number (c :: rest.takeWhile isNumberChar)) :: ·)
        else none)
      fun l => (lexemes? rest).map (l :: ·) := by
  simp only [List.mem_cons, List.not_mem_nil, or_false, not_or] at hc
  obtain ⟨hn, ht, hf, hq⟩ := hc
  rw [lexemes?]
  · cases punctuation? c <;> rfl
  · intro _ h
    exact absurd h hn
  · intro _ h
    exact absurd h ht
  · intro _ h
    exact absurd h hf
  · exact hq

theorem lexemes?_punctuation {c : Char} {l : Lexeme} (h : punctuation? c = some l) (rest : Text) :
    lexemes? (c :: rest) = (lexemes? rest).map (l :: ·) := by
  have hc : c ∉ ['n', 't', 'f', '"'] := by
    intro hc
    simp only [List.mem_cons, List.not_mem_nil, or_false] at hc
    rcases hc with rfl | rfl | rfl | rfl <;> cases h
  rw [lexemes?_cons hc, h, Option.elim_some]

theorem isNumberChar_of_isDigit {c : Char} (h : c.isDigit = true) : isNumberChar c = true := by
  simp [isNumberChar, h]

theorem lexemes?_number {literal rest : Text} (h : isNumber literal = true)
    (hdigits : ∀ c ∈ literal, c.isDigit = true) (hrest : ∀ c ∈ rest.head?, isNumberChar c = false) :
    lexemes? (literal ++ rest) = (lexemes? rest).map (.scalar (.number literal) :: ·) := by
  cases literal with
  | nil => cases h
  | cons c t =>
    obtain ⟨hc, ht⟩ := List.forall_mem_cons.1 hdigits
    have hplain : c ∉ ['n', 't', 'f', '"'] := by
      intro hmem
      simp only [List.mem_cons, List.not_mem_nil, or_false] at hmem
      rcases hmem with rfl | rfl | rfl | rfl <;> cases hc
    have hnone : punctuation? c = none := by
      cases hl : punctuation? c with
      | none => rfl
      | some l =>
        have hfalse : c.isDigit = false := (text_of_punctuation hl).2.2.1
        simp [hc] at hfalse
    have hspace : isSpace c = false := isSpace_of_isNumberChar (isNumberChar_of_isDigit hc)
    have hrun : ∀ d ∈ t, isNumberChar d = true := fun d hd => isNumberChar_of_isDigit (ht d hd)
    have htake : (t ++ rest).takeWhile isNumberChar = t := by
      rw [List.takeWhile_append_of_pos hrun]
      cases rest with
      | nil => simp
      | cons d rest => simp [hrest d rfl]
    have hdrop : (t ++ rest).dropWhile isNumberChar = rest := by
      rw [List.dropWhile_append_of_pos hrun]
      cases rest with
      | nil => rfl
      | cons d rest => simp [hrest d rfl]
    rw [List.cons_append, lexemes?_cons hplain, hnone, Option.elim_none]
    simp only [hspace, htake, hdrop, h, ↓reduceIte, Bool.false_eq_true]

/-- What is read from a text is the document with its lexemes. -/
theorem parse?_eq_some_iff {t : Text} {v : Json} :
    parse? t = some v ↔ lexemes? t = some v.lexemes := by
  unfold parse?
  cases hls : lexemes? t with
  | none => simp
  | some ls =>
    have hread := foldlM_eq_some_iff (v := v) (cut_of_lexemes? hls).sound
    simp only [Option.bind_eq_bind, Option.bind_some, Option.bind_eq_some_iff, Option.some.injEq]
    rw [← hread]
    constructor
    · rintro ⟨e, hfold, he⟩
      split at he
      · cases he
        exact hfold
      · cases he
    · intro hfold
      exact ⟨_, hfold, rfl⟩

theorem sound_of_parse? {t : Text} {v : Json} (h : parse? t = some v) : ∀ l ∈ v.lexemes, l.Sound :=
  (cut_of_lexemes? (parse?_eq_some_iff.1 h)).sound

end Octet.Json
