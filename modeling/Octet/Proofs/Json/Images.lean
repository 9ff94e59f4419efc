import Mathlib.Data.List.Basic
import Mathlib.Data.List.TakeWhile
import Octet.Image
import Octet.Proofs.Json.Lexemes

/-! # The text of an image

The literal of a natural number is its decimal form or is written with needless zeros, which no
number of a document has. So a document that is an image is the one that the image is written as,
and a text that is read as an image is the image's own text with spaces between its lexemes.
-/

namespace Octet

namespace Numeral

theorem decimal_append {n d : Nat} (hn : 0 < n) (hd : d < 10) :
    decimal n ++ [d.digitChar] = decimal (10 * n + d) := by
  unfold decimal
  rw [← Nat.toDigits_append_toDigits (by decide) hn hd, Nat.toDigits_of_lt_base hd]

theorem head?_decimal_ne {n : Nat} (hn : 0 < n) : (decimal n).head? ≠ some '0' := by
  induction n using Nat.base_induction 10 (by decide) with
  | single d hd =>
    have hdigits : ∀ d < 10, 0 < d → Nat.digitChar d ≠ '0' := by decide
    rw [decimal, Nat.toDigits_of_lt_base hd]
    simpa using hdigits d hd hn
  | digit n d hd hpos ih =>
    have hfirst : (decimal n ++ [d.digitChar]).head? = (decimal n).head? :=
      List.head?_append_of_ne_nil _ Nat.toDigits_ne_nil
    rw [← decimal_append hpos hd, hfirst]
    exact ih hpos

theorem digitChar_of_isDigit {c : Char} (hc : c.isDigit = true) :
    c.toNat - '0'.toNat < 10 ∧ (c.toNat - '0'.toNat).digitChar = c := by
  have hzero : '0'.toNat = 48 := rfl
  have hbounds : 48 ≤ c.toNat ∧ c.toNat ≤ 57 := by
    simpa [Char.isDigit, UInt32.le_iff_toNat_le] using hc
  have hlt : c.toNat - '0'.toNat < 10 := by omega
  refine ⟨hlt, ?_⟩
  apply Char.toNat_inj.1
  rw [Nat.toNat_digitChar_of_lt_ten hlt]
  omega

theorem decimal_append_of_isDigit {n : Nat} (hn : 0 < n) {t : Text}
    (ht : ∀ c ∈ t, c.isDigit = true) : decimal n ++ t = decimal (Nat.ofDigitChars 10 t n) := by
  induction t generalizing n with
  | nil => simp
  | cons c t ih =>
    obtain ⟨hc, ht⟩ := List.forall_mem_cons.1 ht
    obtain ⟨hlt, hchar⟩ := digitChar_of_isDigit hc
    have hpos : 0 < 10 * n + (c.toNat - '0'.toNat) := by omega
    rw [Nat.ofDigitChars_cons, ← ih hpos ht, ← decimal_append hn hlt, hchar, List.append_assoc]
    rfl

/-- Digits with no needless zero are the decimal form of their number. -/
theorem decimal_ofDigitChars {t : Text} (hdigits : ∀ c ∈ t, c.isDigit = true) (ht : t ≠ [])
    (hzero : t.head? ≠ some '0') : decimal (Nat.ofDigitChars 10 t 0) = t := by
  cases t with
  | nil => exact absurd rfl ht
  | cons c t =>
    obtain ⟨hc, hrest⟩ := List.forall_mem_cons.1 hdigits
    obtain ⟨hlt, hchar⟩ := digitChar_of_isDigit hc
    have hpos : 0 < c.toNat - '0'.toNat := by
      apply Nat.pos_of_ne_zero
      intro h0
      rw [h0] at hchar
      exact hzero (congrArg some hchar.symm)
    have hfirst : decimal (c.toNat - '0'.toNat) = [c] := by
      rw [decimal, Nat.toDigits_of_lt_base hlt, hchar]
    rw [Nat.ofDigitChars_cons, Nat.mul_zero, Nat.zero_add, ← decimal_append_of_isDigit hpos hrest,
      hfirst]
    rfl

end Numeral

namespace Json

theorem isNumber_iff_of_isDigit {t : Text} (hdigits : ∀ c ∈ t, c.isDigit = true) :
    isNumber t = true ↔ t = ['0'] ∨ t ≠ [] ∧ t.head? ≠ some '0' := by
  have hunsigned : isNumber t = isUnsigned t := by
    cases t with
    | nil => rfl
    | cons c t =>
      unfold isNumber
      split
      · next h =>
        obtain ⟨rfl, -⟩ := List.cons.inj h
        have hminus : ('-' : Char).isDigit = true := hdigits '-' (by simp)
        cases hminus
      · rfl
  have htake : t.takeWhile Char.isDigit = t := List.takeWhile_eq_self_iff.2 hdigits
  have hdrop : t.dropWhile Char.isDigit = [] := List.dropWhile_eq_nil_iff.2 hdigits
  rw [hunsigned, isUnsigned, htake, hdrop]
  simp [isFraction, isExponent]

theorem isNumber_decimal (n : Nat) : isNumber (Numeral.decimal n) = true := by
  rw [isNumber_iff_of_isDigit Numeral.isDigit_of_mem_decimal]
  by_cases hn : n = 0
  · subst hn
    exact .inl rfl
  · exact .inr ⟨Nat.toDigits_ne_nil, Numeral.head?_decimal_ne (Nat.pos_of_ne_zero hn)⟩

/-- A number that is read as a natural one is written in its decimal form. -/
theorem eq_ofNat_of_natBelow? {v : Json} {bound n : Nat} (hv : ∀ l ∈ v.lexemes, l.Sound)
    (h : v.natBelow? bound = some n) : v = ofNat n ∧ n < bound := by
  cases v with
  | number literal =>
    have hnumber : isNumber literal = true := hv (.scalar (.number literal)) (by simp [lexemes])
    simp only [natBelow?, Option.filter_eq_some_iff, decide_eq_true_eq] at h
    obtain ⟨hvalue, hbound⟩ := h
    simp only [Numeral.ofDecimal?, List.all_eq_true] at hvalue
    split at hvalue
    · next hdigits =>
      obtain ⟨hnil, hdigits⟩ := hdigits
      cases hvalue
      refine ⟨?_, hbound⟩
      rcases (isNumber_iff_of_isDigit hdigits).1 hnumber with rfl | ⟨_, hzero⟩
      · rfl
      · rw [ofNat, Numeral.decimal_ofDigitChars hdigits hnil hzero]
    · cases hvalue
  | _ => cases h

theorem ofNat_injective : Function.Injective ofNat := by
  intro m n h
  have hliteral : Numeral.decimal m = Numeral.decimal n := by
    simpa [ofNat] using h
  have hread : some m = some n := by
    rw [← Numeral.ofDecimal?_decimal m, hliteral, Numeral.ofDecimal?_decimal]
  exact Option.some.inj hread

theorem mem_itemLexemes {v : Json} {vs : List Json} (hv : v ∈ vs) :
    ∀ l ∈ v.lexemes, l ∈ itemLexemes vs := by
  have hfurther : ∀ {vs : List Json}, v ∈ vs → ∀ l ∈ v.lexemes, l ∈ furtherItems vs := by
    intro vs hv l hl
    induction hv with
    | head => simp [furtherItems, hl]
    | tail _ _ ih => simp [furtherItems, ih]
  intro l hl
  cases hv with
  | head => simp [itemLexemes, hl]
  | tail _ hv => simp [itemLexemes, hfurther hv l hl]

theorem mem_array_lexemes {l : Lexeme} {vs : List Json} (hl : l ∈ (array vs).lexemes) :
    l ∈ [.openArray, .comma, .closeArray] ∨ ∃ v ∈ vs, l ∈ v.lexemes := by
  have hfurther : ∀ {vs : List Json}, l ∈ furtherItems vs →
      l = .comma ∨ ∃ v ∈ vs, l ∈ v.lexemes := by
    intro vs hl
    induction vs with
    | nil => simp [furtherItems] at hl
    | cons v vs ih =>
      simp only [furtherItems, List.cons_append, List.mem_cons, List.mem_append] at hl ⊢
      grind
  cases vs with
  | nil =>
    simp only [lexemes, itemLexemes, List.cons_append, List.nil_append] at hl
    grind
  | cons v vs =>
    simp only [lexemes, itemLexemes, List.cons_append, List.mem_cons, List.mem_append] at hl ⊢
    grind

theorem sound_of_mem_array {v : Json} {vs : List Json} (h : ∀ l ∈ (array vs).lexemes, l.Sound)
    (hv : v ∈ vs) : ∀ l ∈ v.lexemes, l.Sound := by
  intro l hl
  apply h
  simp [lexemes, mem_itemLexemes hv l hl]

theorem lexemes?_closeArray : lexemes? [']'] = some [.closeArray] := by
  rw [lexemes?_punctuation rfl, lexemes?]
  rfl

theorem renderItems_eq_intercalate (vs : List Json) :
    renderItems vs = [','].intercalate (vs.map render) := by
  induction vs with
  | nil => rfl
  | cons v vs ih =>
    cases vs with
    | nil => simp [renderItems]
    | cons w vs => simp [renderItems, ih, List.intercalate_cons_cons]

theorem lexemes?_ofNat (n : Nat) {rest : Text} (hrest : ∀ c ∈ rest.head?, isNumberChar c = false) :
    lexemes? (Numeral.decimal n ++ rest) = (lexemes? rest).map (.scalar (ofNat n) :: ·) :=
  lexemes?_number (isNumber_decimal n) Numeral.isDigit_of_mem_decimal hrest

end Json

namespace Image

open Json Numeral

def pair (p : Nat × Nat) : Json := .array [.ofNat p.1, .ofNat p.2]

def pairText (p : Nat × Nat) : Text := '[' :: decimal p.1 ++ ',' :: decimal p.2 ++ [']']

/-- The pairs in brackets, in decimal numbers and without a space. -/
def pairsText (ps : List (Nat × Nat)) : Text := '[' :: [','].intercalate (ps.map pairText) ++ [']']

def Entry.numbers (e : Entry) : Nat × Nat := (e.address.toNat, e.byte.toNat)

theorem pair_injective : Function.Injective pair := by
  intro p q h
  simp only [pair, Json.array.injEq, List.cons.injEq, and_true] at h
  exact Prod.ext (ofNat_injective h.1) (ofNat_injective h.2)

theorem toJson_eq (image : Image) : image.toJson = .array ((image.map Entry.numbers).map pair) := by
  rw [toJson, List.map_map]
  rfl

theorem render_pair (p : Nat × Nat) : (pair p).render = pairText p := by
  simp [pair, pairText, ofNat, Json.render, renderItems]

theorem render_array_pair (ps : List (Nat × Nat)) :
    (Json.array (ps.map pair)).render = pairsText ps := by
  have hpairs : (ps.map pair).map Json.render = ps.map pairText := by
    simp [Function.comp_def, render_pair]
  rw [Json.render, renderItems_eq_intercalate, hpairs, pairsText]

theorem lexemes?_pair (p : Nat × Nat) (rest : Text) :
    lexemes? (pairText p ++ rest) = (lexemes? rest).map ((pair p).lexemes ++ ·) := by
  have hcomma (t : Text) : ∀ c ∈ (',' :: t).head?, isNumberChar c = false := by simp [isNumberChar]
  have hclose (t : Text) : ∀ c ∈ (']' :: t).head?, isNumberChar c = false := by simp [isNumberChar]
  have htext : pairText p ++ rest =
      '[' :: (decimal p.1 ++ ',' :: (decimal p.2 ++ ']' :: rest)) := by
    simp [pairText]
  have hlexemes : (pair p).lexemes =
      [.openArray, .scalar (.ofNat p.1), .comma, .scalar (.ofNat p.2), .closeArray] := by
    simp [pair, ofNat, lexemes, itemLexemes, furtherItems]
  rw [htext, hlexemes, lexemes?_punctuation rfl, lexemes?_ofNat _ (hcomma _),
    lexemes?_punctuation rfl, lexemes?_ofNat _ (hclose _), lexemes?_punctuation rfl]
  simp [Function.comp_def]

theorem lexemes?_furtherItems (ps : List (Nat × Nat)) (rest : Text) :
    lexemes? ((furtherItems (ps.map pair)).flatMap Lexeme.text ++ rest) =
      (lexemes? rest).map (furtherItems (ps.map pair) ++ ·) := by
  induction ps with
  | nil => simp [furtherItems]
  | cons p ps ih =>
    have htext : (furtherItems ((p :: ps).map pair)).flatMap Lexeme.text ++ rest =
        ',' :: (pairText p ++ ((furtherItems (ps.map pair)).flatMap Lexeme.text ++ rest)) := by
      rw [← render_pair, render_eq]
      simp [furtherItems, Lexeme.text]
    rw [htext, lexemes?_punctuation rfl, lexemes?_pair, ih]
    simp [furtherItems, Function.comp_def]

/-- Any list of pairs is a document, in range or not. -/
theorem parse?_pairsText (ps : List (Nat × Nat)) :
    Json.parse? (pairsText ps) = some (.array (ps.map pair)) := by
  rw [parse?_eq_some_iff, ← render_array_pair, render_eq]
  cases ps with
  | nil =>
    have htext : ((Json.array ([].map pair)).lexemes).flatMap Lexeme.text = ['[', ']'] := by
      simp [lexemes, itemLexemes, Lexeme.text]
    rw [htext, lexemes?_punctuation rfl, lexemes?_closeArray]
    simp [lexemes, itemLexemes]
  | cons p ps =>
    have htext : ((Json.array ((p :: ps).map pair)).lexemes).flatMap Lexeme.text =
        '[' :: (pairText p ++ ((furtherItems (ps.map pair)).flatMap Lexeme.text ++ [']'])) := by
      rw [← render_pair, render_eq]
      simp [lexemes, itemLexemes, Lexeme.text]
    rw [htext, lexemes?_punctuation rfl, lexemes?_pair, lexemes?_furtherItems, lexemes?_closeArray]
    simp [lexemes, itemLexemes]

theorem Entry.eq_toJson_of_ofJson? {v : Json} {e : Entry} (hv : ∀ l ∈ v.lexemes, l.Sound)
    (h : Entry.ofJson? v = some e) : v = e.toJson := by
  unfold Entry.ofJson? at h
  split at h
  · next address byte =>
    simp only [Option.bind_eq_bind, Option.bind_eq_some_iff, Option.pure_def,
      Option.some.injEq] at h
    obtain ⟨m, hm, n, hn, rfl⟩ := h
    obtain ⟨rfl, hlt⟩ := eq_ofNat_of_natBelow? (sound_of_mem_array hv (by simp)) hm
    have haddress : m % 65536 = m := Nat.mod_eq_of_lt hlt
    obtain ⟨rfl, hlt⟩ := eq_ofNat_of_natBelow? (sound_of_mem_array hv (by simp)) hn
    have hbyte : n % 256 = n := Nat.mod_eq_of_lt hlt
    simp [toJson, haddress, hbyte]
  · cases h

theorem eq_map_toJson_of_mapM {vs : List Json} {image : Image}
    (hvs : ∀ v ∈ vs, ∀ l ∈ v.lexemes, l.Sound) (h : vs.mapM Entry.ofJson? = some image) :
    vs = image.map Entry.toJson := by
  induction vs generalizing image with
  | nil =>
    cases h
    rfl
  | cons v vs ih =>
    obtain ⟨hv, hvs⟩ := List.forall_mem_cons.1 hvs
    rw [List.mapM_cons] at h
    obtain ⟨e, he, h⟩ := Option.bind_eq_some_iff.1 h
    obtain ⟨es, hes, h⟩ := Option.bind_eq_some_iff.1 h
    cases h
    rw [List.map_cons, ← Entry.eq_toJson_of_ofJson? hv he, ← ih hvs hes]

/-- A document that is read as an image is the one that the image is written as. -/
theorem eq_toJson_of_ofJson? {v : Json} {image : Image} (hv : ∀ l ∈ v.lexemes, l.Sound)
    (h : ofJson? v = some image) : v = image.toJson := by
  cases v with
  | array items =>
    have hitems : ∀ w ∈ items, ∀ l ∈ w.lexemes, l.Sound := fun _ => sound_of_mem_array hv
    exact congrArg Json.array (eq_map_toJson_of_mapM hitems h)
  | _ => cases h

theorem parse?_pairsText_iff {ps : List (Nat × Nat)} {image : Image} :
    parse? (pairsText ps) = some image ↔ image.map Entry.numbers = ps := by
  have hdocument := parse?_pairsText ps
  rw [parse?, hdocument]
  constructor
  · intro h
    have hwritten := eq_toJson_of_ofJson? (sound_of_parse? hdocument) h
    rw [toJson_eq, Json.array.injEq] at hwritten
    exact (List.map_injective_iff.2 pair_injective hwritten).symm
  · rintro rfl
    rw [← toJson_eq]
    exact ofJson?_toJson image

theorem exists_map_numbers_iff {ps : List (Nat × Nat)} :
    (∃ image : Image, image.map Entry.numbers = ps) ↔ ∀ p ∈ ps, p.1 ≤ 65535 ∧ p.2 ≤ 255 := by
  constructor
  · rintro ⟨image, rfl⟩ p hp
    obtain ⟨e, -, rfl⟩ := List.mem_map.1 hp
    have haddress := e.address.toNat_lt
    have hbyte := e.byte.toNat_lt
    exact ⟨Nat.le_of_lt_succ haddress, Nat.le_of_lt_succ hbyte⟩
  · intro h
    refine ⟨ps.map fun p => ⟨.ofNat p.1, .ofNat p.2⟩, ?_⟩
    rw [List.map_map]
    conv_rhs => rw [← List.map_id ps]
    apply List.map_congr_left
    intro p hp
    obtain ⟨haddress, hbyte⟩ := h p hp
    have haddress : p.1 % 65536 = p.1 := Nat.mod_eq_of_lt (by omega)
    have hbyte : p.2 % 256 = p.2 := Nat.mod_eq_of_lt (by omega)
    simp [Entry.numbers, haddress, hbyte]

theorem string_not_mem_lexemes (image : Image) :
    ∀ units, .scalar (.string units) ∉ image.toJson.lexemes := by
  intro units hmem
  rcases mem_array_lexemes hmem with hmem | ⟨v, hv, hmem⟩
  · simp at hmem
  · obtain ⟨e, -, rfl⟩ := List.mem_map.1 hv
    simp [Entry.toJson, ofNat, lexemes, itemLexemes, furtherItems] at hmem

theorem parse?_render (image : Image) : parse? image.render = some image := by
  rw [render, toJson_eq, render_array_pair, parse?_pairsText_iff]

theorem filter_isSpace_of_parse? {t : Text} {image : Image} (h : parse? t = some image) :
    t.filter (!isSpace ·) = image.render := by
  obtain ⟨v, hv, h⟩ := Option.bind_eq_some_iff.1 h
  obtain rfl := eq_toJson_of_ofJson? (sound_of_parse? hv) h
  have hcut := cut_of_lexemes? (parse?_eq_some_iff.1 hv)
  rw [render, render_eq]
  exact hcut.filter_isSpace (string_not_mem_lexemes image)

theorem isSpace_of_mem_render (image : Image) : ∀ c ∈ image.render, isSpace c = false := by
  intro c hc
  have hfilter := filter_isSpace_of_parse? (parse?_render image)
  simpa using List.filter_eq_self.1 hfilter c hc

/-- What an image is written as is its pairs in decimal numbers and without a space. It is read back
as the image, any other text that is read as the image differs from it by spaces alone, two images
are never written alike, and of the lists of pairs exactly those with addresses and bytes in range
are read. -/
theorem render_canonical (image : Image) :
    image.render = pairsText (image.map Entry.numbers) ∧
    (∀ c ∈ image.render, isSpace c = false) ∧
    parse? image.render = some image ∧
    (∀ t, parse? t = some image → t.filter (!isSpace ·) = image.render) ∧
    (∀ other : Image, other.render = image.render → other = image) ∧
    ∀ ps, (parse? (pairsText ps)).isSome ↔ ∀ p ∈ ps, p.1 ≤ 65535 ∧ p.2 ≤ 255 := by
  refine ⟨?_, isSpace_of_mem_render image, parse?_render image, ?_, ?_, ?_⟩
  · rw [render, toJson_eq, render_array_pair]
  · intro t
    exact filter_isSpace_of_parse?
  · intro other hrender
    have hread : some other = some image := by
      rw [← parse?_render other, hrender, parse?_render image]
    exact Option.some.inj hread
  · intro ps
    rw [← exists_map_numbers_iff, Option.isSome_iff_exists]
    simp only [parse?_pairsText_iff]

end Image

end Octet
