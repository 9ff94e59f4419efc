import Octet.Proofs.Assembly.Piece

/-! # The patterns as languages

Each pattern is a set of texts, said by the characters that may stand in them. No text is in two of
these sets, except that the letters from `A` to `F` are digits too. So the order in which the patterns
are tried decides about such texts only.
-/

namespace Octet

namespace Pattern

def Between (first last c : Char) : Prop := first ≤ c ∧ c ≤ last

def IsLetter (c : Char) : Prop := Between 'A' 'Z' c ∨ Between 'a' 'z' c

def InName (c : Char) : Prop := IsLetter c ∨ c = '_' ∨ c = '-'

def InLabel (c : Char) : Prop := InName c ∨ Between '0' '9' c

def IsHexDigit (c : Char) : Prop := Between '0' '9' c ∨ Between 'A' 'F' c ∨ Between 'a' 'f' c

/-- A text that is not empty and has characters of one class only. -/
def Word (p : Char → Prop) (t : Text) : Prop := t ≠ [] ∧ ∀ c ∈ t, p c

variable {c : Char} {t : Text}

theorem isUpper_iff : c.isUpper = true ↔ Between 'A' 'Z' c := decide_eq_true_iff

theorem isLower_iff : c.isLower = true ↔ Between 'a' 'z' c :=
  Bool.and_eq_true_iff.trans (and_congr decide_eq_true_iff decide_eq_true_iff)

theorem isDigit_iff : c.isDigit = true ↔ Between '0' '9' c :=
  Bool.and_eq_true_iff.trans (and_congr decide_eq_true_iff decide_eq_true_iff)

theorem isAlpha_iff : c.isAlpha = true ↔ IsLetter c :=
  Bool.or_eq_true_iff.trans (or_congr isUpper_iff isLower_iff)

theorem isNameChar_iff : isNameChar c = true ↔ InName c := by
  simp only [isNameChar, Bool.or_eq_true, beq_iff_eq, isAlpha_iff, InName, or_assoc]

theorem isLabelChar_iff : isLabelChar c = true ↔ InLabel c := by
  rw [isLabelChar, Bool.or_eq_true, isNameChar_iff, isDigit_iff, InLabel]

theorem Between.sub_lt {first last : Char} {n : Nat} (h : Between first last c)
    (hn : last.toNat - first.toNat < n) : c.toNat - first.toNat < n := by
  have hc : c.toNat ≤ last.toNat := h.2
  exact Nat.lt_of_le_of_lt (Nat.sub_le_sub_right hc _) hn

theorem isSome_digit?_iff : (Numeral.digit? 16 c).isSome = true ↔ IsHexDigit c := by
  simp only [Numeral.digit?]
  split
  · next h =>
    have hworth : c.toNat - '0'.toNat < 16 := Between.sub_lt h (by decide)
    exact iff_of_true (by simpa using hworth) (Or.inl h)
  · next h0 =>
    split
    · next h =>
      have hworth : c.toNat - 'a'.toNat + 10 < 16 :=
        Nat.add_lt_add_right (Between.sub_lt h (by decide : _ < 6)) 10
      exact iff_of_true (by simpa using hworth) (Or.inr (Or.inr h))
    · next ha =>
      split
      · next h =>
        have hworth : c.toNat - 'A'.toNat + 10 < 16 :=
          Nat.add_lt_add_right (Between.sub_lt h (by decide : _ < 6)) 10
        exact iff_of_true (by simpa using hworth) (Or.inr (Or.inl h))
      · next hA =>
        refine iff_of_false (by simp) ?_
        rintro (h | h | h)
        · exact h0 h
        · exact hA h
        · exact ha h

theorem word_iff {test : Char → Bool} {p : Char → Prop} (h : ∀ {c}, test c = true ↔ p c) :
    (!t.isEmpty && t.all test) = true ↔ Word p t := by
  simp only [Bool.and_eq_true, Bool.not_eq_true', List.isEmpty_eq_false_iff, List.all_eq_true, h, Word]

theorem isMnemonic_iff : isMnemonic t = true ↔ Word (Between 'A' 'Z') t := word_iff isUpper_iff

theorem isName_iff : isName t = true ↔ Word InName t := word_iff isNameChar_iff

theorem isLabelName_iff : isLabelName t = true ↔ Word InLabel t := word_iff isLabelChar_iff

theorem isHexDigits_iff : isHexDigits t = true ↔ Word IsHexDigit t := word_iff isSome_digit?_iff

/-- A text fits the pattern of a kind. -/
inductive Fits : TokenKind → Text → Prop
  | instruction {t : Text} (h : Word (Between 'A' 'Z') t) : Fits .instruction t
  | address {name : Text} (h : Word InName name) : Fits .address ('@' :: name)
  | addressByte (side : Half) {name : Text} (h : Word InName name) :
    Fits (.addressByte side) ('@' :: (name ++ side.suffix))
  | label {name : Text} (h : Word InLabel name) : Fits .label (name ++ [':'])
  | digits {t : Text} (h : Word IsHexDigit t) : Fits .byteLiteral t
  | marked {mark : Char} {digits : Text} (hmark : mark = 'b' ∨ mark = 'x')
    (h : Word IsHexDigit digits) : Fits .byteLiteral ('0' :: mark :: digits)

/-- The texts that are mnemonics by their letters and numbers by their digits. -/
abbrev IsAmbiguous (t : Text) : Prop := Word (Between 'A' 'F') t

/-- The test for the pattern of a kind. -/
def fits : TokenKind → Text → Bool
  | .instruction, t => isMnemonic t
  | .address, t => (address? t).isSome
  | .addressByte side, t => half? t == some side
  | .label, t => (label? t).isSome
  | .byteLiteral, t => isByteLiteral t
  | .directive, _ | .invalid, _ => false

theorem isSome_address?_iff : (address? t).isSome = true ↔ Fits .address t := by
  constructor
  · intro h
    unfold address? at h
    split at h
    · split at h
      · next hname => exact .address (isName_iff.1 hname)
      · cases h
    · cases h
  · rintro ⟨⟩
    next name h => simp [address?, isName_iff.2 h]

theorem half?_eq_some_iff {side : Half} : half? t = some side ↔ Fits (.addressByte side) t := by
  constructor
  · intro h
    unfold half? at h
    split at h
    · split at h
      · next name _ hd =>
        obtain rfl := Text.eq_append_of_dropSuffix? hd
        split at h <;> cases h
        next hname => exact .addressByte .high (isName_iff.1 hname)
      · next name _ hd =>
        obtain rfl := Text.eq_append_of_dropSuffix? hd
        split at h <;> cases h
        next hname => exact .addressByte .low (isName_iff.1 hname)
      · cases h
    · cases h
  · rintro ⟨⟩
    next name h =>
      cases side with
      | high => simp [half?, Text.dropSuffix?_append, isName_iff.2 h]
      | low => simp [half?, dropSuffix?_low_high, Text.dropSuffix?_append, isName_iff.2 h]

theorem isSome_label?_iff : (label? t).isSome = true ↔ Fits .label t := by
  constructor
  · intro h
    unfold label? at h
    split at h
    · next name hd =>
      obtain rfl := Text.eq_append_of_dropSuffix? hd
      split at h
      · next hname => exact .label (isLabelName_iff.1 hname)
      · cases h
    · cases h
  · rintro ⟨⟩
    next name h => simp [label?, Text.dropSuffix?_append, isLabelName_iff.2 h]

theorem isByteLiteral_iff : isByteLiteral t = true ↔ Fits .byteLiteral t := by
  constructor
  · intro h
    simp only [isByteLiteral, Bool.or_eq_true] at h
    obtain h | h := h
    · exact .digits (isHexDigits_iff.1 h)
    · split at h
      · exact .marked (.inl rfl) (isHexDigits_iff.1 h)
      · exact .marked (.inr rfl) (isHexDigits_iff.1 h)
      · cases h
  · rintro (_ | _ | _ | _ | h | ⟨hmark, h⟩)
    · simp only [isByteLiteral, isHexDigits_iff.2 h, Bool.true_or]
    · rcases hmark with rfl | rfl <;> simp [isByteLiteral, isHexDigits_iff.2 h]

theorem fits_iff {k : TokenKind} : fits k t = true ↔ Fits k t := by
  cases k with
  | instruction => exact isMnemonic_iff.trans ⟨.instruction, fun | .instruction h => h⟩
  | address => exact isSome_address?_iff
  | addressByte side => exact beq_iff_eq.trans half?_eq_some_iff
  | label => exact isSome_label?_iff
  | byteLiteral => exact isByteLiteral_iff
  | directive | invalid => exact ⟨nofun, nofun⟩

instance (k : TokenKind) (t : Text) : Decidable (Fits k t) := decidable_of_iff _ fits_iff

theorem isAmbiguous_iff : IsAmbiguous t ↔ isMnemonic t = true ∧ isByteLiteral t = true := by
  constructor
  · rintro ⟨hne, h⟩
    have hupper (c) (hc : c ∈ t) : Between 'A' 'Z' c :=
      ⟨(h c hc).1, Char.le_trans (h c hc).2 (by decide)⟩
    have hhex (c) (hc : c ∈ t) : IsHexDigit c := .inr (.inl (h c hc))
    exact ⟨isMnemonic_iff.2 ⟨hne, hupper⟩, isByteLiteral_iff.2 (.digits ⟨hne, hhex⟩)⟩
  · rintro ⟨hm, hb⟩
    obtain ⟨hne, hupper⟩ := isMnemonic_iff.1 hm
    refine ⟨hne, fun c hc => ?_⟩
    have hc' := hupper c hc
    rcases digit_of_isByteLiteral hb hc with hd | rfl
    · rcases isSome_digit?_iff.1 hd with h | h | h
      · exact absurd (Char.le_trans hc'.1 h.2) (by decide)
      · exact h
      · exact absurd (Char.le_trans h.1 hc'.2) (by decide)
    · exact absurd hc'.2 (by decide)

theorem classify_address {name : Text} (h : isName name = true) :
    classify ('@' :: name) = (.address, name) := by
  have hnone (side : Half) : Text.dropSuffix? name side.suffix = none := by
    cases hd : Text.dropSuffix? name side.suffix with
    | none => rfl
    | some r =>
      obtain rfl := Text.eq_append_of_dropSuffix? hd
      rw [isName_append_suffix] at h
      cases h
  simp [classify_at, hnone, h]

theorem classify_label {name : Text} (h : isLabelName name = true) :
    classify (name ++ [':']) = (.label, name) := by
  have hne : ∀ rest, name ++ [':'] ≠ '@' :: rest := by
    intro rest he
    cases name with
    | nil => cases he
    | cons c name =>
      obtain ⟨rfl, -⟩ := List.cons.inj he
      rw [isLabelName_at] at h
      cases h
  rw [classify_of_ne_at hne (isMnemonic_append_colon name), Text.dropSuffix?_append]
  simp [h]

theorem classify_byteLiteral (h : isByteLiteral t = true) (hm : isMnemonic t = false) :
    classify t = (.byteLiteral, t) := by
  have hne : ∀ rest, t ≠ '@' :: rest := by
    rintro rest rfl
    rw [isByteLiteral_at] at h
    cases h
  have hnone : t.dropSuffix? [':'] = none := by
    cases hd : t.dropSuffix? [':'] with
    | none => rfl
    | some r =>
      obtain rfl := Text.eq_append_of_dropSuffix? hd
      rw [isByteLiteral_append_colon] at h
      cases h
  simp [classify_of_ne_at hne hm, hnone, h]

/-- The pattern that a text fits is its kind, unless it is a number that is a mnemonic too. -/
theorem classify_of_fits {k : TokenKind} (h : Fits k t) :
    (classify t).1 = k ∨ IsAmbiguous t ∧ k = .byteLiteral := by
  have hliteral : isByteLiteral t = true →
      (classify t).1 = .byteLiteral ∨ IsAmbiguous t ∧ TokenKind.byteLiteral = .byteLiteral := by
    intro hb
    cases hm : isMnemonic t with
    | true => exact .inr ⟨isAmbiguous_iff.2 ⟨hm, hb⟩, rfl⟩
    | false => exact .inl (by rw [classify_byteLiteral hb hm])
  cases h with
  | instruction h => exact .inl (by rw [classify_of_isMnemonic (isMnemonic_iff.2 h)])
  | address h => exact .inl (by rw [classify_address (isName_iff.2 h)])
  | addressByte side h => exact .inl (by rw [Token.classify_half (isName_iff.2 h)])
  | label h => exact .inl (by rw [classify_label (isLabelName_iff.2 h)])
  | digits h => exact hliteral (isByteLiteral_iff.2 (.digits h))
  | marked hmark h => exact hliteral (isByteLiteral_iff.2 (.marked hmark h))

theorem of_isAmbiguous (h : IsAmbiguous t) :
    Fits .instruction t ∧ Fits .byteLiteral t ∧ (classify t).1 = .instruction := by
  obtain ⟨hm, hb⟩ := isAmbiguous_iff.1 h
  exact ⟨.instruction (isMnemonic_iff.1 hm), isByteLiteral_iff.1 hb, by rw [classify_of_isMnemonic hm]⟩

theorem eq_or_isAmbiguous {k l : TokenKind} (hk : Fits k t) (hl : Fits l t) (hne : k ≠ l) :
    IsAmbiguous t ∧
      (k = .instruction ∧ l = .byteLiteral ∨ k = .byteLiteral ∧ l = .instruction) := by
  obtain hk' | ⟨hamb, rfl⟩ := classify_of_fits hk
  · obtain hl' | ⟨hamb, rfl⟩ := classify_of_fits hl
    · exact absurd (hk'.symm.trans hl') hne
    · exact ⟨hamb, .inl ⟨hk'.symm.trans (of_isAmbiguous hamb).2.2, rfl⟩⟩
  · obtain hl' | ⟨-, rfl⟩ := classify_of_fits hl
    · exact ⟨hamb, .inr ⟨rfl, hl'.symm.trans (of_isAmbiguous hamb).2.2⟩⟩
    · exact absurd rfl hne

theorem fits_classify (h : (classify t).1 ≠ .invalid) : Fits (classify t).1 t := by
  rcases pieceForm t with ⟨hm, hk, _⟩ | ⟨name, hn, rfl, hk, _⟩ | ⟨side, name, hn, rfl, hk, _⟩ |
    ⟨name, hn, rfl, hk, _⟩ | ⟨hb, hk, _⟩ | ⟨_, hk, _⟩
  · rw [hk]
    exact .instruction (isMnemonic_iff.1 hm)
  · rw [hk]
    exact .address (isName_iff.1 hn)
  · rw [hk]
    exact .addressByte side (isName_iff.1 hn)
  · rw [hk]
    exact .label (isLabelName_iff.1 hn)
  · rw [hk]
    exact isByteLiteral_iff.1 hb
  · exact absurd (by rw [hk]) h

theorem classify_eq_invalid_iff : (classify t).1 = .invalid ↔ ∀ k, ¬Fits k t := by
  constructor
  · intro h k hfits
    obtain hk | ⟨hamb, -⟩ := classify_of_fits hfits
    · rw [h] at hk
      subst hk
      cases hfits
    · rw [(of_isAmbiguous hamb).2.2] at h
      cases h
  · intro hnone
    exact Classical.byContradiction fun h => hnone _ (fits_classify h)

/-- The kinds of the patterns, in the order in which these are tried. -/
def ranking : List TokenKind :=
  [.instruction, .address, .addressByte .high, .addressByte .low, .label, .byteLiteral]

/-- The kind of the first pattern that a text fits, if the patterns are tried in this order. -/
def firstFit (order : List TokenKind) (t : Text) : TokenKind :=
  (order.find? fun k => decide (Fits k t)).getD .invalid

theorem mem_ranking {k : TokenKind} (h : Fits k t) : k ∈ ranking := by
  cases h with
  | addressByte side => cases side <;> simp [ranking]
  | _ => simp [ranking]

theorem firstFit_of_perm {order : List TokenKind} (horder : order.Perm ranking)
    (h : ¬IsAmbiguous t) : firstFit order t = (classify t).1 := by
  rw [firstFit]
  cases hfind : order.find? fun k => decide (Fits k t) with
  | some k =>
    have hk : Fits k t := by simpa using List.find?_some hfind
    exact ((classify_of_fits hk).resolve_right fun hamb => h hamb.1).symm
  | none =>
    have hnone : ∀ k, ¬Fits k t := by
      intro k hk
      have := List.find?_eq_none.1 hfind k (horder.mem_iff.2 (mem_ranking hk))
      simp [hk] at this
    exact (classify_eq_invalid_iff.2 hnone).symm

theorem firstFit_ranking (t : Text) : firstFit ranking t = (classify t).1 := by
  by_cases h : IsAmbiguous t
  · obtain ⟨hfits, -, hk⟩ := of_isAmbiguous h
    simp [firstFit, ranking, hfits, hk]
  · exact firstFit_of_perm .rfl h

end Pattern

theorem Token.half_ofPiece (line : Nat) {t : Text} (h : (ofPiece line t).kind = .address)
    (side : Half) : ((ofPiece line t).half side).kind = .addressByte side ∧
      ((ofPiece line t).half side).isErrored = false ∧ ((ofPiece line t).half side).line = line ∧
      ((ofPiece line t).half side).referencedLabel? = some (ofPiece line t).output := by
  rw [kind_ofPiece] at h
  obtain ⟨name, hname, rfl⟩ := exists_name_of_classify h
  have htext : (ofPiece line ('@' :: name)).text = '@' :: name := text_ofPiece ..
  have hkind := kind_half hname htext side
  have hhalf : ((ofPiece line ('@' :: name)).half side).text = '@' :: (name ++ side.suffix) := by
    rw [text_half, htext, List.cons_append]
  refine ⟨hkind, isErrored_half hname htext side, by rw [line_half, line_ofPiece], ?_⟩
  rw [referencedLabel?_of_text hkind hhalf, output_ofPiece, Pattern.classify_address hname]

/-- No text fits two patterns, except that a word over the letters from `A` to `F` fits those of
instructions and of literals, and is an instruction. A piece has the kind of the first pattern in the
ranking that it fits, and, such words apart, of the only one, in whatever order the patterns are tried.
It is invalid, and errored, exactly if it fits none. The halves of an address are address bytes on its
line without an error, and refer to the name in the address. -/
theorem classification_unambiguous (line : Nat) (t : Text) :
    (∀ k l, Pattern.Fits k t → Pattern.Fits l t → k ≠ l → Pattern.IsAmbiguous t ∧
      (k = .instruction ∧ l = .byteLiteral ∨ k = .byteLiteral ∧ l = .instruction)) ∧
    (Pattern.IsAmbiguous t → Pattern.Fits .instruction t ∧ Pattern.Fits .byteLiteral t ∧
      (Token.ofPiece line t).kind = .instruction) ∧
    Pattern.firstFit Pattern.ranking t = (Token.ofPiece line t).kind ∧
    (¬Pattern.IsAmbiguous t → (∀ k, Pattern.Fits k t → (Token.ofPiece line t).kind = k) ∧
      ∀ order, order.Perm Pattern.ranking →
        Pattern.firstFit order t = (Token.ofPiece line t).kind) ∧
    ((Token.ofPiece line t).kind = .invalid ↔ ∀ k, ¬Pattern.Fits k t) ∧
    ((Token.ofPiece line t).isErrored = true ↔ ∀ k, ¬Pattern.Fits k t) ∧
    ((Token.ofPiece line t).kind = .address → ∀ side,
      ((Token.ofPiece line t).half side).kind = .addressByte side ∧
      ((Token.ofPiece line t).half side).isErrored = false ∧
      ((Token.ofPiece line t).half side).line = line ∧
      ((Token.ofPiece line t).half side).referencedLabel? =
        some (Token.ofPiece line t).output) := by
  have hinvalid : (Token.ofPiece line t).kind = .invalid ↔ ∀ k, ¬Pattern.Fits k t := by
    rw [Token.kind_ofPiece, Pattern.classify_eq_invalid_iff]
  have herrored : (Token.ofPiece line t).isErrored = true ↔ ∀ k, ¬Pattern.Fits k t := by
    rw [Token.isErrored_ofPiece, decide_eq_true_iff, Pattern.classify_eq_invalid_iff]
  refine ⟨fun k l => Pattern.eq_or_isAmbiguous, fun hamb => ?_, ?_,
    fun hamb => ⟨fun k hk => ?_, ?_⟩, hinvalid, herrored, Token.half_ofPiece line⟩
  · rw [Token.kind_ofPiece]
    exact Pattern.of_isAmbiguous hamb
  · rw [Token.kind_ofPiece]
    exact Pattern.firstFit_ranking t
  · rw [Token.kind_ofPiece]
    exact (Pattern.classify_of_fits hk).resolve_right fun h => hamb h.1
  · intro order horder
    rw [Token.kind_ofPiece]
    exact Pattern.firstFit_of_perm horder hamb

/-- Of the words over those letters the order decides. -/
example : Pattern.firstFit Pattern.ranking ['F', 'F'] = .instruction ∧
    Pattern.firstFit Pattern.ranking.reverse ['F', 'F'] = .byteLiteral := by decide

end Octet
