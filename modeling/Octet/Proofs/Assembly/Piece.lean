import Octet.Proofs.Assembly.Program

/-! # Pieces as tokens and as items

Which pattern a piece fits is decided by its first and its last characters, so that no two patterns
compete except a mnemonic and a literal. From this follows what the tokens of a piece, its address
split, say as items.
-/

namespace Octet

namespace Pattern

theorem isMnemonic_at (rest : Text) : isMnemonic ('@' :: rest) = false := by
  simp [isMnemonic, show Char.isUpper '@' = false from rfl]

theorem isMnemonic_append_colon (name : Text) : isMnemonic (name ++ [':']) = false := by
  simp [isMnemonic, show Char.isUpper ':' = false from rfl]

theorem isName_append_suffix (name : Text) (h : Half) : isName (name ++ h.suffix) = false := by
  have hd : isNameChar '.' = false := rfl
  cases h <;> simp [isName, Half.suffix, hd]

theorem dropSuffix?_low_high (name : Text) :
    Text.dropSuffix? (name ++ Half.low.suffix) Half.high.suffix = none := by
  cases hd : Text.dropSuffix? (name ++ Half.low.suffix) Half.high.suffix with
  | none => rfl
  | some r =>
    have he := Text.eq_append_of_dropSuffix? hd
    have hs := List.append_inj_right' he rfl
    simp [Half.suffix] at hs

theorem isLabelName_at (rest : Text) : isLabelName ('@' :: rest) = false := by
  simp [isLabelName, show isLabelChar '@' = false from rfl]

theorem digit_of_isByteLiteral {t : Text} (h : isByteLiteral t = true) {c : Char} (hc : c ∈ t) :
    (Numeral.digit? 16 c).isSome = true ∨ c = 'x' := by
  have hex : ∀ {s : Text}, isHexDigits s = true → c ∈ s → (Numeral.digit? 16 c).isSome = true := by
    intro s hs hc
    simp only [isHexDigits, Bool.and_eq_true, List.all_eq_true] at hs
    exact hs.2 c hc
  simp only [isByteLiteral, Bool.or_eq_true] at h
  rcases h with h | h
  · exact Or.inl (hex h hc)
  · split at h
    · simp only [List.mem_cons] at hc
      rcases hc with rfl | rfl | hc
      · exact Or.inl rfl
      · exact Or.inl rfl
      · exact Or.inl (hex h hc)
    · simp only [List.mem_cons] at hc
      rcases hc with rfl | rfl | hc
      · exact Or.inl rfl
      · exact Or.inr rfl
      · exact Or.inl (hex h hc)
    · cases h

theorem isByteLiteral_at (rest : Text) : isByteLiteral ('@' :: rest) = false := by
  refine Bool.eq_false_iff.2 fun h => ?_
  have := digit_of_isByteLiteral h (c := '@') (by simp)
  exact absurd this (by decide)

theorem isByteLiteral_append_colon (name : Text) : isByteLiteral (name ++ [':']) = false := by
  refine Bool.eq_false_iff.2 fun h => ?_
  have := digit_of_isByteLiteral h (c := ':') (by simp)
  exact absurd this (by decide)

theorem address?_of_ne_at {t : Text} (h : ∀ rest, t ≠ '@' :: rest) : address? t = none := by
  simp only [address?]

theorem half?_of_ne_at {t : Text} (h : ∀ rest, t ≠ '@' :: rest) : half? t = none := by
  simp only [half?]

theorem label?_at (rest : Text) : label? ('@' :: rest) = none := by
  simp only [label?]
  cases h : Text.dropSuffix? ('@' :: rest) [':'] with
  | none => rfl
  | some name =>
    have he := Text.eq_append_of_dropSuffix? h
    cases name with
    | nil => simp at he
    | cons c name =>
      obtain ⟨rfl, -⟩ := List.cons.inj he
      simp [isLabelName_at]

theorem classify_of_isMnemonic {t : Text} (h : isMnemonic t = true) :
    classify t = (.instruction, t) := by
  simp [classify, h]

theorem classify_at (rest : Text) : classify ('@' :: rest) =
    match Text.dropSuffix? rest Half.high.suffix, Text.dropSuffix? rest Half.low.suffix with
    | some name, _ => if isName name then (.addressByte .high, rest) else (.invalid, '@' :: rest)
    | none, some name => if isName name then (.addressByte .low, rest) else (.invalid, '@' :: rest)
    | none, none => if isName rest then (.address, rest) else (.invalid, '@' :: rest) := by
  simp only [classify, isMnemonic_at, label?_at, isByteLiteral_at, Bool.false_eq_true, ↓reduceIte,
    address?, half?, List.drop_one, List.tail_cons]
  cases hh : Text.dropSuffix? rest Half.high.suffix with
  | some name =>
    obtain rfl := Text.eq_append_of_dropSuffix? hh
    rw [isName_append_suffix]
    cases h : isName name <;> simp [h]
  | none =>
    cases hl : Text.dropSuffix? rest Half.low.suffix with
    | some name =>
      obtain rfl := Text.eq_append_of_dropSuffix? hl
      rw [isName_append_suffix]
      cases h : isName name <;> simp [h]
    | none => cases isName rest <;> rfl

theorem classify_of_ne_at {t : Text} (h : ∀ rest, t ≠ '@' :: rest) (hm : isMnemonic t = false) :
    classify t =
      match t.dropSuffix? [':'] with
      | some name => if isLabelName name then (.label, name) else (.invalid, t)
      | none => if isByteLiteral t then (.byteLiteral, t) else (.invalid, t) := by
  simp only [classify, hm, address?_of_ne_at h, half?_of_ne_at h, Bool.false_eq_true, ↓reduceIte,
    label?]
  cases hd : t.dropSuffix? [':'] with
  | some name =>
    obtain rfl := Text.eq_append_of_dropSuffix? hd
    rw [isByteLiteral_append_colon]
    cases h : isLabelName name <;> simp [h]
  | none => rfl

end Pattern

/-- The forms that a piece can have, each with its kind and its items. -/
inductive PieceForm (t : Text) : Prop
  | mnemonic (h : Pattern.isMnemonic t = true) (hk : Pattern.classify t = (.instruction, t))
    (hi : Item.ofPiece? t = none)
  | address (name : Text) (h : Pattern.isName name = true) (ht : t = '@' :: name)
    (hk : Pattern.classify t = (.address, name))
    (hi : Item.ofPiece? t = some [.half .high name, .half .low name])
  | half (side : Half) (name : Text) (h : Pattern.isName name = true)
    (ht : t = '@' :: (name ++ side.suffix))
    (hk : Pattern.classify t = (.addressByte side, name ++ side.suffix))
    (hi : Item.ofPiece? t = some [.half side name])
  | label (name : Text) (h : Pattern.isLabelName name = true) (ht : t = name ++ [':'])
    (hk : Pattern.classify t = (.label, name)) (hi : Item.ofPiece? t = some [.label name])
  | literal (h : Pattern.isByteLiteral t = true) (hk : Pattern.classify t = (.byteLiteral, t))
    (hi : Item.ofPiece? t = some [.literal t])
  | invalid (h : Pattern.isMnemonic t = false) (hk : Pattern.classify t = (.invalid, t))
    (hi : Item.ofPiece? t = none)

theorem ofPiece?_at (rest : Text) : Item.ofPiece? ('@' :: rest) =
    match Text.dropSuffix? rest Half.high.suffix, Text.dropSuffix? rest Half.low.suffix with
    | some name, _ => if Pattern.isName name then some [.half .high name] else none
    | none, some name => if Pattern.isName name then some [.half .low name] else none
    | none, none => if Pattern.isName rest then some [.half .high rest, .half .low rest] else none :=
  rfl

theorem pieceForm_at (rest : Text) : PieceForm ('@' :: rest) := by
  have hk := Pattern.classify_at rest
  have hi := ofPiece?_at rest
  have hm := Pattern.isMnemonic_at rest
  cases hh : Text.dropSuffix? rest Half.high.suffix with
  | some name =>
    obtain rfl := Text.eq_append_of_dropSuffix? hh
    simp only [hh] at hk hi
    cases hn : Pattern.isName name with
    | true => exact .half .high name hn rfl (by simpa [hn] using hk) (by simpa [hn] using hi)
    | false => exact .invalid hm (by simpa [hn] using hk) (by simpa [hn] using hi)
  | none =>
    cases hl : Text.dropSuffix? rest Half.low.suffix with
    | some name =>
      obtain rfl := Text.eq_append_of_dropSuffix? hl
      simp only [hh, hl] at hk hi
      cases hn : Pattern.isName name with
      | true => exact .half .low name hn rfl (by simpa [hn] using hk) (by simpa [hn] using hi)
      | false => exact .invalid hm (by simpa [hn] using hk) (by simpa [hn] using hi)
    | none =>
      simp only [hh, hl] at hk hi
      cases hn : Pattern.isName rest with
      | true => exact .address rest hn rfl (by simpa [hn] using hk) (by simpa [hn] using hi)
      | false => exact .invalid hm (by simpa [hn] using hk) (by simpa [hn] using hi)

theorem ofPiece?_of_ne_at {t : Text} (h : ∀ rest, t ≠ '@' :: rest) : Item.ofPiece? t =
    match t.dropSuffix? [':'] with
    | some name => if Pattern.isLabelName name then some [.label name] else none
    | none =>
      if Pattern.isByteLiteral t && !Pattern.isMnemonic t then some [.literal t] else none := by
  unfold Item.ofPiece?
  split
  · next rest => exact absurd rfl (h rest)
  · rfl

theorem pieceForm (t : Text) : PieceForm t := by
  by_cases hat : ∃ rest, t = '@' :: rest
  · obtain ⟨rest, rfl⟩ := hat
    exact pieceForm_at rest
  have hne : ∀ rest, t ≠ '@' :: rest := fun rest he => hat ⟨rest, he⟩
  have hi := ofPiece?_of_ne_at hne
  cases hd : t.dropSuffix? [':'] with
  | some name =>
    obtain rfl := Text.eq_append_of_dropSuffix? hd
    have hm := Pattern.isMnemonic_append_colon name
    have hk := Pattern.classify_of_ne_at hne hm
    simp only [hd] at hk hi
    cases hn : Pattern.isLabelName name with
    | true => exact .label name hn rfl (by simpa [hn] using hk) (by simpa [hn] using hi)
    | false => exact .invalid hm (by simpa [hn] using hk) (by simpa [hn] using hi)
  | none =>
    simp only [hd] at hi
    cases hm : Pattern.isMnemonic t with
    | true => exact .mnemonic hm (Pattern.classify_of_isMnemonic hm) (by simpa [hm] using hi)
    | false =>
      have hk := Pattern.classify_of_ne_at hne hm
      simp only [hd] at hk
      cases hb : Pattern.isByteLiteral t with
      | true => exact .literal hb (by simpa [hb] using hk) (by simpa [hb, hm] using hi)
      | false => exact .invalid hm (by simpa [hb] using hk) (by simpa [hb] using hi)

theorem exists_name_of_classify {t : Text} (h : (Pattern.classify t).1 = .address) :
    ∃ name, Pattern.isName name = true ∧ t = '@' :: name := by
  rcases pieceForm t with ⟨_, hk, _⟩ | ⟨name, hn, ht, _, _⟩ | ⟨_, _, _, _, hk, _⟩ |
    ⟨_, _, _, hk, _⟩ | ⟨_, hk, _⟩ | ⟨_, hk, _⟩
  · simp [hk] at h
  · exact ⟨name, hn, ht⟩
  · simp [hk] at h
  · simp [hk] at h
  · simp [hk] at h
  · simp [hk] at h

theorem isByteLiteral_of_classify {t : Text} (h : (Pattern.classify t).1 = .byteLiteral) :
    Pattern.isByteLiteral t = true := by
  rcases pieceForm t with ⟨_, hk, _⟩ | ⟨_, _, _, hk, _⟩ | ⟨_, _, _, _, hk, _⟩ |
    ⟨_, _, _, hk, _⟩ | ⟨hb, _, _⟩ | ⟨_, hk, _⟩
  · simp [hk] at h
  · simp [hk] at h
  · simp [hk] at h
  · simp [hk] at h
  · exact hb
  · simp [hk] at h

theorem exists_half_of_classify {t : Text} {side : Half}
    (h : (Pattern.classify t).1 = .addressByte side) : ∃ name, t = '@' :: (name ++ side.suffix) := by
  rcases pieceForm t with ⟨_, hk, _⟩ | ⟨_, _, _, hk, _⟩ | ⟨side', name, _, ht, hk, _⟩ |
    ⟨_, _, _, hk, _⟩ | ⟨_, hk, _⟩ | ⟨_, hk, _⟩
  · simp [hk] at h
  · simp [hk] at h
  · obtain rfl : side' = side := by simpa [hk] using h
    exact ⟨name, ht⟩
  · simp [hk] at h
  · simp [hk] at h
  · simp [hk] at h

theorem classify_ne_directive (t : Text) : (Pattern.classify t).1 ≠ .directive := by
  rcases pieceForm t with ⟨_, hk, _⟩ | ⟨_, _, _, hk, _⟩ | ⟨_, _, _, _, hk, _⟩ |
    ⟨_, _, _, hk, _⟩ | ⟨_, hk, _⟩ | ⟨_, hk, _⟩
  all_goals simp [hk]

/-- No token is errored. -/
def Clean (ts : List Token) : Prop := ∀ t ∈ ts, t.isErrored = false

@[simp] theorem clean_nil : Clean [] := by simp [Clean]

@[simp] theorem clean_cons {t : Token} {ts : List Token} :
    Clean (t :: ts) ↔ t.isErrored = false ∧ Clean ts := by
  simp [Clean]

@[simp] theorem clean_append {ss ts : List Token} : Clean (ss ++ ts) ↔ Clean ss ∧ Clean ts := by
  simp [Clean, or_imp, forall_and]

namespace Token

/-- What a token says as an item, errors apart. -/
def item? (t : Token) : Option Item :=
  match t.kind with
  | .instruction => (Opcode.ofMnemonic? t.text).map .instruction
  | .addressByte side => some (.half side (t.referencedLabel?.getD []))
  | .label => some (.label t.output)
  | .byteLiteral => some (.literal t.text)
  | .directive => Item.skip? t.output
  | .address | .invalid => none

@[simp] theorem kind_ofPiece (line : Nat) (t : Text) :
    (ofPiece line t).kind = (Pattern.classify t).1 := by
  simp only [ofPiece]
  split <;> rfl

@[simp] theorem output_ofPiece (line : Nat) (t : Text) :
    (ofPiece line t).output = (Pattern.classify t).2 := by
  simp only [ofPiece]
  split <;> rfl

@[simp] theorem isErrored_ofPiece (line : Nat) (t : Text) :
    (ofPiece line t).isErrored = decide ((Pattern.classify t).1 = .invalid) := by
  simp only [ofPiece]
  split
  · next h => simp [h]
  · next h =>
    rw [isErrored_note]
    simp [h, isErrored, fresh]

theorem classify_half {name : Text} (h : Pattern.isName name = true) (side : Half) :
    Pattern.classify ('@' :: (name ++ side.suffix)) =
      (.addressByte side, name ++ side.suffix) := by
  rw [Pattern.classify_at]
  cases side with
  | high => simp [Text.dropSuffix?_append, h]
  | low => simp [Pattern.dropSuffix?_low_high, Text.dropSuffix?_append, h]

theorem referencedLabel?_of_text {t : Token} {side side' : Half} {name : Text}
    (hk : t.kind = .addressByte side) (ht : t.text = '@' :: (name ++ side'.suffix)) :
    t.referencedLabel? = some name := by
  have hs : Text.utf8Size side'.suffix = 2 := by cases side' <;> rfl
  simp [referencedLabel?, hk, ht, hs, Text.takeUtf8?_append]

variable {t : Token} {name : Text}

@[simp] theorem line_half (t : Token) (side : Half) : (t.half side).line = t.line := by
  simp [half, note, record]

@[simp] theorem text_half (t : Token) (side : Half) :
    (t.half side).text = t.text ++ side.suffix := by
  simp [half, note, record]

theorem kind_half (h : Pattern.isName name = true) (ht : t.text = '@' :: name) (side : Half) :
    (t.half side).kind = .addressByte side := by
  have hk : (t.half side).kind = (Pattern.classify (t.text ++ side.suffix)).1 := by
    simp [half, note, record]
  rw [hk, ht, List.cons_append, classify_half h]

theorem isErrored_half (h : Pattern.isName name = true) (ht : t.text = '@' :: name) (side : Half) :
    (t.half side).isErrored = false := by
  rw [half, isErrored_note, isErrored_ofPiece, ht, List.cons_append, classify_half h]
  rfl

theorem item?_half (h : Pattern.isName name = true) (ht : t.text = '@' :: name) (side : Half) :
    (t.half side).item? = some (.half side name) := by
  have hk := kind_half h ht side
  have htext : (t.half side).text = '@' :: (name ++ side.suffix) := by simp [ht]
  have hr := referencedLabel?_of_text hk htext
  simp [item?, hk, hr]

end Token

theorem splitAddresses_singleton (t : Token) :
    splitAddresses [t] = if t.splits then [t.half .high, t.half .low] else [t] := by
  simp [splitAddresses]

theorem tokens_of_ofPiece? {t : Text} {items : Program} (h : Item.ofPiece? t = some items)
    (line : Nat) :
    Clean (splitAddresses [.ofPiece line t]) ∧
      (splitAddresses [.ofPiece line t]).mapM Token.item? = some items ∧
      ∀ tok ∈ splitAddresses [.ofPiece line t], tok.kind ≠ .instruction := by
  rw [splitAddresses_singleton]
  rcases pieceForm t with ⟨_, hk, hi⟩ | ⟨name, hn, rfl, hk, hi⟩ | ⟨side, name, hn, rfl, hk, hi⟩ |
    ⟨name, hn, rfl, hk, hi⟩ | ⟨_, hk, hi⟩ | ⟨_, hk, hi⟩
  · rw [hi] at h
    cases h
  · rw [hi] at h
    cases h
    have ht : (Token.ofPiece line ('@' :: name)).text = '@' :: name := by simp
    simp [Token.splits, hk, Token.kind_half hn ht, Token.isErrored_half hn ht,
      Token.item?_half hn ht]
  · rw [hi] at h
    cases h
    have hkind : (Token.ofPiece line ('@' :: (name ++ side.suffix))).kind = .addressByte side := by
      simp [hk]
    have hr := Token.referencedLabel?_of_text hkind (Token.text_ofPiece line _)
    simp [Token.splits, Token.item?, hk, hr]
  · rw [hi] at h
    cases h
    simp [Token.splits, Token.item?, hk]
  · rw [hi] at h
    cases h
    simp [Token.splits, Token.item?, hk]
  · rw [hi] at h
    cases h

/-- A piece without items has one token, an instruction or an errored one. -/
theorem token_of_ofPiece?_eq_none {t : Text} (h : Item.ofPiece? t = none) (line : Nat) :
    splitAddresses [.ofPiece line t] = [.ofPiece line t] ∧
      ((Token.ofPiece line t).kind = .instruction ∨ (Token.ofPiece line t).isErrored = true) := by
  rw [splitAddresses_singleton]
  rcases pieceForm t with ⟨_, hk, hi⟩ | ⟨name, hn, rfl, hk, hi⟩ | ⟨side, name, hn, rfl, hk, hi⟩ |
    ⟨name, hn, rfl, hk, hi⟩ | ⟨_, hk, hi⟩ | ⟨_, hk, hi⟩
  · simp [Token.splits, hk]
  · simp [hi] at h
  · simp [hi] at h
  · simp [hi] at h
  · simp [hi] at h
  · simp [Token.splits, hk]

end Octet
