import Octet.Assembly.Compilation
import Octet.Proofs.Assembly.Encoding

/-! # What a compilation ends with

Every token ends errored, as a label with its address, or with a byte and an address. So the image
exists exactly if nothing is wrong, and what is wrong is always something in the source text.
-/

namespace Octet

open Token

/-- The tokens as the cursor leaves them, and the cursor behind them. -/
def laidOut (source : Text) : List Token × Cursor := Cursor.start.placeAll (checked source)

theorem labels_compile (source : Text) : (compile source).labels = (laidOut source).2.labels := rfl

theorem tokens_compile (source : Text) :
    (compile source).tokens = encode (compile source).labels (laidOut source).1 := rfl

theorem placed_laidOut {source : Text} {t : Token} (h : t ∈ (laidOut source).1) :
    t.Placed (compile source).labels :=
  Cursor.placed_placeAll _ (fun _ h => lexed_of_mem_checked h) t h

theorem mem_tokens_iff {source : Text} {t : Token} : t ∈ (compile source).tokens ↔
    ∃ t' ∈ (laidOut source).1, Encoding.token (compile source).labels t' = t :=
  List.mem_map

/-- The states in which a token can end. -/
inductive FinalState where
  | errored
  | bound
  | encoded
deriving DecidableEq, Repr

namespace FinalState

def Holds (labels : LabelTable) (t : Token) : FinalState → Prop
  | .errored => t.isErrored = true
  | .bound => t.isErrored = false ∧ t.kind = .label ∧ t.byte = none ∧
    ∃ label, labels.get? t.output = some label ∧ t.address = some label.address
  | .encoded => t.isErrored = false ∧
    (t.kind = .instruction ∨ (∃ side, t.kind = .addressByte side) ∨ t.kind = .byteLiteral) ∧
    t.byte.isSome = true ∧ t.address.isSome = true

def of (t : Token) : FinalState :=
  if t.isErrored then .errored else if t.kind = .label then .bound else .encoded

theorem eq_of_holds {labels : LabelTable} {t : Token} {s : FinalState} (h : s.Holds labels t) :
    s = of t := by
  cases s with
  | errored => exact (if_pos h).symm
  | bound => simp [of, h.1, h.2.1]
  | encoded =>
    have hk : t.kind ≠ .label := by
      rcases h.2.1 with hk | ⟨side, hk⟩ | hk <;> simp [hk]
    simp [of, h.1, hk]

end FinalState

namespace Token

structure Final (labels : LabelTable) (t : Token) : Prop where
  state : ∃ s : FinalState, s.Holds labels t
  not_address : t.kind ≠ .address
  reported : t.kind = .directive ∨ t.kind = .invalid → t.isErrored = true
  plain : ∀ fault, CompileError.internal fault ∉ t.errors

theorem not_mem_errors_of_plain {t : Token} (h : Plain t.events) (fault : EncodingFault) :
    CompileError.internal fault ∉ t.errors := by
  intro he
  obtain ⟨e, hmem, herror⟩ := List.mem_filterMap.1 he
  cases e with
  | note n => cases herror
  | error e =>
    cases herror
    exact h fault hmem

variable {labels : LabelTable} {t : Token}

theorem Placed.reported (ht : t.Placed labels) (hk : t.kind = .directive ∨ t.kind = .invalid) :
    t.isErrored = true :=
  hk.elim ht.applied ht.lexed.invalid

theorem Placed.exists_state (ht : t.Placed labels) :
    ∃ s : FinalState, s.Holds labels (Encoding.token labels t) := by
  rcases Encoding.coding ht with ⟨he, h⟩ | ⟨he, hk, _, h⟩ | ⟨b, he, hk, _, h⟩ | ⟨e, _, _, _, h⟩
  all_goals rw [h]
  · exact ⟨.errored, he⟩
  · obtain ⟨a, ha⟩ := Option.isSome_iff_exists.1 (ht.located he)
    have hb := ht.bound hk he
    rw [ha] at hb
    obtain ⟨label, hl, rfl⟩ := Option.map_eq_some_iff.1 hb
    exact ⟨.bound, (isErrored_note _ _).trans he, hk, ht.lexed.byte, label, hl, ha⟩
  · refine ⟨.encoded, (Encoding.isErrored_store t b).trans he, ?_, rfl, ht.located he⟩
    rcases ht.reading he with ⟨_, hk', _, _⟩ | ⟨side, hk', _⟩ | ⟨hk', _⟩ | ⟨hk', _, _⟩
    · exact .inl hk'
    · exact .inr (.inl ⟨side, hk'⟩)
    · exact absurd hk' hk
    · exact .inr (.inr hk')
  · exact ⟨.errored, isErrored_error t e⟩

theorem Placed.final (ht : t.Placed labels) : (Encoding.token labels t).Final labels := by
  have hkind := (Encoding.samePiece_token labels t).kind
  refine ⟨ht.exists_state, ?_, ?_, ?_⟩
  · rw [hkind]
    exact ht.lexed.not_address
  · intro hk
    rw [hkind] at hk
    cases he : (Encoding.token labels t).isErrored with
    | true => rfl
    | false =>
      have hte := (Encoding.isErrored_token_eq_false_iff.1 he).1
      rw [ht.reported hk] at hte
      cases hte
  · exact not_mem_errors_of_plain (Encoding.plain_token ht)

theorem Final.entry (h : t.Final labels) (he : t.isErrored = false)
    (hk : t.kind.takesByte = true) : ∃ e, t.entry = .ok e := by
  obtain ⟨s, hs⟩ := h.state
  cases s with
  | errored =>
    rw [show t.isErrored = true from hs] at he
    cases he
  | bound =>
    rw [hs.2.1] at hk
    cases hk
  | encoded =>
    obtain ⟨b, hb⟩ := Option.isSome_iff_exists.1 hs.2.2.1
    obtain ⟨a, ha⟩ := Option.isSome_iff_exists.1 hs.2.2.2
    exact ⟨⟨a, b⟩, by simp [Token.entry, ha, hb]⟩

end Token

/-- Whatever the source text, the tokens of its compilation are final. -/
theorem final_of_mem_tokens {source : Text} {t : Token} (h : t ∈ (compile source).tokens) :
    t.Final (compile source).labels := by
  obtain ⟨t', h', rfl⟩ := mem_tokens_iff.1 h
  exact (placed_laidOut h').final

namespace Compilation

theorem hasErrors_eq_false_iff (c : Compilation) : c.hasErrors = false ↔ Clean c.tokens := by
  simp [hasErrors, Clean]

theorem errored_eq_nil_iff (c : Compilation) : c.errored = [] ↔ c.hasErrors = false := by
  simp [errored, hasErrors]

theorem image_of_hasErrors {c : Compilation} (h : c.hasErrors = true) :
    c.image = .error (.hasErrors c.errored.length) := by
  have hne : c.errored.length ≠ 0 := by
    intro hl
    rw [List.length_eq_zero_iff, errored_eq_nil_iff, h] at hl
    cases hl
  rw [errored, ← List.countP_eq_length_filter] at hne ⊢
  rw [image, Image.ofTokens, if_neg hne]

theorem clean_of_image {c : Compilation} {image : Image} (h : c.image = .ok image) :
    c.hasErrors = false := by
  cases he : c.hasErrors with
  | false => rfl
  | true =>
    rw [image_of_hasErrors he] at h
    cases h

theorem image_of_clean {c : Compilation} (h : c.hasErrors = false) :
    c.image = (c.tokens.filter (·.kind.takesByte)).mapM Token.entry := by
  have hz : c.tokens.countP (·.isErrored) = 0 := by
    rw [List.countP_eq_length_filter]
    exact congrArg List.length ((errored_eq_nil_iff c).2 h)
  rw [image, Image.ofTokens, if_pos hz]

theorem summary_of_clean {c : Compilation} (h : c.hasErrors = false) : c.summary = .clean := by
  rw [summary, (errored_eq_nil_iff c).2 h]

theorem summary_of_hasErrors {c : Compilation} (h : c.hasErrors = true) :
    ∃ line address category, c.summary = .failed line address category c.errored.length := by
  unfold summary
  cases he : c.errored with
  | nil =>
    rw [errored_eq_nil_iff, h] at he
    cases he
  | cons t ts => exact ⟨_, _, _, rfl⟩

end Compilation

theorem exists_image {source : Text} (h : (compile source).hasErrors = false) :
    ∃ image, (compile source).image = .ok image := by
  rw [Compilation.image_of_clean h]
  apply exists_mapM_eq_ok
  intro t ht
  obtain ⟨hmem, hk⟩ := List.mem_filter.1 ht
  exact (final_of_mem_tokens hmem).entry ((Compilation.hasErrors_eq_false_iff _).1 h t hmem) hk

/-- Every token ends in exactly one of the final states, and no error blames the assembler. There is
an image exactly if nothing is wrong; otherwise the export and the summary count the same errors. -/
theorem compile_outcome (source : Text) :
    (∀ t ∈ (compile source).tokens, (∃! s : FinalState, s.Holds (compile source).labels t) ∧
      t.kind ≠ .address ∧ (t.kind = .directive ∨ t.kind = .invalid → t.isErrored = true) ∧
      ∀ fault, CompileError.internal fault ∉ t.errors) ∧
    ((∃ image, (compile source).image = .ok image) ↔
      (compile source).hasErrors = false ∧ (compile source).summary = .clean) ∧
    ((¬ ∃ image, (compile source).image = .ok image) →
      (compile source).image = .error (.hasErrors (compile source).errored.length) ∧
      ∃ line address category,
        (compile source).summary = .failed line address category (compile source).errored.length) ∧
    ∀ text line, (compile source).image ≠ .error (.missingByte text line) := by
  refine ⟨fun t ht => ?_, ?_⟩
  · have hf := final_of_mem_tokens ht
    obtain ⟨s, hs⟩ := hf.state
    refine ⟨⟨s, hs, fun s' hs' => ?_⟩, hf.not_address, hf.reported, hf.plain⟩
    exact (FinalState.eq_of_holds hs').trans (FinalState.eq_of_holds hs).symm
  · cases h : (compile source).hasErrors with
    | false =>
      have hi := exists_image h
      refine ⟨⟨fun _ => ⟨rfl, Compilation.summary_of_clean h⟩, fun _ => hi⟩, absurd hi, ?_⟩
      intro text line he
      obtain ⟨image, hi⟩ := hi
      rw [hi] at he
      cases he
    | true =>
      have hi := Compilation.image_of_hasErrors h
      rw [hi]
      refine ⟨⟨?_, ?_⟩, fun _ => ⟨rfl, Compilation.summary_of_hasErrors h⟩, by simp⟩
      · rintro ⟨image, hok⟩
        cases hok
      · rintro ⟨hok, -⟩
        cases hok

end Octet
