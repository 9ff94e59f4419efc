import Octet.Proofs.Assembly.Reading
import Octet.Proofs.Lists

/-! # Tokens before they are placed

Invariants of the tokens that a source text is cut into, which the operand check keeps: no address is
left unsplit, whatever fits no pattern is errored, and no token has a byte or an address yet.
-/

namespace Octet

open Operands Token

namespace Token

structure Lexed (t : Token) : Prop where
  not_address : t.kind ≠ .address
  invalid : t.kind = .invalid → t.isErrored = true
  literal : t.kind = .byteLiteral → Pattern.isByteLiteral t.text = true
  half : ∀ side, t.kind = .addressByte side → ∃ name, t.text = '@' :: (name ++ side.suffix)
  byte : t.byte = none
  plain : Plain t.events

theorem isErrored_annotate (t : Token) (es : List Event) :
    (t.annotate es).isErrored = (t.isErrored || es.any (·.error?.isSome)) := by
  simp [annotate, isErrored]

theorem Lexed.annotated {t t' : Token} (ht : t.Lexed) (h : Annotated t t') : t'.Lexed := by
  obtain ⟨es, rfl, hes⟩ := h
  refine ⟨ht.not_address, fun hk => ?_, ht.literal, ht.half, ht.byte,
    plain_append.2 ⟨ht.plain, hes⟩⟩
  rw [isErrored_annotate, ht.invalid hk, Bool.true_or]

theorem lexed_ofPiece {line : Nat} {t : Text} (h : (Pattern.classify t).1 ≠ .address) :
    (ofPiece line t).Lexed := by
  refine ⟨by simpa using h, fun hk => ?_, fun hk => ?_, fun side hk => ?_, ?_, ?_⟩
  · rw [kind_ofPiece] at hk
    simp [hk]
  · rw [kind_ofPiece] at hk
    simpa using isByteLiteral_of_classify hk
  · rw [kind_ofPiece] at hk
    rw [text_ofPiece]
    exact exists_half_of_classify hk
  · simp only [ofPiece]
    split <;> rfl
  · simp only [ofPiece]
    split <;> simp [Plain, fresh, error, note, record]

theorem lexed_half {t : Token} {name : Text} (h : Pattern.isName name = true)
    (ht : t.text = '@' :: name) (side : Half) : (t.half side).Lexed := by
  have hk := classify_half h side
  have hp : (ofPiece t.line (t.text ++ side.suffix)).Lexed := by
    refine lexed_ofPiece ?_
    rw [ht, List.cons_append, hk]
    simp
  exact hp.annotated (annotated_note _ _)

theorem lexed_ofDirective (line : Nat) (t : Text) : (ofDirective line t).Lexed :=
  ⟨by simp [ofDirective, fresh, note, record], by simp [ofDirective, fresh, note, record],
    by simp [ofDirective, fresh, note, record], by simp [ofDirective, fresh, note, record], rfl, by
      simp [ofDirective, fresh, note, record, Plain]⟩

end Token

/-- The tokens that a line with the code can have, its addresses split. -/
inductive Line.Part (line : Nat) (code : Text) : Token → Prop
  | directive (rest : Text) (h : code = '#' :: rest) : Part line code (.ofDirective line code)
  | piece (piece : Text) (h : (Pattern.classify piece).1 ≠ .address) :
    Part line code (.ofPiece line piece)
  | half (name : Text) (side : Half) (h : Pattern.isName name = true) :
    Part line code ((Token.ofPiece line ('@' :: name)).half side)

theorem part_of_mem_splitAddresses {line : Nat} {raw : Text} {t : Token}
    (h : t ∈ splitAddresses (Line.tokens line raw)) : Line.Part line (Line.code raw) t := by
  obtain ⟨u, hu, ht⟩ := List.mem_flatMap.1 h
  simp only [Line.tokens] at hu
  split at hu
  · cases hu
  · next rest hcode =>
    obtain rfl := List.mem_singleton.1 hu
    rw [if_neg (by simp [splits, ofDirective, fresh, note, record])] at ht
    rw [List.mem_singleton.1 ht, ← hcode]
    exact .directive rest hcode
  · obtain ⟨piece, -, rfl⟩ := List.mem_map.1 hu
    split at ht
    · next hs =>
      simp only [splits, Bool.and_eq_true, beq_iff_eq, kind_ofPiece] at hs
      obtain ⟨name, hn, rfl⟩ := exists_name_of_classify hs.1
      simp only [List.mem_cons, List.not_mem_nil, or_false] at ht
      rcases ht with rfl | rfl
      · exact .half name .high hn
      · exact .half name .low hn
    · next hs =>
      rw [List.mem_singleton.1 ht]
      refine .piece piece fun hk => hs ?_
      simp [splits, hk]

namespace Line.Part

variable {line : Nat} {code : Text} {t : Token}

theorem lexed (h : Part line code t) : t.Lexed := by
  cases h with
  | directive => exact lexed_ofDirective line code
  | piece _ hk => exact lexed_ofPiece hk
  | half _ side hn => exact lexed_half hn (text_ofPiece line _) side

/-- Before the operand check only what fits no pattern is errored. -/
theorem invalid (h : Part line code t) (he : t.isErrored = true) : t.kind = .invalid := by
  cases h with
  | directive => cases he
  | piece => simpa using he
  | half _ side hn =>
    rw [isErrored_half hn (text_ofPiece line _) side] at he
    cases he

/-- All that is found out about an instruction before the operand check is its kind. -/
theorem events (h : Part line code t) (hk : t.kind = .instruction) :
    t.events = [.note (.classified .instruction)] := by
  cases h with
  | directive => cases hk
  | piece =>
    rw [kind_ofPiece] at hk
    simp [ofPiece, hk, note, record, fresh]
  | half _ side hn =>
    rw [kind_half hn (text_ofPiece line _)] at hk
    cases hk

theorem kind_ne_directive (h : Part line code t) (hcode : code.head? ≠ some '#') :
    t.kind ≠ .directive := by
  cases h with
  | directive rest h => exact absurd (congrArg List.head? h) hcode
  | piece piece =>
    rw [kind_ofPiece]
    exact classify_ne_directive piece
  | half _ side hn =>
    rw [kind_half hn (text_ofPiece line _)]
    simp

end Line.Part

/-- Every token of a source text is as its pieces and the operand check leave it. -/
theorem lexed_of_mem_checked {source : Text} {t : Token} (h : t ∈ checked source) :
    t.Lexed ∧ (t.kind = .instruction → t.isErrored = false →
      ∃ op, Opcode.ofMnemonic? t.text = some op) := by
  rw [checked_eq] at h
  obtain ⟨x, -, ht⟩ := List.mem_flatMap.1 h
  obtain ⟨s, hs, hc⟩ := exists_of_mem_right (forall₂_checkLine true _) ht
  exact ⟨(part_of_mem_splitAddresses hs).lexed.annotated hc.annotated, hc.known⟩

end Octet
