import Octet.Assembly.Encoding
import Octet.Proofs.Assembly.Layout
import Octet.Proofs.Assembly.Literal

/-! # Encoding placed tokens

A placed token without an error says an item, and its byte is the one that the item stands for under
the bindings of the labels. Where the item stands for nothing the token gets an error, and in no case
one that blames the assembler.
-/

namespace Octet

open Token

/-- Whether the table binds the names as the list does. -/
def LabelTable.Binds (labels : LabelTable) (bindings : List (Text × Nat)) : Prop :=
  ∀ name, (labels.get? name).map (·.address.toNat) = bindings.lookup name

/-- Whether the item has what its byte depends on. -/
def Item.Resolves (bindings : List (Text × Nat)) : Item → Prop
  | .literal text => ∃ n, ByteLiteral.value? text = some n ∧ n ≤ 255
  | .half _ name => (bindings.lookup name).isSome = true
  | _ => True

theorem ByteLiteral.parse_ne_internal {t : Text} {e : CompileError} (h : parse t = .error e)
    (fault : EncodingFault) : e ≠ .internal fault := by
  rintro rfl
  rw [parse_eq] at h
  repeat' split at h
  all_goals cases h

variable {labels : LabelTable} {bindings : List (Text × Nat)} {t : Token} {item : Item}

/-- The kinds of the placed tokens that are not errored, each with what the token says. -/
inductive Token.Reading (labels : LabelTable) (t : Token) : Prop
  | instruction (op : Opcode) (hk : t.kind = .instruction)
    (ho : Opcode.ofMnemonic? t.text = some op) (hi : t.item? = some (.instruction op))
  | half (side : Half) (hk : t.kind = .addressByte side)
    (hi : t.item? = some (.half side (t.referencedLabel?.getD [])))
  | label (hk : t.kind = .label) (hi : t.item? = some (.label t.output))
  | literal (hk : t.kind = .byteLiteral) (hp : Pattern.isByteLiteral t.text = true)
    (hi : t.item? = some (.literal t.text))

theorem Token.Placed.reading (ht : t.Placed labels) (he : t.isErrored = false) :
    t.Reading labels := by
  cases hk : t.kind with
  | instruction =>
    obtain ⟨op, ho⟩ := ht.known hk he
    exact .instruction op hk ho (by simp [item?, hk, ho])
  | address => exact absurd hk ht.lexed.not_address
  | addressByte side => exact .half side hk (by simp [item?, hk])
  | label => exact .label hk (item?_of_label hk)
  | byteLiteral => exact .literal hk (ht.lexed.literal hk) (by simp [item?, hk])
  | directive =>
    rw [ht.applied hk] at he
    cases he
  | invalid =>
    rw [ht.lexed.invalid hk] at he
    cases he

theorem Token.Placed.exists_item (ht : t.Placed labels) (he : t.isErrored = false) :
    ∃ item, t.item? = some item ∧ item.target? = none := by
  rcases ht.reading he with ⟨op, _, _, hi⟩ | ⟨side, _, hi⟩ | ⟨_, hi⟩ | ⟨_, _, hi⟩
  all_goals exact ⟨_, hi, rfl⟩

namespace Encoding

theorem byte?_of_resolves (ht : t.Placed labels) (he : t.isErrored = false)
    (hi : t.item? = some item) (hb : labels.Binds bindings) (hr : item.Resolves bindings) :
    ∃ b, byte? labels t = .ok b ∧ b.map (·.toNat) = Program.byte? bindings item := by
  rcases ht.reading he with ⟨op, hk, ho, hi'⟩ | ⟨side, hk, hi'⟩ | ⟨hk, hi'⟩ | ⟨hk, hp, hi'⟩
  all_goals
    rw [hi] at hi'
    cases hi'
  · exact ⟨some op.id, by simp [byte?, hk, ho], rfl⟩
  · obtain ⟨a, ha⟩ := Option.isSome_iff_exists.1 hr
    have hg := hb (t.referencedLabel?.getD [])
    rw [ha] at hg
    obtain ⟨label, hl, rfl⟩ := Option.map_eq_some_iff.1 hg
    refine ⟨some (side.of label.address), by simp [byte?, hk, hl], ?_⟩
    cases side with
    | high => simp [Program.byte?, ha, Half.of, toNat_highByte]
    | low => simp [Program.byte?, ha, Half.of, toNat_lowByte]
  · exact ⟨none, by simp [byte?, hk], rfl⟩
  · obtain ⟨n, hv, hn⟩ := hr
    have hparse := (ByteLiteral.parse_eq_ok_iff_value? hp).2 ⟨n, hv, hn, rfl⟩
    refine ⟨some (.ofNat n), by simp [byte?, hk, hparse, Except.map], ?_⟩
    simp only [Option.map_some, Program.byte?, hv, UInt8.toNat_ofNat', Option.some.injEq]
    omega

theorem resolves_of_byte? (ht : t.Placed labels) (he : t.isErrored = false)
    (hi : t.item? = some item) (hb : labels.Binds bindings) {b : Option Byte}
    (h : byte? labels t = .ok b) : item.Resolves bindings := by
  rcases ht.reading he with ⟨op, hk, ho, hi'⟩ | ⟨side, hk, hi'⟩ | ⟨hk, hi'⟩ | ⟨hk, hp, hi'⟩
  all_goals
    rw [hi] at hi'
    cases hi'
  · trivial
  · simp only [byte?, hk] at h
    split at h
    · next label hg =>
      change (bindings.lookup _).isSome = true
      rw [← hb, hg]
      rfl
    · cases h
  · trivial
  · simp only [byte?, hk] at h
    cases hparse : ByteLiteral.parse t.text with
    | error e =>
      rw [hparse] at h
      cases h
    | ok v =>
      obtain ⟨n, hv, hn, -⟩ := (ByteLiteral.parse_eq_ok_iff_value? hp).1 hparse
      exact ⟨n, hv, hn⟩

@[simp] theorem isErrored_store (t : Token) (b : Byte) : (store t b).isErrored = t.isErrored :=
  isErrored_note _ _

theorem isErrored_token_eq_false_iff : (token labels t).isErrored = false ↔
    t.isErrored = false ∧ ∃ b, byte? labels t = .ok b := by
  unfold token
  cases he : t.isErrored with
  | true => simp [he]
  | false =>
    cases hb : byte? labels t with
    | error e => simp
    | ok b =>
      cases b with
      | none => simpa using he
      | some b => simpa using he

theorem samePiece_token (labels : LabelTable) (t : Token) : SamePiece t (token labels t) := by
  unfold token
  split
  · exact ⟨rfl, rfl, rfl⟩
  · split <;> exact ⟨rfl, rfl, rfl⟩

theorem address_token (labels : LabelTable) (t : Token) :
    (token labels t).address = t.address := by
  unfold token
  split
  · rfl
  · split <;> rfl

/-- An item that resolves is what keeps a placed token without an error. -/
theorem isErrored_token_iff_resolves (ht : t.Placed labels) (he : t.isErrored = false)
    (hi : t.item? = some item) (hb : labels.Binds bindings) :
    (token labels t).isErrored = false ↔ item.Resolves bindings := by
  rw [isErrored_token_eq_false_iff]
  constructor
  · rintro ⟨-, b, h⟩
    exact resolves_of_byte? ht he hi hb h
  · intro hr
    obtain ⟨b, h, -⟩ := byte?_of_resolves ht he hi hb hr
    exact ⟨he, b, h⟩

inductive Coding (labels : LabelTable) (t : Token) : Prop
  | errored (he : t.isErrored = true) (h : token labels t = t)
  | bound (he : t.isErrored = false) (hk : t.kind = .label) (hb : byte? labels t = .ok none)
    (h : token labels t = t.note .labelEmitsNothing)
  | stored (b : Byte) (he : t.isErrored = false) (hk : t.kind ≠ .label)
    (hb : byte? labels t = .ok (some b)) (h : token labels t = store t b)
  | refused (e : CompileError) (he : t.isErrored = false) (hp : ∀ fault, e ≠ .internal fault)
    (hb : byte? labels t = .error e) (h : token labels t = t.error e)

theorem coding (ht : t.Placed labels) : Coding labels t := by
  cases he : t.isErrored with
  | true => exact .errored he (by simp [token, he])
  | false =>
    rcases ht.reading he with ⟨op, hk, ho, -⟩ | ⟨side, hk, -⟩ | ⟨hk, -⟩ | ⟨hk, -, -⟩
    · have hb : byte? labels t = .ok (some op.id) := by simp [byte?, hk, ho]
      exact .stored op.id he (by simp [hk]) hb (by simp [token, he, hb])
    · cases hg : labels.get? (t.referencedLabel?.getD []) with
      | none =>
        have hb : byte? labels t = .error (.labelNotFound (t.referencedLabel?.getD [])) := by
          simp [byte?, hk, hg]
        exact .refused _ he (by rintro _ ⟨⟩) hb (by simp [token, he, hb])
      | some label =>
        have hb : byte? labels t = .ok (some (side.of label.address)) := by simp [byte?, hk, hg]
        exact .stored _ he (by simp [hk]) hb (by simp [token, he, hb])
    · have hb : byte? labels t = .ok none := by simp [byte?, hk]
      exact .bound he hk hb (by simp [token, he, hb])
    · cases hparse : ByteLiteral.parse t.text with
      | error e =>
        have hb : byte? labels t = .error e := by simp [byte?, hk, hparse, Except.map]
        exact .refused e he (ByteLiteral.parse_ne_internal hparse) hb (by simp [token, he, hb])
      | ok b =>
        have hb : byte? labels t = .ok (some b) := by simp [byte?, hk, hparse, Except.map]
        exact .stored b he (by simp [hk]) hb (by simp [token, he, hb])

theorem plain_token (ht : t.Placed labels) : Plain (token labels t).events := by
  rcases coding ht with ⟨_, h⟩ | ⟨_, _, _, h⟩ | ⟨b, _, _, _, h⟩ | ⟨e, _, hp, _, h⟩
  all_goals rw [h]
  · exact ht.lexed.plain
  · exact (ht.lexed.note _).plain
  · exact plain_append.2 ⟨ht.lexed.plain, by simp [Plain]⟩
  · exact (ht.lexed.error hp).plain

end Encoding

end Octet
