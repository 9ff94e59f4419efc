import Octet.Assembly.Layout
import Octet.Proofs.Assembly.Lexing

/-! # Placing tokens

What the cursor does with a token, case by case, and what every placed token is like: unless it is
errored it has an address, which for a label is the one that the table binds its name to.
-/

namespace Octet

namespace Directive

theorem address?_of_lt {n : Nat} (h : n < 65536) : address? n = some (.ofNat n) := if_pos h

theorem address?_eq_some_iff {n : Nat} {a : Address} :
    address? n = some a ↔ n < 65536 ∧ a = .ofNat n := by
  simp [address?, eq_comm]

theorem address?_eq_none_iff {n : Nat} : address? n = none ↔ 65536 ≤ n := by
  simp [address?]

theorem skip?_eq_some_iff {code : Text} {item : Item} : Item.skip? code = some item ↔
    ∃ argument n, code.words = ["#SKIPTO".toList, argument] ∧
      Numeral.ofDecimal? argument = some n ∧ item = .skip n := by
  simp only [Item.skip?]
  constructor
  · intro h
    split at h
    · next name argument hw =>
      split at h
      · next hn =>
        obtain ⟨n, hd, rfl⟩ := Option.map_eq_some_iff.1 h
        exact ⟨argument, n, by rw [hw, hn], hd, rfl⟩
      · cases h
    · cases h
  · rintro ⟨argument, n, hw, hd, rfl⟩
    simp [hw, hd]

theorem name_eq_iff {text : Text} :
    name text = "SKIPTO".toList ↔ text.words.head? = some "#SKIPTO".toList := by
  simp only [name]
  split
  · next name rest hw => simp [hw]
  · next hno =>
    constructor
    · intro h
      exact absurd h (by decide)
    · intro h
      cases hw : text.words with
      | nil => simp [hw] at h
      | cons w ws =>
        obtain rfl : w = '#' :: "SKIPTO".toList := by simpa [hw] using h
        exact absurd hw (hno _ _)

theorem destination_eq_ok_iff {n : Nat} {argument : Text} {a : Address} :
    destination n argument = .ok a ↔ Numeral.ofDecimal? argument = some a.toNat ∧ n ≤ a.toNat := by
  simp only [destination]
  constructor
  · intro h
    split at h
    · cases h
    · next m hd =>
      split at h
      · cases h
      · next b hb =>
        have hm := toNat_of_address? hb
        split at h
        · cases h
        · cases h
          rw [hm]
          exact ⟨hd, by omega⟩
  · rintro ⟨hd, hn⟩
    have ha := address?_of_lt a.toNat_lt
    rw [UInt16.ofNat_toNat] at ha
    simp [hd, ha, Nat.not_lt.2 hn]

/-- A directive moves the counter to the target of the skip that its line says, unless it is behind. -/
theorem target_eq_ok_iff {n : Nat} {text : Text} {a : Address} :
    target n text = .ok a ↔ Item.skip? text = some (.skip a.toNat) ∧ n ≤ a.toNat := by
  rw [skip?_eq_some_iff, target]
  constructor
  · intro h
    split at h
    · next hname =>
      split at h
      · next argument hw =>
        obtain ⟨hd, hn⟩ := destination_eq_ok_iff.1 h
        refine ⟨⟨argument, a.toNat, ?_, hd, rfl⟩, hn⟩
        have hh := name_eq_iff.1 hname
        cases hws : text.words with
        | nil => simp [hws] at hh
        | cons w ws =>
          simp only [hws, List.head?_cons, Option.some.injEq] at hh
          rw [hws, List.tail_cons] at hw
          rw [hh, hw]
      · cases h
    · cases h
  · rintro ⟨⟨argument, m, hw, hd, hm⟩, hn⟩
    rw [if_pos (name_eq_iff.2 (by rw [hw]; rfl)), hw]
    obtain rfl : a.toNat = m := Item.skip.inj hm
    exact destination_eq_ok_iff.2 ⟨hd, hn⟩

end Directive

inductive Placing (c : Cursor) (t : Token) : Prop
  | errored (he : t.isErrored = true) (h : c.place t = (some (c.skip t), c.advance))
  | bound (a : Address) (labels : LabelTable) (he : t.isErrored = false) (hk : t.kind = .label)
    (ha : Directive.address? c.counter = some a)
    (hl : c.labels.define t.output ⟨a, t.line⟩ = .ok labels)
    (h : c.place t = (some ({ t with address := some a }.note (.labelBound a)), { c with labels }))
  | rebound (first : Label) (he : t.isErrored = false) (hk : t.kind = .label)
    (hc : c.counter < 65536) (hl : c.labels.get? t.output = some first)
    (h : c.place t = (some (t.error (.labelAlreadyDefined t.output first.line)), c))
  | unbound (he : t.isErrored = false) (hk : t.kind = .label) (hc : 65536 ≤ c.counter)
    (h : c.place t = (some (t.error (.addressOutOfRange c.counter)), c))
  | applied (a : Address) (he : t.isErrored = false) (hk : t.kind = .directive)
    (hd : Directive.target c.counter t.output = .ok a)
    (h : c.place t = (none, { c with counter := a.toNat }))
  | refused (e : CompileError) (he : t.isErrored = false) (hk : t.kind = .directive)
    (hd : Directive.target c.counter t.output = .error e)
    (h : c.place t = (some (c.skip (t.error e)), c.advance))
  | located (a : Address) (he : t.isErrored = false) (hl : t.kind ≠ .label)
    (hd : t.kind ≠ .directive) (ha : Directive.address? c.counter = some a)
    (h : c.place t = (some { t with address := some a }, c.advance))
  | beyond (he : t.isErrored = false) (hl : t.kind ≠ .label) (hd : t.kind ≠ .directive)
    (hc : 65536 ≤ c.counter)
    (h : c.place t = (some (t.error (.addressOutOfRange c.counter)), c.advance))

theorem placing (c : Cursor) (t : Token) : Placing c t := by
  have h : c.place t = c.place t := rfl
  conv at h => rhs; rw [Cursor.place]
  cases he : t.isErrored with
  | true => exact .errored he (by simpa [he] using h)
  | false =>
    simp only [he, Bool.false_eq_true, ↓reduceIte] at h
    split at h
    · next hk =>
      simp only [Cursor.bind] at h
      cases ha : Directive.address? c.counter with
      | none => exact .unbound he hk (Directive.address?_eq_none_iff.1 ha) (by simpa [ha] using h)
      | some a =>
        have hc := (Directive.address?_eq_some_iff.1 ha).1
        cases hl : c.labels.define t.output ⟨a, t.line⟩ with
        | ok labels => exact .bound a labels he hk ha hl (by simpa [ha, hl] using h)
        | error first =>
          have hg : c.labels.get? t.output = some first := by
            simp only [LabelTable.define] at hl
            split at hl
            · next hg =>
              cases hl
              exact hg
            · cases hl
          exact .rebound first he hk hc hg (by simpa [ha, hl] using h)
    · next hk =>
      cases hd : Directive.target c.counter t.output with
      | ok a => exact .applied a he hk hd (by simpa [hd] using h)
      | error e => exact .refused e he hk hd (by simpa [hd] using h)
    · next hl hd =>
      cases ha : Directive.address? c.counter with
      | some a => exact .located a he hl hd ha (by simpa [ha] using h)
      | none => exact .beyond he hl hd (Directive.address?_eq_none_iff.1 ha) (by simpa [ha] using h)

/-- A token between its placement and its encoding. -/
structure Token.Placed (labels : LabelTable) (t : Token) : Prop where
  lexed : t.Lexed
  known : t.kind = .instruction → t.isErrored = false → ∃ op, Opcode.ofMnemonic? t.text = some op
  applied : t.kind = .directive → t.isErrored = true
  located : t.isErrored = false → t.address.isSome = true
  bound : t.kind = .label → t.isErrored = false → (labels.get? t.output).map (·.address) = t.address

namespace LabelTable

/-- Every binding of the one table is one of the other. -/
def Extends (table' table : LabelTable) : Prop :=
  ∀ name label, table.get? name = some label → table'.get? name = some label

theorem Extends.refl (table : LabelTable) : Extends table table := fun _ _ h => h

theorem Extends.trans {u v w : LabelTable} (h : Extends w v) (h' : Extends v u) : Extends w u :=
  fun name label hl => h name label (h' name label hl)

theorem get?_eq_none_of_define {table table' : LabelTable} {name : Text} {label : Label}
    (h : table.define name label = .ok table') : table.get? name = none := by
  simp only [define] at h
  split at h
  · cases h
  · next hg => exact hg

theorem extends_of_define {table table' : LabelTable} {name : Text} {label : Label}
    (h : table.define name label = .ok table') : Extends table' table := by
  intro other l hl
  rw [get?_define h, if_neg, hl]
  rintro rfl
  rw [get?_eq_none_of_define h] at hl
  cases hl

end LabelTable

namespace Token

theorem Placed.of_extends {labels labels' : LabelTable} {t : Token} (h : t.Placed labels)
    (hl : labels'.Extends labels) : t.Placed labels' := by
  refine ⟨h.lexed, h.known, h.applied, h.located, fun hk he => ?_⟩
  have hb := h.bound hk he
  obtain ⟨a, ha⟩ := Option.isSome_iff_exists.1 (h.located he)
  rw [ha] at hb
  obtain ⟨label, hg, rfl⟩ := Option.map_eq_some_iff.1 hb
  rw [hl _ _ hg, ha]
  rfl

theorem Placed.of_isErrored {labels : LabelTable} {t : Token} (ht : t.Lexed)
    (he : t.isErrored = true) : t.Placed labels := by
  refine ⟨ht, fun _ h => ?_, fun _ => he, fun h => ?_, fun _ h => ?_⟩
  all_goals
    rw [he] at h
    cases h

theorem Lexed.at {t : Token} (h : t.Lexed) (a : Option Address) : { t with address := a }.Lexed :=
  ⟨h.not_address, h.invalid, h.literal, h.half, h.byte, h.plain⟩

theorem Lexed.error {t : Token} (h : t.Lexed) {e : CompileError} (he : ∀ fault, e ≠ .internal fault) :
    (t.error e).Lexed :=
  h.annotated (annotated_error t he)

theorem Lexed.note {t : Token} (h : t.Lexed) (n : Note) : (t.note n).Lexed :=
  h.annotated (annotated_note t n)

end Token

namespace Cursor

open Token

theorem placeAll_cons (c : Cursor) (t : Token) (ts : List Token) : c.placeAll (t :: ts) =
    ((c.place t).1.toList ++ ((c.place t).2.placeAll ts).1, ((c.place t).2.placeAll ts).2) := rfl

theorem samePiece_place {c : Cursor} {t t' : Token} (h' : (c.place t).1 = some t') :
    SamePiece t t' := by
  rcases placing c t with ⟨_, h⟩ | ⟨_, _, _, _, _, _, h⟩ | ⟨_, _, _, _, _, h⟩ | ⟨_, _, _, h⟩ |
    ⟨_, _, _, _, h⟩ | ⟨_, _, _, _, h⟩ | ⟨_, _, _, _, _, h⟩ | ⟨_, _, _, _, h⟩
  all_goals
    rw [h] at h'
    cases h' <;> exact ⟨rfl, rfl, rfl⟩

theorem exists_of_mem_placeAll {c : Cursor} {ts : List Token} {t' : Token}
    (h : t' ∈ (c.placeAll ts).1) : ∃ t ∈ ts, SamePiece t t' := by
  induction ts generalizing c with
  | nil => cases h
  | cons t ts ih =>
    rw [placeAll_cons] at h
    rcases List.mem_append.1 h with h | h
    · exact ⟨t, List.mem_cons_self .., samePiece_place (Option.mem_toList.1 h)⟩
    · obtain ⟨u, hu, hsame⟩ := ih h
      exact ⟨u, List.mem_cons_of_mem _ hu, hsame⟩

theorem extends_place (c : Cursor) (t : Token) : (c.place t).2.labels.Extends c.labels := by
  rcases placing c t with ⟨_, h⟩ | ⟨a, labels, _, _, _, hl, h⟩ | ⟨_, _, _, _, _, h⟩ | ⟨_, _, _, h⟩ |
    ⟨_, _, _, _, h⟩ | ⟨_, _, _, _, h⟩ | ⟨_, _, _, _, _, h⟩ | ⟨_, _, _, _, h⟩
  · exact h ▸ .refl _
  · exact h ▸ LabelTable.extends_of_define hl
  all_goals exact h ▸ .refl _

theorem extends_placeAll (c : Cursor) (ts : List Token) :
    (c.placeAll ts).2.labels.Extends c.labels := by
  induction ts generalizing c with
  | nil => exact .refl _
  | cons t ts ih => exact (ih (c.place t).2).trans (c.extends_place t)

/-- The causes for which a directive is refused lie in the source text. -/
theorem target_ne_internal {n : Nat} {text : Text} {e : CompileError}
    (h : Directive.target n text = .error e) (fault : EncodingFault) : e ≠ .internal fault := by
  rintro rfl
  simp only [Directive.target, Directive.destination] at h
  repeat' split at h
  all_goals cases h

/-- What stays behind a placement is placed. -/
theorem placed_place {c : Cursor} {t t' : Token} (ht : t.Lexed)
    (hk : t.kind = .instruction → t.isErrored = false → ∃ op, Opcode.ofMnemonic? t.text = some op)
    (h' : (c.place t).1 = some t') : t'.Placed (c.place t).2.labels := by
  rcases placing c t with ⟨he, h⟩ | ⟨a, labels, he, hl, ha, hd, h⟩ | ⟨first, _, _, _, _, h⟩ |
    ⟨_, _, _, h⟩ | ⟨_, _, _, _, h⟩ | ⟨e, _, _, hd, h⟩ | ⟨a, he, hl, hd, _, h⟩ | ⟨_, _, _, _, h⟩
  all_goals
    rw [h] at h' ⊢
    cases h'
  · exact .of_isErrored (ht.at _) he
  · refine ⟨(ht.at _).note _, fun h _ => hk h he, fun h => ?_, fun _ => rfl, fun _ _ => ?_⟩
    · rw [show t.kind = .directive from h] at hl
      cases hl
    · exact congrArg (Option.map Label.address) ((LabelTable.get?_define hd _).trans (if_pos rfl))
  · exact .of_isErrored (ht.error (by simp)) (isErrored_error _ _)
  · exact .of_isErrored (ht.error (by simp)) (isErrored_error _ _)
  · exact .of_isErrored ((ht.error (target_ne_internal hd)).at _) (isErrored_error t e)
  · exact ⟨ht.at _, hk, fun h => absurd h hd, fun _ => rfl, fun h => absurd h hl⟩
  · exact .of_isErrored (ht.error (by simp)) (isErrored_error _ _)

theorem placed_placeAll (c : Cursor) {ts : List Token} (hts : ∀ t ∈ ts, t.Lexed ∧
    (t.kind = .instruction → t.isErrored = false → ∃ op, Opcode.ofMnemonic? t.text = some op)) :
    ∀ t' ∈ (c.placeAll ts).1, t'.Placed (c.placeAll ts).2.labels := by
  induction ts generalizing c with
  | nil => simp [placeAll]
  | cons t ts ih =>
    obtain ⟨⟨ht, hk⟩, hts⟩ := List.forall_mem_cons.1 hts
    intro t' h'
    rcases List.mem_append.1 h' with h' | h'
    · have hp := placed_place ht hk (Option.mem_toList.1 h')
      exact hp.of_extends ((c.place t).2.extends_placeAll ts)
    · exact ih (c.place t).2 hts t' h'

end Cursor

end Octet
