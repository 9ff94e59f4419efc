import Octet.Assembly.ByteLiteral
import Octet.Proofs.Assembly.Piece

/-! # The value of a literal

Reading the digits of a literal from the left into thirty-two bits succeeds exactly if all of them
are digits of the base and the number they stand for is that of a byte, however long the literal is.
Why it fails otherwise is decided by what comes first, a character that is no digit or the digit with
which the number no longer fits.
-/

namespace Octet

namespace Numeral

theorem mapM_digit?_eq (radix : Nat) (t : Text) : t.mapM (digit? radix) =
    if t.all fun c => (digit? radix c).isSome then some (t.filterMap (digit? radix)) else none := by
  induction t with
  | nil => rfl
  | cons c t ih =>
    rw [List.mapM_cons, ih]
    cases hc : digit? radix c with
    | none => simp [hc]
    | some d =>
      simp only [List.all_cons, List.filterMap_cons, hc, Option.isSome_some, Bool.true_and]
      cases t.all fun c => (digit? radix c).isSome <;> rfl

theorem ofText?_eq_some_iff {radix : Nat} {t : Text} {n : Nat} : ofText? radix t = some n ↔
    t ≠ [] ∧ (t.all fun c => (digit? radix c).isSome) = true ∧
      n = value radix (t.filterMap (digit? radix)) := by
  rw [ofText?, mapM_digit?_eq]
  by_cases ht : t = []
  · simp [ht]
  · by_cases ha : t.all fun c => (digit? radix c).isSome
    · simp [ht, ha, eq_comm]
    · simp [ht, ha]

end Numeral

namespace ByteLiteral

/-- The number that the digits at the beginning of a text stand for. -/
def leading (radix : Nat) (t : Text) : Nat :=
  let digits := t.takeWhile fun c => (Numeral.digit? radix c).isSome
  Numeral.value radix (digits.filterMap (Numeral.digit? radix))

def unsigned : Text → Text
  | '+' :: digits => digits
  | digits => digits

/-- A literal with its radix and with what is left of it without its prefix and one plus. -/
inductive Spelled : Text → Nat → Text → Prop
  | hex (rest : Text) : Spelled ('0' :: 'x' :: rest) 16 (unsigned rest)
  | binary (rest : Text) : Spelled ('0' :: 'b' :: rest) 2 (unsigned rest)
  | decimal (t : Text) (hx : ∀ rest, t ≠ '0' :: 'x' :: rest) (hb : ∀ rest, t ≠ '0' :: 'b' :: rest) :
    Spelled t 10 (unsigned t)

theorem unsigned_of_ne {t : Text} (h : ∀ digits, t ≠ '+' :: digits) : unsigned t = t := by
  unfold unsigned
  split
  · exact absurd rfl (h _)
  · rfl

theorem spelled_split (t : Text) : Spelled t (split t).1 (split t).2 := by
  unfold split
  split
  next radix rest hprefix =>
  have hspelled : Spelled t radix (unsigned rest) := by
    split at hprefix
    · cases hprefix
      exact .hex _
    · cases hprefix
      exact .binary _
    · next hx hb =>
      cases hprefix
      exact .decimal _ (fun rest h => hx rest h) (fun rest h => hb rest h)
  split
  · exact hspelled
  · next hplus => rwa [unsigned_of_ne fun digits h => hplus digits h] at hspelled

theorem Spelled.radix_pos {t digits : Text} {radix : Nat} (h : Spelled t radix digits) : 0 < radix := by
  cases h <;> decide

/-- The number that these digits come to behind others that stand for `n`. -/
def leadingFrom (radix n : Nat) (t : Text) : Nat :=
  let digits := t.takeWhile fun c => (Numeral.digit? radix c).isSome
  (digits.filterMap (Numeral.digit? radix)).foldl (fun n d => n * radix + d) n

section

variable {radix n d : Nat} {c : Char} {t : Text}

theorem leadingFrom_zero (radix : Nat) (t : Text) : leadingFrom radix 0 t = leading radix t := rfl

theorem leadingFrom_cons_of_digit (h : Numeral.digit? radix c = some d) (n : Nat) (t : Text) :
    leadingFrom radix n (c :: t) = leadingFrom radix (n * radix + d) t := by
  simp [leadingFrom, h]

theorem leadingFrom_cons_of_not (h : Numeral.digit? radix c = none) (n : Nat) (t : Text) :
    leadingFrom radix n (c :: t) = n := by
  simp [leadingFrom, h]

/-- With more digits a number does not get smaller. -/
theorem le_leadingFrom (hradix : 0 < radix) (n : Nat) (t : Text) : n ≤ leadingFrom radix n t := by
  rw [leadingFrom, Numeral.foldl_value]
  exact Nat.le_add_right_of_le (Nat.le_mul_of_pos_right n (Nat.pow_pos hradix))

theorem readFrom_cons_of_digit (h : Numeral.digit? radix c = some d) (n : Nat) (t : Text) :
    readFrom radix n (c :: t) = if UInt32.size ≤ n * radix + d then .error .tooLarge
      else readFrom radix (n * radix + d) t := by
  simp only [readFrom, h, fit, bind, Except.bind]
  by_cases hd : UInt32.size ≤ n * radix + d
  · rw [if_pos hd]
    by_cases hm : n * radix < UInt32.size
    · simp only [hm, ↓reduceIte, Nat.not_lt.2 hd]
    · simp only [hm, ↓reduceIte]
  · have hm : n * radix < UInt32.size := by omega
    simp only [hm, Nat.not_le.1 hd, hd, ↓reduceIte]

theorem readFrom_eq (hradix : 0 < radix) (hn : n < UInt32.size) (t : Text) : readFrom radix n t =
    if UInt32.size ≤ leadingFrom radix n t then .error .tooLarge
    else if t.any fun c => (Numeral.digit? radix c).isNone then .error .malformed
    else .ok (leadingFrom radix n t) := by
  induction t generalizing n with
  | nil =>
    have hfits : ¬UInt32.size ≤ leadingFrom radix n [] := Nat.not_le.2 hn
    rw [if_neg hfits]
    rfl
  | cons c t ih =>
    cases hc : Numeral.digit? radix c with
    | none =>
      rw [leadingFrom_cons_of_not hc, if_neg (Nat.not_le.2 hn)]
      simp [readFrom, hc]
    | some d =>
      rw [readFrom_cons_of_digit hc, leadingFrom_cons_of_digit hc]
      by_cases hd : UInt32.size ≤ n * radix + d
      · rw [if_pos hd, if_pos (Nat.le_trans hd (le_leadingFrom hradix _ t))]
      · rw [if_neg hd, ih (Nat.not_le.1 hd)]
        simp [hc]

end

theorem parse_eq (t : Text) : parse t =
    if UInt32.size ≤ leading (split t).1 (split t).2 then .error (.byteOutOfRange t)
    else if (split t).2.isEmpty || (split t).2.any fun c => (Numeral.digit? (split t).1 c).isNone then
      .error (.byteInvalidSyntax t)
    else if leading (split t).1 (split t).2 < 256 then
      .ok (.ofNat (leading (split t).1 (split t).2))
    else .error (.byteOutOfRange t) := by
  have hzero : (0 : Nat) < UInt32.size := by decide
  have hpos := (spelled_split t).radix_pos
  rw [parse]
  generalize split t = spelling at hpos ⊢
  obtain ⟨radix, digits⟩ := spelling
  simp only [read, readFrom_eq hpos hzero, leadingFrom_zero]
  by_cases hd : digits = []
  · have hfits : ¬UInt32.size ≤ leading radix [] := Nat.not_le.2 hzero
    simp [hd, hfits]
  · by_cases hfits : UInt32.size ≤ leading radix digits
    · simp [hd, hfits]
    · by_cases hany : digits.any fun c => (Numeral.digit? radix c).isNone
      · simp [hd, hfits, hany]
      · simp [hd, hfits, hany]

theorem leading_of_all {radix : Nat} {t : Text}
    (h : (t.all fun c => (Numeral.digit? radix c).isSome) = true) :
    leading radix t = Numeral.value radix (t.filterMap (Numeral.digit? radix)) := by
  have ht : (t ++ []).takeWhile (fun c => (Numeral.digit? radix c).isSome) = t ++ [] :=
    List.takeWhile_append_of_pos (List.all_eq_true.1 h)
  rw [List.append_nil] at ht
  rw [leading, ht]

theorem parse_eq_ok_iff {t : Text} {b : Byte} : parse t = .ok b ↔
    ∃ n, Numeral.ofText? (split t).1 (split t).2 = some n ∧ n ≤ 255 ∧ b = .ofNat n := by
  rw [parse_eq]
  constructor
  · intro h
    split at h
    · cases h
    · split at h
      · cases h
      · next hd =>
        split at h
        · next hn =>
          cases h
          simp only [Bool.or_eq_true, not_or, List.isEmpty_iff, Bool.not_eq_true] at hd
          have ha : ((split t).2.all fun c => (Numeral.digit? (split t).1 c).isSome) = true := by
            rw [List.all_eq_not_any_not]
            simpa [Bool.not_eq_true'] using hd.2
          exact ⟨_, Numeral.ofText?_eq_some_iff.2 ⟨hd.1, ha, leading_of_all ha⟩, by omega, rfl⟩
        · cases h
  · rintro ⟨n, hn, hle, rfl⟩
    obtain ⟨hne, ha, hv⟩ := Numeral.ofText?_eq_some_iff.1 hn
    have hl : leading (split t).1 (split t).2 = n := by rw [leading_of_all ha, hv]
    have hany : ((split t).2.any fun c => (Numeral.digit? (split t).1 c).isNone) = false := by
      rw [List.all_eq_not_any_not] at ha
      simpa using ha
    have hsize : ¬ UInt32.size ≤ n := by simp only [UInt32.size]; omega
    have h256 : n < 256 := by omega
    simp [hl, hsize, hne, hany, h256]

theorem split_hex {t : Text} (h : '+' ∉ t) : split ('0' :: 'x' :: t) = (16, t) := by
  simp only [split]
  split
  · exact absurd (List.mem_cons_self ..) h
  · rfl

theorem split_binary {t : Text} (h : '+' ∉ t) : split ('0' :: 'b' :: t) = (2, t) := by
  simp only [split]
  split
  · exact absurd (List.mem_cons_self ..) h
  · rfl

theorem split_decimal {t : Text} (hx : ∀ rest, t ≠ '0' :: 'x' :: rest)
    (hb : ∀ rest, t ≠ '0' :: 'b' :: rest) (h : '+' ∉ t) : split t = (10, t) := by
  unfold split
  split
  · next radix rest he =>
    split at he
    · next rest => exact absurd rfl (hx rest)
    · next rest => exact absurd rfl (hb rest)
    · cases he
      split
      · exact absurd (List.mem_cons_self ..) h
      · rfl

/-- A piece that is a literal has no sign. -/
theorem value?_eq_of_isByteLiteral {t : Text} (h : Pattern.isByteLiteral t = true) :
    value? t = Numeral.ofText? (split t).1 (split t).2 := by
  have hplus : '+' ∉ t := fun hc => by
    have := Pattern.digit_of_isByteLiteral h hc
    exact absurd this (by decide)
  simp only [value?]
  split
  · next digits => rw [split_hex fun hc => hplus (by simp [hc])]
  · next digits => rw [split_binary fun hc => hplus (by simp [hc])]
  · next hx hb => rw [split_decimal (fun rest he => hx rest he) (fun rest he => hb rest he) hplus]

theorem parse_eq_ok_iff_value? {t : Text} (h : Pattern.isByteLiteral t = true) {b : Byte} :
    parse t = .ok b ↔ ∃ n, value? t = some n ∧ n ≤ 255 ∧ b = .ofNat n := by
  rw [value?_eq_of_isByteLiteral h, parse_eq_ok_iff]

variable {radix : Nat} {digits : Text}

/-- With one more digit in front of it, the same wrong character is no longer reached. -/
example : parse "429496729x".toList = .error (.byteInvalidSyntax "429496729x".toList) ∧
    parse "4294967296x".toList = .error (.byteOutOfRange "4294967296x".toList) :=
  ⟨rfl, rfl⟩

end ByteLiteral

end Octet
