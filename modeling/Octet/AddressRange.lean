import Octet.ConfigError
import Octet.Text.Numeral
import Octet.Word

/-! # Address ranges

A range holds the addresses that begin with given binary digits, at most sixteen of them. It is
written as those digits: reading what is written gives the range back (`ofText_text`), what was read
is written as it was (`text_ofText`), and an address is covered when the digits of the range come
first in its own sixteen (`covers_iff`).
-/

namespace Octet

structure AddressRange where
  length : Nat
  /-- The digits as a number. -/
  bits : UInt16
  length_le : length ≤ 16
  bits_lt : bits.toNat < 1 <<< length
deriving DecidableEq, Repr

namespace AddressRange

def any : AddressRange := ⟨0, 0, by decide, by decide⟩

/-- Whether the address begins with the digits of the range. A word cannot be shifted by all its digits,
so the range of none is apart. -/
def covers (r : AddressRange) (a : Address) : Bool :=
  r.length == 0 || a >>> .ofNat (16 - r.length) == r.bits

@[simp] theorem covers_any (a : Address) : any.covers a = true := rfl

theorem covers_iff_shiftRight (r : AddressRange) (a : Address) :
    r.covers a = true ↔ a.toNat >>> (16 - r.length) = r.bits.toNat := by
  obtain ⟨n, b, hn, hb⟩ := r
  have ha := a.toNat_lt
  simp only [covers, Bool.or_eq_true, beq_iff_eq]
  rcases Nat.eq_zero_or_pos n with rfl | hpos
  · have hz : b.toNat = 0 := by simpa using hb
    have hq : a.toNat >>> 16 = 0 := by omega
    simp [hz, hq]
  · have hs : (UInt16.ofNat (16 - n)).toNat % 16 = 16 - n := by
      simp only [UInt16.toNat_ofNat']
      omega
    rw [← UInt16.toNat_inj, UInt16.toNat_shiftRight, hs]
    simp only [or_iff_right_iff_imp]
    omega

theorem toNat_shift_or {b : UInt16} (hb : b.toNat < 32768) (digit : Bool) :
    (b <<< 1 ||| digit.toUInt16).toNat = b.toNat * 2 + digit.toNat := by
  have hd : digit.toUInt16.toNat = digit.toNat := by cases digit <;> rfl
  have hs : (b <<< 1).toNat = b.toNat <<< 1 := by
    have h1 : (1 : UInt16).toNat % 16 = 1 := rfl
    rw [UInt16.toNat_shiftLeft, h1]
    omega
  rw [UInt16.toNat_or, hs, hd, ← Nat.shiftLeft_add_eq_or_of_lt (by cases digit <;> decide)]
  omega

theorem bits_lt_of_length_lt {r : AddressRange} (h : r.length < 16) : r.bits.toNat < 32768 := by
  have hp : 1 <<< r.length ≤ 1 <<< 15 := by
    rw [Nat.one_shiftLeft, Nat.one_shiftLeft]
    exact Nat.pow_le_pow_right (by decide) (by omega)
  exact Nat.lt_of_lt_of_le r.bits_lt hp

def extend (r : AddressRange) (digit : Bool) (h : r.length < 16) : AddressRange where
  length := r.length + 1
  bits := r.bits <<< 1 ||| digit.toUInt16
  length_le := h
  bits_lt := by
    have hr := r.bits_lt
    have hd := digit.toNat_lt
    rw [toNat_shift_or (bits_lt_of_length_lt h), Nat.shiftLeft_succ]
    omega

def digit? : Char → Option Bool
  | '0' => some false
  | '1' => some true
  | _ => none

def readFrom : (r : AddressRange) → (t : Text) → r.length + t.length ≤ 16 → Option AddressRange
  | r, [], _ => some r
  | r, c :: t, h =>
    match digit? c with
    | some digit =>
      readFrom (r.extend digit (by simp only [List.length_cons] at h; omega)) t
        (by simp only [List.length_cons] at h; simp only [extend]; omega)
    | none => none

/-- The digits of the range, zeros at its beginning included. -/
def text (r : AddressRange) : Text :=
  if r.length = 0 then [] else Numeral.padded 2 r.length r.bits.toNat

/-- Reads a range. A text of more than sixteen bytes is too long, whatever its characters. -/
def ofText (t : Text) : Except ConfigError AddressRange :=
  if h : t.utf8Size ≤ 16 then
    match readFrom any t (by have := t.length_le_utf8Size; simp only [any]; omega) with
    | some r => .ok r
    | none => .error (.rangeDigits t)
  else .error (.rangeLength t)

theorem text_eq (r : AddressRange) : r.text = Numeral.fixed 2 r.length r.bits.toNat := by
  rw [text]
  split
  · next h => simp [h, Numeral.fixed, Numeral.digits]
  · next h =>
    have hb : r.bits.toNat < Nat.pow 2 r.length := Numeral.pow_two _ ▸ r.bits_lt
    exact Numeral.padded_eq_fixed (by decide) (Nat.pos_of_ne_zero h) hb

@[simp] theorem length_text (r : AddressRange) : r.text.length = r.length := by simp [text_eq]

theorem text_inj {r s : AddressRange} (h : r.text = s.text) : r = s := by
  have hl : r.length = s.length := by rw [← length_text, h, length_text]
  obtain ⟨n, b, hn, hb⟩ := r
  obtain ⟨m, c, hm, hc⟩ := s
  obtain rfl : n = m := hl
  rw [text_eq, text_eq, Numeral.fixed_inj (by decide) (by decide) (Numeral.pow_two _ ▸ hb)
    (Numeral.pow_two _ ▸ hc), UInt16.toNat_inj] at h
  subst h
  rfl

theorem text_extend (r : AddressRange) (digit : Bool) (h : r.length < 16) :
    (r.extend digit h).text = r.text ++ [if digit then '1' else '0'] := by
  have hd := digit.toNat_lt
  have hdiv : (r.bits.toNat * 2 + digit.toNat) / Nat.pow 2 1 = r.bits.toNat := by
    rw [Nat.pow_eq, Nat.pow_one]
    omega
  have hlast : Numeral.fixed 2 1 (r.bits.toNat * 2 + digit.toNat) =
      [if digit then '1' else '0'] := by
    have hm : (r.bits.toNat * 2 + digit.toNat) % 2 = digit.toNat := by omega
    simp only [Numeral.fixed, Numeral.digits, Nat.pow_eq, Nat.pow_zero, Nat.div_one, hm]
    cases digit <;> rfl
  rw [text_eq, text_eq, extend, toNat_shift_or (bits_lt_of_length_lt h), Numeral.fixed_add, hdiv, hlast]

theorem eq_of_digit? {c : Char} {digit : Bool} (h : digit? c = some digit) :
    (if digit then '1' else '0') = c := by
  unfold digit? at h
  split at h <;> cases h <;> rfl

theorem text_of_readFrom {r s : AddressRange} {t : Text} {h : r.length + t.length ≤ 16}
    (hs : readFrom r t h = some s) : s.text = r.text ++ t := by
  induction t generalizing r with
  | nil =>
    cases hs
    exact (List.append_nil _).symm
  | cons c t ih =>
    simp only [readFrom] at hs
    cases hc : digit? c with
    | none => simp [hc] at hs
    | some digit =>
      simp only [hc] at hs
      rw [ih hs, text_extend, eq_of_digit? hc, List.append_assoc]
      rfl

theorem exists_readFrom_iff {r : AddressRange} {t : Text} (h : r.length + t.length ≤ 16) :
    (∃ s, readFrom r t h = some s) ↔ ∀ c ∈ t, c = '0' ∨ c = '1' := by
  induction t generalizing r with
  | nil => simp [readFrom]
  | cons c t ih =>
    simp only [readFrom, List.forall_mem_cons]
    cases hc : digit? c with
    | none =>
      have hne : ¬(c = '0' ∨ c = '1') := by rintro (rfl | rfl) <;> cases hc
      simp [hne]
    | some digit =>
      have hdigit : c = '0' ∨ c = '1' := by
        rw [← eq_of_digit? hc]
        cases digit <;> simp
      simp only [ih, hdigit, true_and]

theorem ofText_eq_ok_iff {t : Text} {r : AddressRange} :
    ofText t = .ok r ↔ t.utf8Size ≤ 16 ∧ ∃ h, readFrom any t h = some r := by
  simp only [ofText]
  split
  · next hl =>
    have hn : any.length + t.length ≤ 16 := by
      have := t.length_le_utf8Size
      simp only [any]
      omega
    cases hr : readFrom any t hn with
    | none => simp [hr]
    | some s => simp [hl, hn, hr]
  · next hl => simp [hl]

theorem text_ofText {t : Text} {r : AddressRange} (h : ofText t = .ok r) : r.text = t := by
  obtain ⟨-, _, hr⟩ := ofText_eq_ok_iff.1 h
  exact text_of_readFrom hr

theorem mem_text {r : AddressRange} : ∀ c ∈ r.text, c = '0' ∨ c = '1' := by
  intro c hc
  simp only [text_eq, Numeral.fixed, List.mem_map] at hc
  obtain ⟨d, hd, rfl⟩ := hc
  have h : d < 2 := Numeral.digits_lt (by decide) d hd
  obtain rfl | rfl : d = 0 ∨ d = 1 := by omega
  · exact .inl rfl
  · exact .inr rfl

theorem utf8Size_of_digits {t : Text} (h : ∀ c ∈ t, c = '0' ∨ c = '1') : t.utf8Size = t.length := by
  induction t with
  | nil => rfl
  | cons c t ih =>
    simp only [List.forall_mem_cons] at h
    have hc : c.utf8Size = 1 := by rcases h.1 with rfl | rfl <;> rfl
    rw [Text.utf8Size_cons, ih h.2, hc, List.length_cons, Nat.add_comm]

theorem ofText_text (r : AddressRange) : ofText r.text = .ok r := by
  have hl : any.length + r.text.length ≤ 16 := by simpa [any] using r.length_le
  obtain ⟨s, hs⟩ := (exists_readFrom_iff hl).2 mem_text
  obtain rfl : s = r := text_inj (text_of_readFrom hs)
  refine ofText_eq_ok_iff.2 ⟨?_, hl, hs⟩
  rw [utf8Size_of_digits mem_text, length_text]
  exact s.length_le

theorem covers_iff (r : AddressRange) (a : Address) :
    r.covers a = true ↔ r.text <+: Numeral.fixed 2 16 a.toNat := by
  have ha := a.toNat_lt
  have hs : 16 = r.length + (16 - r.length) := by have := r.length_le; omega
  have hq : a.toNat >>> (16 - r.length) < Nat.pow 2 r.length := by
    rw [← Numeral.div_pow_two, Nat.pow_eq, Nat.pow_eq]
    apply Nat.div_lt_of_lt_mul
    rw [← Nat.pow_add, Nat.add_comm, ← hs]
    exact ha
  have hb : r.bits.toNat < Nat.pow 2 r.length := Numeral.pow_two _ ▸ r.bits_lt
  have hf : Numeral.fixed 2 16 a.toNat =
      Numeral.fixed 2 r.length (a.toNat >>> (16 - r.length)) ++
        Numeral.fixed 2 (16 - r.length) a.toNat := by
    rw [← Numeral.div_pow_two, ← Numeral.fixed_add, ← hs]
  rw [hf, covers_iff_shiftRight, ← Numeral.fixed_inj (by decide) (by decide) hq hb, text_eq]
  constructor
  · intro h
    exact ⟨_, by rw [h]⟩
  · rintro ⟨rest, h⟩
    exact (List.append_inj_left h (by simp)).symm

end AddressRange

end Octet
