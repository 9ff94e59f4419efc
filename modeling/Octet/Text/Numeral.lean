import Octet.Text.Blank

/-! # Numerals

Digits of a radix up to sixteen, and the number that a list of digits stands for. `fixed` writes a
number with a given count of digits, `padded` with zeros before those that it needs (the same where
the number fits, `padded_eq_fixed`), `decimal` with as few as it needs; reading gives the number back
(`value_digits`, `ofDecimal?_decimal`).
-/

namespace Octet.Numeral

/-- The worth of a digit; letters of either case count from ten. -/
def digit? (radix : Nat) (c : Char) : Option Nat :=
  let worth :=
    if '0' ≤ c ∧ c ≤ '9' then some (c.toNat - '0'.toNat)
    else if 'a' ≤ c ∧ c ≤ 'f' then some (c.toNat - 'a'.toNat + 10)
    else if 'A' ≤ c ∧ c ≤ 'F' then some (c.toNat - 'A'.toNat + 10)
    else none
  worth.filter (· < radix)

theorem digit?_digitChar {radix d : Nat} (hr : radix ≤ 16) (hd : d < radix) :
    digit? radix (Nat.digitChar d) = some d := by
  have worth : ∀ d < 16, digit? 16 (Nat.digitChar d) = some d := by decide
  have h := worth d (by omega)
  simp only [digit?, Option.filter_eq_some_iff, decide_eq_true_eq] at h ⊢
  exact ⟨h.1, hd⟩

def value (radix : Nat) (ds : List Nat) : Nat := ds.foldl (fun n d => n * radix + d) 0

theorem foldl_value (radix n : Nat) (ds : List Nat) :
    ds.foldl (fun n d => n * radix + d) n = n * Nat.pow radix ds.length + value radix ds := by
  induction ds generalizing n with
  | nil => simp [value]
  | cons d ds ih =>
    simp only [value, List.foldl_cons, List.length_cons] at ih ⊢
    rw [ih (n * radix + d), ih (0 * radix + d)]
    simp only [Nat.pow_eq, Nat.pow_succ', Nat.add_mul, Nat.mul_assoc, Nat.zero_mul, Nat.zero_add,
      Nat.add_assoc]

@[simp] theorem value_nil (radix : Nat) : value radix [] = 0 := rfl

theorem value_cons (radix d : Nat) (ds : List Nat) :
    value radix (d :: ds) = d * Nat.pow radix ds.length + value radix ds := by
  rw [value, List.foldl_cons, foldl_value, Nat.zero_mul, Nat.zero_add]

/-- The last `width` digits of `n`. -/
def digits (radix : Nat) : (width : Nat) → (n : Nat) → List Nat
  | 0, _ => []
  | width + 1, n => n / Nat.pow radix width % radix :: digits radix width n

@[simp] theorem length_digits (radix width n : Nat) : (digits radix width n).length = width := by
  induction width with
  | zero => rfl
  | succ width ih => simp [digits, ih]

theorem value_digits (radix width n : Nat) :
    value radix (digits radix width n) = n % Nat.pow radix width := by
  induction width with
  | zero => simp [digits, Nat.mod_one]
  | succ width ih =>
    simp only [digits, value_cons, length_digits, ih, Nat.pow_eq, Nat.pow_succ]
    rw [Nat.mod_mul, Nat.mul_comm, Nat.add_comm]

theorem digits_lt {radix width n : Nat} (h : 0 < radix) : ∀ d ∈ digits radix width n, d < radix := by
  induction width with
  | zero => simp [digits]
  | succ width ih =>
    simp only [digits, List.mem_cons, forall_eq_or_imp]
    exact ⟨Nat.mod_lt _ h, ih⟩

theorem digits_add (radix m k n : Nat) :
    digits radix (m + k) n = digits radix m (n / Nat.pow radix k) ++ digits radix k n := by
  induction m with
  | zero => simp [digits]
  | succ m ih =>
    rw [Nat.succ_add]
    simp only [digits, ih, List.cons_append, List.cons.injEq, and_true, Nat.pow_eq]
    rw [Nat.div_div_eq_div_mul, ← Nat.pow_add, Nat.add_comm]

def fixed (radix width n : Nat) : Text := (digits radix width n).map Nat.digitChar

@[simp] theorem length_fixed (radix width n : Nat) : (fixed radix width n).length = width := by
  simp [fixed]

theorem mapM_digit?_fixed {radix width n : Nat} (h0 : 0 < radix) (h1 : radix ≤ 16) :
    (fixed radix width n).mapM (digit? radix) = some (digits radix width n) := by
  induction width with
  | zero => rfl
  | succ width ih =>
    have hd := digit?_digitChar h1 (Nat.mod_lt (n / radix ^ width) h0)
    simp only [fixed] at ih
    simp [fixed, digits, hd, ih]

theorem fixed_add (radix m k n : Nat) :
    fixed radix (m + k) n = fixed radix m (n / Nat.pow radix k) ++ fixed radix k n := by
  simp [fixed, digits_add]

theorem fixed_inj {radix width m n : Nat} (h0 : 0 < radix) (h1 : radix ≤ 16)
    (hm : m < Nat.pow radix width) (hn : n < Nat.pow radix width) :
    fixed radix width m = fixed radix width n ↔ m = n := by
  refine ⟨fun h => ?_, fun h => h ▸ rfl⟩
  have he := (mapM_digit?_fixed (n := m) h0 h1).symm.trans
    ((congrArg _ h).trans (mapM_digit?_fixed h0 h1))
  have hv := congrArg (value radix) (Option.some.inj he)
  rwa [value_digits, value_digits, Nat.mod_eq_of_lt hm, Nat.mod_eq_of_lt hn] at hv

/-- A number with as few digits as it needs and zeros before them, so that it is at least `width`
long. -/
def padded (radix width n : Nat) : Text :=
  List.replicate (width - (Nat.toDigits radix n).length) '0' ++ Nat.toDigits radix n

/-- A number that fits the width is written with that many digits. Not so for a width of nothing, since
zero has a digit. -/
theorem padded_eq_fixed {radix width n : Nat} (h1 : 1 < radix) (hw : 0 < width)
    (hn : n < Nat.pow radix width) : padded radix width n = fixed radix width n := by
  induction width generalizing n with
  | zero => exact absurd hw (Nat.lt_irrefl 0)
  | succ width ih =>
    have hlast : fixed radix (width + 1) n =
        fixed radix width (n / radix) ++ [Nat.digitChar (n % radix)] := by
      rw [fixed_add, Nat.pow_eq, Nat.pow_one]
      simp [fixed, digits, Nat.div_one]
    have hdiv : n / radix < Nat.pow radix width := by
      rw [Nat.pow_eq, Nat.pow_succ, ← Nat.pow_eq] at hn
      exact Nat.div_lt_of_lt_mul (by rwa [Nat.mul_comm])
    rcases Nat.eq_zero_or_pos width with rfl | hpos
    · have hlt : n < radix := by simpa using hn
      rw [padded, Nat.toDigits_of_lt_base hlt, hlast, Nat.mod_eq_of_lt hlt]
      rfl
    · rw [hlast, ← ih hpos hdiv, padded, padded]
      rcases Nat.lt_or_ge n radix with hlt | hge
      · obtain ⟨w, rfl⟩ : ∃ w, width = w + 1 := ⟨width - 1, by omega⟩
        rw [Nat.toDigits_of_lt_base hlt, Nat.div_eq_of_lt hlt, Nat.toDigits_zero,
          Nat.mod_eq_of_lt hlt]
        simp [List.replicate_succ']
      · rw [Nat.toDigits_of_base_le h1 hge, List.length_append, List.length_singleton,
          Nat.add_sub_add_right, List.append_assoc]

theorem pow_two (n : Nat) : Nat.pow 2 n = 1 <<< n := (Nat.one_shiftLeft n).symm

theorem div_pow_two (m n : Nat) : m / Nat.pow 2 n = m >>> n := (Nat.shiftRight_eq_div_pow m n).symm

def decimal (n : Nat) : Text := Nat.toDigits 10 n

theorem isDigit_of_mem_decimal {n : Nat} : ∀ c ∈ decimal n, c.isDigit = true := by
  intro c hc
  exact Nat.isDigit_of_mem_toDigits (by decide) (by decide) hc

/-- The number that a text of decimal digits stands for, leading zeros allowed. -/
def ofDecimal? (t : Text) : Option Nat :=
  if t ≠ [] ∧ t.all Char.isDigit then some (Nat.ofDigitChars 10 t 0) else none

theorem ofDecimal?_decimal (n : Nat) : ofDecimal? (decimal n) = some n := by
  have hd : (Nat.toDigits 10 n).all Char.isDigit = true := List.all_eq_true.2 isDigit_of_mem_decimal
  simp [ofDecimal?, decimal, hd, Nat.toDigits_ne_nil, Nat.ofDigitChars_toDigits]

end Octet.Numeral
