import Mathlib.Algebra.BigOperators.Group.List.Basic
import Mathlib.Data.Nat.Digits.Defs
import Octet.Proofs.Machine.Completion
import Octet.Proofs.Machine.Confinement
import Octet.Proofs.Machine.Runs

/-! # Carry chains

The carry is set by the calculating instructions and by nothing else. So it survives whatever stands
between two links of a chain of additions, which then add numbers of any length byte by byte, and
between two links of a chain of checksums, which tell the parity of any number of bytes.
-/

namespace Octet

namespace Opcode

def setsCarry : Opcode → Bool
  | .add | .addc | .sub | .subc | .shl | .shlc | .shr | .shrc | .cksm | .cksmc => true
  | _ => false

theorem c_completed {op : Opcode} (h : op.setsCarry = false) (bytes : List Byte) (rs : RegisterFile) :
    (op.completed bytes rs).c = rs.c := by
  cases op with
  | add | addc | sub | subc | shl | shlc | shr | shrc | cksm | cksmc => cases h
  | jmpc | jmpz | jmpq =>
    simp only [completed, RegisterFile.after]
    split <;> rfl
  | _ => rfl

theorem completed_of_setsCarry {op : Opcode} (h : op.setsCarry = true) (bytes : List Byte)
    (rs : RegisterFile) : op.completed bytes rs = rs.after op := by
  cases op with
  | add | addc | sub | subc | shl | shlc | shr | shrc | cksm | cksmc => rfl
  | _ => cases h

theorem demands_of_setsCarry {op : Opcode} (h : op.setsCarry = true) (rs : RegisterFile) :
    op.demands rs = [] := by
  cases op with
  | add | addc | sub | subc | shl | shlc | shr | shrc | cksm | cksmc => rfl
  | _ => cases h

end Opcode

namespace Arithmetic

theorem length_filter_testBit {width n : Nat} (h : n < 2 ^ width) :
    ((List.range width).filter n.testBit).length = (Nat.digits 2 n).count 1 := by
  induction width generalizing n with
  | zero =>
    obtain rfl : n = 0 := by simpa using h
    rfl
  | succ width ih =>
    have hhalf : n.testBit ∘ Nat.succ = (n / 2).testBit := funext fun i => Nat.testBit_succ n i
    have hdigits : (Nat.digits 2 n).count 1 = (Nat.digits 2 (n / 2)).count 1 + n % 2 := by
      rcases Nat.eq_zero_or_pos n with rfl | hpos
      · rfl
      · rw [Nat.digits_def' (by decide) hpos, List.count_cons]
        rcases Nat.mod_two_eq_zero_or_one n with hbit | hbit <;> simp [hbit]
    rw [hdigits, ← ih (by omega), List.range_succ_eq_map, List.filter_cons, List.filter_map, hhalf,
      Nat.testBit_zero]
    rcases Nat.mod_two_eq_zero_or_one n with hbit | hbit <;> simp [hbit]

theorem ones_eq (x : Byte) : ones x = (Nat.digits 2 x.toNat).count 1 :=
  length_filter_testBit x.toNat_lt

theorem toNat_parity (x : Byte) (carry : Bool) :
    (parity x carry).toNat = ((Nat.digits 2 x.toNat).count 1 + carry.toNat) % 2 := by
  rw [parity, ones_eq]
  obtain h | h := Nat.mod_two_eq_zero_or_one ((Nat.digits 2 x.toNat).count 1 + carry.toNat) <;>
    rw [h] <;> rfl

end Arithmetic

theorem mod_eq_and_carry_iff {rest base n : Nat} {carry : Bool} (hlt : rest < base)
    (h : rest + base * carry.toNat = n) : n % base = rest ∧ (carry = true ↔ base ≤ n) := by
  subst h
  rw [Nat.add_mul_mod_self_left, Nat.mod_eq_of_lt hlt]
  cases carry with
  | false => simpa using hlt
  | true => simp

theorem ofDigits_div_pow_mod {ds : List Nat} (h : ∀ d ∈ ds, d < 256) {i d : Nat} (hd : ds[i]? = some d) :
    Nat.ofDigits 256 ds / 256 ^ i % 256 = d := by
  obtain ⟨hi, rfl⟩ := List.getElem?_eq_some_iff.1 hd
  rw [Nat.ofDigits_div_pow_eq_ofDigits_drop i (by decide) ds h, List.drop_eq_getElem_cons hi,
    Nat.ofDigits_cons, Nat.add_mul_mod_self_left]
  exact Nat.mod_eq_of_lt (h _ (List.getElem_mem hi))

namespace Machine

theorem fault?_of_isRunning {δ : Type} {m : Machine δ} (h : m.isRunning = true) :
    m.state.fault? = none := by
  obtain ⟨rs, bus, state⟩ := m
  cases state with
  | running => rfl
  | halted reason => cases h

variable {δ : Type} [Device δ] {m m' : Machine δ} {ms : List (Machine δ)}

/-- The next clock carries out an instruction that does not set the carry, and the machine runs on. -/
def SparesCarry (m : Machine δ) : Prop :=
  ∃ op, m.instruction? = some op ∧ op.setsCarry = false ∧ m.clock.2.isRunning = true

/-- Any number of such clocks lead from the one machine to the other. -/
def Leads (m m' : Machine δ) : Prop :=
  ∃ k, m' = m.clocked k ∧ ∀ i < k, (m.clocked i).SparesCarry

theorem c_clock_of_sparesCarry (h : m.SparesCarry) : m.clock.2.registers.c = m.registers.c := by
  obtain ⟨op, hop, hspares, hrunning⟩ := h
  rw [(completed_clock hop (fault?_of_isRunning hrunning)).1, Opcode.c_completed hspares]
  rfl

theorem leads_of_sparesCarry (h : m.SparesCarry) : m.Leads (m.clocked 1) := by
  refine ⟨1, rfl, fun i hi => ?_⟩
  obtain rfl : i = 0 := Nat.lt_one_iff.1 hi
  exact h

theorem c_of_leads (h : m.Leads m') : m'.registers.c = m.registers.c := by
  obtain ⟨k, rfl, hspares⟩ := h
  induction k generalizing m with
  | zero => rfl
  | succ k ih =>
    rw [clocked, ih fun i hi => hspares (i + 1) (Nat.succ_lt_succ hi)]
    exact c_clock_of_sparesCarry (hspares 0 (Nat.succ_pos k))

theorem isRunning_of_instruction? {op : Opcode} (hop : m.instruction? = some op) :
    m.isRunning = true := by
  obtain ⟨rs, bus, state⟩ := m
  cases state with
  | running => rfl
  | halted reason => cases hop

/-- An instruction that uses the bus for nothing but its own byte cannot fail once that has been read. -/
theorem fault?_clock_of_no_demand {op : Opcode} (hop : m.instruction? = some op)
    (h : op.demands (m.registers.advance 1) = []) : m.clock.2.state.fault? = none := by
  cases course (isRunning_of_instruction? hop) with
  | completed op' hop' hserve hstate => exact hstate
  | unfetched hop' => cases hop.symm.trans hop'
  | undecoded byte hop' => cases hop.symm.trans hop'
  | interrupted op' granted r hop' hserve =>
    obtain rfl : op = op' := Option.some.inj (hop.symm.trans hop')
    have hprefix := prefix_of_interrupted hop hserve
    rw [h, List.prefix_nil] at hprefix
    exact absurd hprefix (List.append_ne_nil_of_right_ne_nil _ (List.cons_ne_nil _ _))

theorem registers_clock_of_setsCarry {op : Opcode} (hop : m.instruction? = some op)
    (h : op.setsCarry = true) : m.clock.2.registers = (m.registers.advance 1).after op := by
  have hok := fault?_clock_of_no_demand hop (Opcode.demands_of_setsCarry h _)
  rw [(completed_clock hop hok).1, Opcode.completed_of_setsCarry h]

theorem add_clock (hop : m.instruction? = some .add) :
    m.clock.2.registers.a.toNat + 256 * m.clock.2.registers.c.toNat =
      m.registers.a.toNat + m.registers.b.toNat := by
  rw [registers_clock_of_setsCarry hop rfl]
  exact Arithmetic.add_spec m.registers.a m.registers.b false

theorem addc_clock (hop : m.instruction? = some .addc) :
    m.clock.2.registers.a.toNat + 256 * m.clock.2.registers.c.toNat =
      m.registers.a.toNat + m.registers.b.toNat + m.registers.c.toNat := by
  rw [registers_clock_of_setsCarry hop rfl]
  exact Arithmetic.add_spec m.registers.a m.registers.b m.registers.c

theorem cksm_clock (hop : m.instruction? = some .cksm) :
    m.clock.2.registers.c.toNat = (Nat.digits 2 m.registers.a.toNat).count 1 % 2 := by
  rw [registers_clock_of_setsCarry hop rfl]
  exact Arithmetic.toNat_parity m.registers.a false

theorem cksmc_clock (hop : m.instruction? = some .cksmc) : m.clock.2.registers.c.toNat =
    ((Nat.digits 2 m.registers.a.toNat).count 1 + m.registers.c.toNat) % 2 := by
  rw [registers_clock_of_setsCarry hop rfl]
  exact Arithmetic.toNat_parity m.registers.a m.registers.c

/-- The machines stand one after the other in front of an instruction that continues the chain which
the first machine is a link of. -/
inductive Chained (further : Opcode) : Machine δ → List (Machine δ) → Prop
  | last (m : Machine δ) : Chained further m []
  | link {m m' : Machine δ} {ms : List (Machine δ)} (hleads : m.clock.2.Leads m')
    (hop : m'.instruction? = some further) (h : Chained further m' ms) : Chained further m (m' :: ms)

/-- The further links of an addition add their numbers and the carry of the link before them. -/
theorem sum_of_chained (h : Chained .addc m ms) :
    Nat.ofDigits 256 (ms.map (·.clock.2.registers.a.toNat)) +
        256 ^ ms.length * (ms.getLastD m).clock.2.registers.c.toNat =
      Nat.ofDigits 256 (ms.map (·.registers.a.toNat)) +
        Nat.ofDigits 256 (ms.map (·.registers.b.toNat)) + m.clock.2.registers.c.toNat := by
  induction h with
  | last m => simp
  | @link m m' ms hleads hop h ih =>
    have hlink := addc_clock hop
    rw [c_of_leads hleads] at hlink
    simp only [List.map_cons, Nat.ofDigits_cons, List.length_cons, List.getLastD_cons, pow_succ',
      mul_assoc]
    omega

/-- The further links of a checksum add their one bits to the parity of the link before them. -/
theorem parity_of_chained (h : Chained .cksmc m ms) :
    (ms.getLastD m).clock.2.registers.c.toNat =
      ((ms.map fun l => (Nat.digits 2 l.registers.a.toNat).count 1).sum +
        m.clock.2.registers.c.toNat) % 2 := by
  induction h with
  | last m =>
    have hlt := Bool.toNat_lt m.clock.2.registers.c
    simp
    omega
  | @link m m' ms hleads hop h ih =>
    have hlink := cksmc_clock hop
    rw [c_of_leads hleads] at hlink
    rw [List.getLastD_cons, ih, hlink, List.map_cons, List.sum_cons]
    omega

/-- The links of an addition leave the bytes of a number, which with the last carry is the sum. -/
theorem sum_of_add (hop : m.instruction? = some .add) (h : Chained .addc m ms) :
    Nat.ofDigits 256 ((m :: ms).map (·.clock.2.registers.a.toNat)) +
        256 ^ (m :: ms).length * (ms.getLastD m).clock.2.registers.c.toNat =
      Nat.ofDigits 256 ((m :: ms).map (·.registers.a.toNat)) +
        Nat.ofDigits 256 ((m :: ms).map (·.registers.b.toNat)) := by
  have hfirst := add_clock hop
  have hfurther := sum_of_chained h
  simp only [List.map_cons, Nat.ofDigits_cons, List.length_cons, pow_succ', mul_assoc]
  omega

theorem parity_of_cksm (hop : m.instruction? = some .cksm) (h : Chained .cksmc m ms) :
    (ms.getLastD m).clock.2.registers.c.toNat =
      ((m :: ms).map fun l => (Nat.digits 2 l.registers.a.toNat).count 1).sum % 2 := by
  rw [parity_of_chained h, cksm_clock hop, List.map_cons, List.sum_cons]
  omega

/-- A chain of additions puts into `a`, one after the other, the bytes of the sum of two numbers that
are as long as the chain, and its last carry tells that the sum is longer. The last carry of a chain
of checksums tells that its bytes have, in binary, an odd number of ones among all their digits. -/
theorem carry_chains (m : Machine δ) (ms : List (Machine δ)) :
    let links := m :: ms
    let carry := (ms.getLastD m).clock.2.registers.c
    (m.instruction? = some .add → Chained .addc m ms →
      let x := Nat.ofDigits 256 (links.map (·.registers.a.toNat))
      let y := Nat.ofDigits 256 (links.map (·.registers.b.toNat))
      (∀ i l, links[i]? = some l → l.clock.2.registers.a.toNat =
        (x + y) % 256 ^ links.length / 256 ^ i % 256) ∧
      (carry = true ↔ 256 ^ links.length ≤ x + y)) ∧
    (m.instruction? = some .cksm → Chained .cksmc m ms →
      (carry = true ↔
        (links.map fun l => (Nat.digits 2 l.registers.a.toNat).count 1).sum % 2 = 1)) := by
  intro links carry
  refine ⟨fun hop h => ?_, fun hop h => ?_⟩
  · intro x y
    have hbytes : ∀ d ∈ links.map (·.clock.2.registers.a.toNat), d < 256 :=
      List.forall_mem_map.2 fun l _ => UInt8.toNat_lt l.clock.2.registers.a
    have hlt := Nat.ofDigits_lt_base_pow_length (by decide) hbytes
    rw [List.length_map] at hlt
    obtain ⟨hmod, hcarry⟩ := mod_eq_and_carry_iff hlt (sum_of_add hop h)
    refine ⟨fun i l hl => ?_, hcarry⟩
    rw [hmod]
    refine (ofDigits_div_pow_mod hbytes ?_).symm
    rw [List.getElem?_map, hl]
    rfl
  · have hparity := parity_of_cksm hop h
    rw [← hparity]
    exact Bool.toNat_eq_one.symm

/-- The bytes 200 and 2 plus the bytes 100 and 255, where the first sum is stored before the second pair
is loaded, and behind them the one bits of 7 and 1, which are even in number until those of 2 join
them. -/
theorem carry_chains_stored :
    let memory : Memory := ⟨5, #[13, 200, 14, 100, 20, 4, 13, 2, 14, 255, 21, 13, 7, 34, 13, 1, 35,
      13, 2, 35, 0, 0, 0, 0, 0, 0, 0, 0, 0, 0, 0, 0], by decide, by decide, rfl⟩
    let start : Machine Memory := .ofDevices [memory]
    let low := start.clocked 2
    let high := low.clock.2.clocked 3
    let seven := high.clock.2.clocked 1
    let one := seven.clock.2.clocked 1
    let two := one.clock.2.clocked 1
    low.instruction? = some .add ∧ Chained .addc low [high] ∧
      low.clock.2.registers.a.toNat = 44 ∧ high.clock.2.registers.a.toNat = 2 ∧
      high.clock.2.registers.c = true ∧
    seven.instruction? = some .cksm ∧ Chained .cksmc seven [one] ∧
      one.clock.2.registers.c = false ∧
    Chained .cksmc seven [one, two] ∧ two.clock.2.registers.c = true := by
  intro memory start low high seven one two
  have hadd : low.instruction? = some .add := by decide +kernel
  have haddc : Chained .addc low [high] := by
    refine .link ⟨3, rfl, fun i hi => ?_⟩ (by decide +kernel) (.last high)
    match i, hi with
    | 0, _ => exact ⟨.sta, by decide +kernel, rfl, by decide +kernel⟩
    | 1, _ => exact ⟨.cla, by decide +kernel, rfl, by decide +kernel⟩
    | 2, _ => exact ⟨.clb, by decide +kernel, rfl, by decide +kernel⟩
  have hcksm : seven.instruction? = some .cksm := by decide +kernel
  have hone : seven.clock.2.Leads one :=
    leads_of_sparesCarry ⟨.cla, by decide +kernel, rfl, by decide +kernel⟩
  have htwo : one.clock.2.Leads two :=
    leads_of_sparesCarry ⟨.cla, by decide +kernel, rfl, by decide +kernel⟩
  have heven : Chained .cksmc seven [one] := .link hone (by decide +kernel) (.last one)
  have hodd : Chained .cksmc seven [one, two] :=
    .link hone (by decide +kernel) (.link htwo (by decide +kernel) (.last two))
  obtain ⟨hbytes, hcarry⟩ := (carry_chains low [high]).1 hadd haddc
  have hfalse := (carry_chains seven [one]).2 hcksm heven
  have htrue := (carry_chains seven [one, two]).2 hcksm hodd
  rw [List.getLastD_cons, List.getLastD_nil] at hcarry hfalse
  rw [List.getLastD_cons, List.getLastD_cons, List.getLastD_nil] at htrue
  refine ⟨hadd, haddc, (hbytes 0 low rfl).trans ?_, (hbytes 1 high rfl).trans ?_, hcarry.2 ?_, hcksm,
    heven, Bool.eq_false_iff.2 (mt hfalse.1 ?_), hodd, htrue.2 ?_⟩
  · decide +kernel
  · decide +kernel
  · decide +kernel
  · decide +kernel
  · decide +kernel

end Machine

end Octet
