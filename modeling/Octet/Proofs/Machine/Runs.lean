import Octet.Proofs.Machine.Diagnostics

/-! # Runs as clocks

A run with a budget is the clocks of the machine one by one, as long as the machine runs and the
budget lasts. So two runs one behind the other are one run with both budgets, also if the first of
them halts the machine, and if it does so with its last clock.
-/

namespace Octet

def RunOutcome.followedBy (first second : RunOutcome) : RunOutcome :=
  ⟨first.clocks + second.clocks, first.diagnostics ++ second.diagnostics, second.running⟩

namespace Machine

variable {δ : Type} [Device δ]

/-- The machine behind `k` clocks. -/
def clocked (m : Machine δ) : Nat → Machine δ
  | 0 => m
  | k + 1 => m.clock.2.clocked k

/-- The diagnostics of the clocks up to the one numbered `k`, each with the program counter in front
of its own clock. -/
def said (m : Machine δ) (k : Nat) : List (Address × Diagnostic) :=
  (List.range k).flatMap fun i =>
    (m.clocked i).clock.1.diagnostics.map ((m.clocked i).registers.p, ·)

theorem said_succ (m : Machine δ) (k : Nat) :
    m.said (k + 1) = m.clock.1.diagnostics.map (m.registers.p, ·) ++ m.clock.2.said k := by
  rw [said, List.range_succ_eq_map, List.flatMap_cons, List.flatMap_map]
  rfl

/-- A run makes `made` clocks, which are all that the machine is fit for and the budget allows. -/
structure Clocks (m : Machine δ) (budget made : Nat) : Prop where
  le : made ≤ budget
  running : ∀ i < made, (m.clocked i).isRunning = true
  halted : made < budget → (m.clocked made).isRunning = false
  run : m.run budget = (⟨made, m.said made, (m.clocked made).isRunning⟩, m.clocked made)

theorem clocks_zero (m : Machine δ) : m.Clocks 0 0 :=
  ⟨Nat.le_refl 0, fun _ hi => absurd hi (Nat.not_lt_zero _),
    fun h => absurd h (Nat.lt_irrefl 0), rfl⟩

theorem clocks_of_halted {m : Machine δ} (h : m.isRunning = false) (budget : Nat) :
    m.Clocks budget 0 := by
  refine ⟨Nat.zero_le _, fun _ hi => absurd hi (Nat.not_lt_zero _), fun _ => h, ?_⟩
  rw [run_of_halted h, clocked, h]
  rfl

theorem Clocks.succ {m : Machine δ} {budget made : Nat} (hm : m.isRunning = true)
    (h : m.clock.2.Clocks budget made) : m.Clocks (budget + 1) (made + 1) := by
  refine ⟨Nat.succ_le_succ h.le, fun i hi => ?_, fun hlt => ?_, ?_⟩
  · cases i with
    | zero => exact hm
    | succ i => exact h.running i (Nat.lt_of_succ_lt_succ hi)
  · exact h.halted (Nat.lt_of_succ_lt_succ hlt)
  · rw [run_succ hm, h.run, said_succ, located, pc_clock hm, Nat.add_comm 1]
    rfl

theorem exists_clocks (m : Machine δ) (budget : Nat) : ∃ made, m.Clocks budget made := by
  induction budget generalizing m with
  | zero => exact ⟨0, m.clocks_zero⟩
  | succ budget ih =>
    cases hm : m.isRunning with
    | false => exact ⟨0, clocks_of_halted hm _⟩
    | true =>
      obtain ⟨made, h⟩ := ih m.clock.2
      exact ⟨made + 1, h.succ hm⟩

theorem run_add (m : Machine δ) (j k : Nat) :
    m.run (j + k) = ((m.run j).1.followedBy ((m.run j).2.run k).1, ((m.run j).2.run k).2) := by
  induction j generalizing m with
  | zero => simp [RunOutcome.followedBy]
  | succ j ih =>
    cases hm : m.isRunning with
    | false => simp [run_of_halted hm, RunOutcome.followedBy]
    | true =>
      rw [Nat.succ_add, run_succ hm, ih, run_succ hm]
      simp [RunOutcome.followedBy, Nat.add_assoc]

/-- Two runs one behind the other are one run with both budgets: they leave the same machine, their
clocks add up, and their diagnostics are joined. A run is the clocks of the machine one by one, until
it halts or the budget is spent, and tells whether the machine still runs. -/
theorem runs_compose (m : Machine δ) :
    (∀ j k, m.run (j + k) =
      ((m.run j).1.followedBy ((m.run j).2.run k).1, ((m.run j).2.run k).2)) ∧
    ∀ budget, (∃ made, m.Clocks budget made) ∧ (m.run budget).1.clocks ≤ budget ∧
      ((m.run budget).1.clocks < budget → (m.run budget).2.isHalted = true) ∧
      (m.run budget).1.running = !(m.run budget).2.isHalted := by
  refine ⟨m.run_add, fun budget => ?_⟩
  obtain ⟨made, h⟩ := m.exists_clocks budget
  refine ⟨⟨made, h⟩, ?_⟩
  rw [h.run]
  refine ⟨h.le, fun hlt => ?_, ?_⟩
  · simp [isHalted, h.halted hlt]
  · simp [isHalted]

/-- The first run halts the machine with its last clock, and the second makes none. -/
example :
    let m : Machine Memory := .ofDevices [⟨1, #[1, 0], by decide, by decide, rfl⟩]
    (m.run 2).1.running = false ∧ (m.run (2 + 3)).1 = (m.run 2).1 := by
  decide +kernel

end Machine

end Octet
