import Octet.Image
import Octet.Machine.Clock

/-! # Loading and running

A load stores the bytes of an image through the bus, and the first one that no device accepts halts
the machine. A run clocks the machine until it halts or a number of clocks is spent; it is carried
out with the outcome so far at hand (`runFrom`), and by that amounts to clocking once and running on
(`run_succ`).
-/

namespace Octet

structure RunOutcome where
  clocks : Nat
  /-- Every diagnostic with the address at which its clock began. -/
  diagnostics : List (Address × Diagnostic)
  running : Bool
deriving DecidableEq, Repr

namespace Machine

variable {δ : Type} [Device δ]

/-- Stores the entries up to the first one that is not accepted: the diagnostics raised, and the
fault if there was one. -/
def store : Image → Bus δ → List Diagnostic × Option Fault × Bus δ
  | [], bus => ([], none, bus)
  | e :: es, bus =>
    let (t, bus) := bus.write e.address e.byte
    match t.result with
    | .ok () =>
      let (raised, fault?, bus) := store es bus
      (t.raised ++ raised, fault?, bus)
    | .error f => (t.raised ++ [.fault f], some f, bus)

def load (image : Image) : Machine δ → StepReport × Machine δ
  | ⟨rs, bus, state⟩ =>
    let (raised, fault?, bus) := store image bus
    let state := match fault? with
      | some f => .halted (.fault f)
      | none => state
    (⟨rs.p, raised, state.isRunning⟩, ⟨rs, bus, state⟩)

def located (report : StepReport) : List (Address × Diagnostic) :=
  report.diagnostics.map (report.pc, ·)

def runFrom (clocks : Nat) (diagnostics : Array (Address × Diagnostic)) :
    (budget : Nat) → Machine δ → RunOutcome × Machine δ
  | 0, m => (⟨clocks, diagnostics.toList, m.isRunning⟩, m)
  | budget + 1, m =>
    if m.isRunning then
      let (report, m) := m.clock
      runFrom (clocks + 1) (diagnostics ++ located report) budget m
    else (⟨clocks, diagnostics.toList, false⟩, m)

def run (budget : Nat) (m : Machine δ) : RunOutcome × Machine δ := runFrom 0 #[] budget m

theorem runFrom_eq (clocks : Nat) (diagnostics : Array (Address × Diagnostic)) (budget : Nat)
    (m : Machine δ) :
    runFrom clocks diagnostics budget m =
      (⟨clocks + (m.run budget).1.clocks, diagnostics.toList ++ (m.run budget).1.diagnostics,
        (m.run budget).1.running⟩, (m.run budget).2) := by
  induction budget generalizing clocks diagnostics m with
  | zero => simp [run, runFrom]
  | succ budget ih =>
    by_cases h : m.isRunning
    · simp only [run, runFrom, h, ↓reduceIte]
      rw [ih (clocks + 1), ih (0 + 1)]
      simp [Nat.add_assoc]
    · simp [run, runFrom, h]

@[simp] theorem run_zero (m : Machine δ) : m.run 0 = (⟨0, [], m.isRunning⟩, m) := rfl

theorem run_of_halted {m : Machine δ} (h : m.isRunning = false) (budget : Nat) :
    m.run budget = (⟨0, [], false⟩, m) := by
  cases budget <;> simp [run, runFrom, h]

theorem run_succ {m : Machine δ} (h : m.isRunning = true) (budget : Nat) :
    m.run (budget + 1) =
      (⟨1 + (m.clock.2.run budget).1.clocks,
        located m.clock.1 ++ (m.clock.2.run budget).1.diagnostics,
        (m.clock.2.run budget).1.running⟩, (m.clock.2.run budget).2) := by
  rw [run, runFrom, if_pos h]
  simp [runFrom_eq]

end Machine

end Octet
