import Octet.MachineConfig
import Octet.Proofs.Bus.Transfer
import Octet.Proofs.Machine.Law

/-! # What is reported and what is so

Up to its end a clock raises nothing but warnings. What halts the machine is reported behind them,
and only then, so a report and the run state that it leaves tell the same of how the clock ended, and
in the diagnostics of a run only the last one can be anything but a warning.
-/

namespace Octet

def Warnings (ds : List Diagnostic) : Prop := ∀ d ∈ ds, d.severity = .warning

/-- What the diagnostics of a clock end with when it leaves the machine in the state. -/
def RunState.closing : RunState → List Diagnostic
  | .running => []
  | .halted .instruction => [.halting]
  | .halted (.fault f) => [.fault f]

theorem RunState.closing_of_isRunning {state : RunState} (h : state.isRunning = true) :
    state.closing = [] := by
  cases state with
  | running => rfl
  | halted _ => cases h

theorem RunState.exists_closing {state : RunState} (h : state.isRunning = false) :
    ∃ d, state.closing = [d] ∧ d.severity ≠ .warning := by
  cases state with
  | running => cases h
  | halted reason =>
    cases reason with
    | instruction => exact ⟨.halting, rfl, by decide⟩
    | fault f => exact ⟨.fault f, rfl, fun h => by cases h⟩

/-- The report of a clock tells the same as the run state in which the clock leaves the machine. -/
structure StepReport.Tells (report : StepReport) (state : RunState) : Prop where
  running : report.running = state.isRunning
  exists_fatal_iff : (∃ d ∈ report.diagnostics, d.isFatal = true) ↔ ∃ f, state = .halted (.fault f)
  fault : ∀ f, state = .halted (.fault f) →
    ∃ ws, Warnings ws ∧ report.diagnostics = ws ++ [.fault f]
  halting_mem_iff : .halting ∈ report.diagnostics ↔ state = .halted .instruction
  halting : state = .halted .instruction →
    ∃ ws, Warnings ws ∧ report.diagnostics = ws ++ [.halting]
  warnings : state = .running → Warnings report.diagnostics

theorem StepReport.tells {report : StepReport} {state : RunState} {ws : List Diagnostic}
    (hrunning : report.running = state.isRunning) (hws : Warnings ws)
    (h : report.diagnostics = ws ++ state.closing) : report.Tells state := by
  have hmem {d : Diagnostic} (hd : d.severity ≠ .warning) :
      d ∈ report.diagnostics ↔ d ∈ state.closing := by
    rw [h, List.mem_append]
    exact ⟨fun hor => hor.resolve_left fun hw => hd (hws d hw), .inr⟩
  refine ⟨hrunning, ?_, ?_, ?_, ?_, ?_⟩
  · constructor
    · rintro ⟨d, hd, hfatal⟩
      have hsev : d.severity = .fatal := by simpa [Diagnostic.isFatal] using hfatal
      rw [hmem (by simp [hsev])] at hd
      match state with
      | .running => cases hd
      | .halted .instruction =>
        obtain rfl := List.mem_singleton.1 hd
        cases hsev
      | .halted (.fault f) => exact ⟨f, rfl⟩
    · rintro ⟨f, rfl⟩
      exact ⟨.fault f, (hmem (by simp [Diagnostic.severity])).2 (List.mem_singleton_self _), rfl⟩
  · rintro f rfl
    exact ⟨ws, hws, h⟩
  · rw [hmem (by simp [Diagnostic.severity])]
    match state with
    | .running => simp [RunState.closing]
    | .halted .instruction => simp [RunState.closing]
    | .halted (.fault f) => simp [RunState.closing]
  · rintro rfl
    exact ⟨ws, hws, h⟩
  · rintro rfl
    rw [h, RunState.closing, List.append_nil]
    exact hws

theorem Diagnostic.severity_of_isWrap {w : Diagnostic} (h : w.isWrap = true) :
    w.severity = .warning := by
  cases w with
  | programCounterWrapped | stackPointerUnderflow | stackPointerOverflow => rfl
  | halting | multipleResponders | fault => cases h

theorem Bus.warnings_arbitrate {α : Type} (access : Access) (a : Address) (count : Nat) (v : α) :
    Warnings (arbitrate access a count v).raised := by
  match count with
  | 0 | 1 => simp [arbitrate, Warnings]
  | _ + 2 => simp [arbitrate, Warnings, Diagnostic.severity]

namespace Effect

def Warned {δ : Type} (c d : Cycle δ) (_ : Option Fault) : Prop :=
  ∃ ws, Warnings ws ∧ d.raised = c.raised ++ ws

theorem law_warned {δ : Type} [Device δ] :
    Law (Warned : Cycle δ → Cycle δ → Option Fault → Prop) where
  refl c := ⟨[], by simp [Warnings], (List.append_nil _).symm⟩
  trans := by
    rintro c d e f ⟨vs, hvs, hd⟩ ⟨ws, hws, he⟩
    refine ⟨vs ++ ws, List.forall_mem_append.2 ⟨hvs, hws⟩, ?_⟩
    rw [he, hd, List.append_assoc]
  update := fun h _ => h
  wrap := by
    rintro c d f ⟨ws, hws, hd⟩ w hw
    refine ⟨ws ++ [w], List.forall_mem_append.2 ⟨hws, ?_⟩, ?_⟩
    · exact List.forall_mem_singleton.2 (Diagnostic.severity_of_isWrap hw)
    · rw [← List.append_assoc, ← hd]
  invalid c _ := ⟨[], by simp [Warnings], (List.append_nil _).symm⟩
  transfer_read c a := ⟨_, c.bus.transfer_read a ▸ Bus.warnings_arbitrate _ _ _ _, rfl⟩
  transfer_write c a v := ⟨_, c.bus.transfer_write a v ▸ Bus.warnings_arbitrate _ _ _ _, rfl⟩

end Effect

namespace Machine

variable {δ : Type} [Device δ] {m : Machine δ}

theorem pc_clock (hm : m.isRunning = true) : m.clock.1.pc = m.registers.p := by
  rcases Effect.law_warned.clocking hm with ⟨_, _, h⟩ | ⟨_, _, h⟩ | ⟨_, _, _, h⟩
  all_goals rw [h]

theorem running_clock (hm : m.isRunning = true) :
    m.clock.1.running = m.clock.2.state.isRunning := by
  rcases Effect.law_warned.clocking hm with ⟨_, _, h⟩ | ⟨_, _, h⟩ | ⟨_, _, _, h⟩
  all_goals
    rw [h]
    rfl

/-- A clock raises warnings, and closes with what has halted the machine. -/
theorem exists_warnings_clock (hm : m.isRunning = true) :
    ∃ ws, Warnings ws ∧ m.clock.1.diagnostics = ws ++ m.clock.2.state.closing := by
  rcases Effect.law_warned.clocking hm with ⟨c, ⟨ws, hws, hc⟩, h⟩ | ⟨c, ⟨ws, hws, hc⟩, h⟩ |
    ⟨f, c, ⟨ws, hws, hc⟩, h⟩
  all_goals
    rw [List.nil_append] at hc
    refine ⟨ws, hws, ?_⟩
    rw [h, hc]
  · exact (List.append_nil _).symm
  · rfl
  · rfl

def LocatedWarnings (ds : List (Address × Diagnostic)) : Prop := ∀ x ∈ ds, x.2.severity = .warning

/-- How a run ends: with the machine running, or in the clock that halted it. -/
inductive Running (m : Machine δ) (budget : Nat) : Prop
  | runs (hfinal : (m.run budget).2.isRunning = true) (hrunning : (m.run budget).1.running = true)
    (hws : LocatedWarnings (m.run budget).1.diagnostics)
  | halts (k : Nat) (d : Diagnostic) (ws : List (Address × Diagnostic)) (hws : LocatedWarnings ws)
    (hrunning : (m.run budget).1.running = false) (hclocks : (m.run budget).1.clocks = k + 1)
    (hearlier : (m.run k).1.clocks = k) (hk : (m.run k).2.isRunning = true)
    (hfinal : (m.run budget).2 = (m.run k).2.clock.2)
    (hhalted : (m.run budget).2.isRunning = false) (hclosing : (m.run budget).2.state.closing = [d])
    (h : (m.run budget).1.diagnostics = ws ++ [((m.run k).2.registers.p, d)])

theorem exists_located_clock (hm : m.isRunning = true) : ∃ ws, LocatedWarnings ws ∧
    located m.clock.1 = ws ++ m.clock.2.state.closing.map (m.registers.p, ·) := by
  obtain ⟨ws, hws, hdiagnostics⟩ := exists_warnings_clock hm
  refine ⟨ws.map (m.registers.p, ·), fun x hx => ?_, ?_⟩
  · obtain ⟨w, hw, rfl⟩ := List.mem_map.1 hx
    exact hws w hw
  · rw [located, pc_clock hm, hdiagnostics, List.map_append]

theorem Running.of_clock {budget : Nat} (hm : m.isRunning = true)
    (hnext : m.clock.2.isRunning = true) (h : m.clock.2.Running budget) : m.Running (budget + 1) := by
  obtain ⟨ws, hws, hlocated⟩ := exists_located_clock hm
  rw [RunState.closing_of_isRunning hnext, List.map_nil, List.append_nil] at hlocated
  rcases h with ⟨hfinal, hrunning, hrest⟩ |
    ⟨k, d, vs, hvs, hrunning, hclocks, hearlier, hk, hfinal, hhalted, hd, h⟩
  · refine .runs ?_ ?_ ?_
    all_goals rw [run_succ hm]
    · exact hfinal
    · exact hrunning
    · rw [hlocated]
      exact List.forall_mem_append.2 ⟨hws, hrest⟩
  · refine .halts (k + 1) d (ws ++ vs) (List.forall_mem_append.2 ⟨hws, hvs⟩) ?_ ?_ ?_ ?_ ?_ ?_ ?_ ?_
    all_goals rw [run_succ hm]
    · exact hrunning
    · simp only [hclocks]
      omega
    · simp only [hearlier]
      omega
    · exact hk
    · rw [run_succ hm]
      exact hfinal
    · exact hhalted
    · exact hd
    · rw [run_succ hm, hlocated, List.append_assoc]
      exact congrArg _ h

theorem Running.of_halts {budget : Nat} (hm : m.isRunning = true)
    (hnext : m.clock.2.isRunning = false) : m.Running (budget + 1) := by
  obtain ⟨ws, hws, hlocated⟩ := exists_located_clock hm
  obtain ⟨d, hd, -⟩ := RunState.exists_closing hnext
  have hrun : m.run (budget + 1) = (⟨1, located m.clock.1, false⟩, m.clock.2) := by
    rw [run_succ hm, run_of_halted hnext]
    simp
  refine .halts 0 d ws hws ?_ ?_ rfl hm ?_ ?_ ?_ ?_
  all_goals rw [hrun]
  · rfl
  · exact hnext
  · exact hd
  · rw [hlocated, hd]
    rfl

theorem running_run (hm : m.isRunning = true) (budget : Nat) : m.Running budget := by
  induction budget generalizing m with
  | zero => exact .runs hm hm fun _ h => by cases h
  | succ budget ih =>
    cases hnext : m.clock.2.isRunning with
    | true => exact .of_clock hm hnext (ih hnext)
    | false => exact .of_halts hm hnext

/-- The report of a clock of a running machine tells the same as the run state behind it. In the
diagnostics of a run from a running machine there are only warnings, and behind them, if and only if
the machine is no longer running, one that is none, with the program counter from which the last
clock began. -/
theorem diagnostics_tell_state (m : Machine δ) (hm : m.isRunning = true) :
    m.clock.1.Tells m.clock.2.state ∧
    ∀ budget, let outcome := (m.run budget).1
      outcome.running = (m.run budget).2.isRunning ∧
      ∃ ws : List (Address × Diagnostic), (∀ x ∈ ws, x.2.severity = .warning) ∧
        (outcome.running = true → outcome.diagnostics = ws) ∧
        (outcome.running = false → ∃ k d, d.severity ≠ .warning ∧
          outcome.clocks = k + 1 ∧ (m.run k).1.clocks = k ∧ (m.run k).2.isRunning = true ∧
          (m.run k).2.clock.2 = (m.run budget).2 ∧ (m.run budget).2.state.closing = [d] ∧
          outcome.diagnostics = ws ++ [((m.run k).2.registers.p, d)]) := by
  obtain ⟨ws, hws, h⟩ := exists_warnings_clock hm
  refine ⟨StepReport.tells (running_clock hm) hws h, fun budget => ?_⟩
  rcases running_run hm budget with ⟨hfinal, hrunning, hws⟩ |
    ⟨k, d, ws, hws, hrunning, hclocks, hearlier, hk, hfinal, hhalted, hd, h⟩
  · refine ⟨hrunning.trans hfinal.symm, _, hws, fun _ => rfl, fun hn => ?_⟩
    rw [hrunning] at hn
    cases hn
  · obtain ⟨e, he, hsev⟩ := RunState.exists_closing hhalted
    obtain rfl : d = e := (List.cons.inj (hd.symm.trans he)).1
    refine ⟨hrunning.trans hhalted.symm, ws, hws, fun hr => ?_,
      fun _ => ⟨k, d, hsev, hclocks, hearlier, hk, hfinal.symm, hd, h⟩⟩
    rw [hrunning] at hr
    cases hr

/-- Two memories that answer the same half of the addresses, with a program that pops from the other
half at once. -/
theorem diagnostics_tell_state_pop :
    let l : RangeLimiter Memory :=
      .limited ⟨1, #[1, 43], by decide, by decide, rfl⟩ ⟨1, 0, by decide, by decide⟩
    let m : Machine (RangeLimiter Memory) := .ofDevices [l, l]
    m.isRunning = true ∧ m.clock.1.Tells .running ∧ (m.run 5).1.running = false ∧
      ∃ ws : List (Address × Diagnostic), (∀ x ∈ ws, x.2.severity = .warning) ∧
        (m.run 5).1.diagnostics = ws ++ [(1, .fault (.noDeviceResponded .read 0xFF00))] := by
  intro l m
  obtain ⟨htells, hrun⟩ := diagnostics_tell_state m rfl
  obtain ⟨-, ws, hws, -, hhalted⟩ := hrun 5
  have hrunning : (m.run 5).1.running = false := by decide +kernel
  obtain ⟨k, d, -, hclocks, -, -, -, hclosing, h⟩ := hhalted hrunning
  have htwo : (m.run 5).1.clocks = 2 := by decide +kernel
  obtain rfl : k = 1 := by omega
  have hp : (m.run 1).2.registers.p = 1 := by decide +kernel
  have hstate : (m.run 5).2.state.closing = [.fault (.noDeviceResponded .read 0xFF00)] := by
    decide +kernel
  obtain rfl := (List.cons.inj (hclosing.symm.trans hstate)).1
  exact ⟨rfl, htells, hrunning, ws, hws, hp ▸ h⟩

end Machine

end Octet
