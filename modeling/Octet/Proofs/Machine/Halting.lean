import Octet.MachineConfig
import Octet.Proofs.Bus.Transfer
import Octet.Proofs.Machine.Operation

/-! # Halted machines

A machine that has halted stays so until it is restarted, whatever its host does to it and to its
bus. It makes no clock and says nothing, and it keeps the reason of its halt, except that a load that
meets a byte which no device accepts gives it another.
-/

namespace Octet

/-- What a host can do to a machine, changes of what is mounted among it. -/
inductive Action (δ : Type) where
  | operation (op : Operation)
  | mount (d : δ)
  | unmount (id : Nat)

namespace Machine

variable {δ : Type} [Device δ]

/-- The machine behind an action. No device is unmounted under a number that is not in use. -/
def act (m : Machine δ) : Action δ → Machine δ
  | .operation op => (m.operate op).2
  | .mount d => { m with bus := (m.bus.mount d).2 }
  | .unmount id =>
    match m.bus.unmount? id with
    | some (_, bus) => { m with bus }
    | none => m

def actAll (m : Machine δ) (acts : List (Action δ)) : Machine δ := acts.foldl act m

/-- The entry stands in the image behind others that the bus accepts one by one, and is refused. -/
def Refuses (bus : Bus δ) (image : Image) (e : Image.Entry) : Prop :=
  ∃ accepted rest, image = accepted ++ e :: rest ∧ (store accepted bus).2.1 = none ∧
    ((store accepted bus).2.2.write e.address e.byte).1.result =
      .error (.noDeviceResponded .write e.address)

theorem exists_refused {image : Image} {bus : Bus δ} {f : Fault}
    (h : (store image bus).2.1 = some f) :
    ∃ e, Refuses bus image e ∧ f = .noDeviceResponded .write e.address := by
  induction image generalizing bus with
  | nil => cases h
  | cons e image ih =>
    cases hw : (bus.write e.address e.byte).1.result with
    | error g =>
      obtain ⟨-, rfl⟩ := Bus.of_write_error hw
      simp only [store, hw, Option.some.injEq] at h
      exact ⟨e, ⟨[], image, rfl, rfl, hw⟩, h.symm⟩
    | ok u =>
      simp only [store, hw] at h
      obtain ⟨e', ⟨accepted, rest, rfl, haccepted, hrefused⟩, hf⟩ := ih h
      refine ⟨e', ⟨e :: accepted, rest, rfl, ?_, ?_⟩, hf⟩
      · simp only [store, hw, haccepted]
      · simp only [store, hw, hrefused]

variable {m : Machine δ}

theorem state_load (m : Machine δ) (image : Image) : (m.load image).2.state = m.state ∨
    ∃ e, Refuses m.bus image e ∧
      (m.load image).2.state = .halted (.fault (.noDeviceResponded .write e.address)) := by
  obtain ⟨rs, bus, state⟩ := m
  cases hf : (store image bus).2.1 with
  | none => exact .inl (by simp only [load, hf])
  | some f =>
    obtain ⟨e, hrefuses, rfl⟩ := exists_refused hf
    exact .inr ⟨e, hrefuses, by simp only [load, hf]⟩

theorem state_act (h : m.isRunning = false) {act : Action δ} (hact : act ≠ .operation .restart) :
    (m.act act).state = m.state ∨
      ∃ image e, act = .operation (.load image) ∧ Refuses m.bus image e ∧
        (m.act act).state = .halted (.fault (.noDeviceResponded .write e.address)) := by
  cases act with
  | operation op =>
    cases op with
    | clock =>
      refine .inl ?_
      simp only [Machine.act, operate, clock_of_halted h]
    | run budget =>
      refine .inl ?_
      simp only [Machine.act, operate, run_of_halted h]
    | load image =>
      rcases m.state_load image with hstate | ⟨e, hrefuses, hstate⟩
      · exact .inl hstate
      · exact .inr ⟨image, e, rfl, hrefuses, hstate⟩
    | set register n =>
      refine .inl ?_
      simp only [Machine.act, operate, set]
      cases m.registers.set register n <;> rfl
    | restart => exact absurd rfl hact
    | read | write => exact .inl rfl
  | mount d => exact .inl rfl
  | unmount id =>
    refine .inl ?_
    simp only [Machine.act]
    split <;> rfl

theorem isRunning_act (h : m.isRunning = false) {act : Action δ}
    (hact : act ≠ .operation .restart) : (m.act act).isRunning = false := by
  rcases state_act h hact with hstate | ⟨_, _, _, _, hstate⟩
  · rwa [isRunning, hstate]
  · rw [isRunning, hstate]
    rfl

theorem isRunning_actAll {acts : List (Action δ)} (h : m.isRunning = false)
    (hacts : .operation .restart ∉ acts) : (m.actAll acts).isRunning = false := by
  induction acts generalizing m with
  | nil => exact h
  | cons act acts ih =>
    simp only [List.mem_cons, not_or] at hacts
    exact ih (isRunning_act h (Ne.symm hacts.1)) hacts.2

/-- As long as a halted machine is not restarted it is halted behind everything that is done to it.
A clock or a run then changes nothing at all, is reported without a diagnostic and without a clock
made, and the reason of the halt changes only by a load with a byte that no device accepts. -/
theorem halted_until_restart (m : Machine δ) (h : m.isHalted = true) (acts : List (Action δ))
    (hacts : .operation .restart ∉ acts) :
    let m' := m.actAll acts
    m'.isHalted = true ∧
    m'.operate .clock = (.report ⟨m'.registers.p, [], false⟩, m') ∧
    (∀ budget, m'.operate (.run budget) = (.outcome ⟨0, [], false⟩, m')) ∧
    ∀ act, act ≠ .operation .restart → (m'.act act).state ≠ m'.state →
      ∃ image e, act = .operation (.load image) ∧ Refuses m'.bus image e ∧
        (m'.act act).state = .halted (.fault (.noDeviceResponded .write e.address)) := by
  intro m'
  have hm : m.isRunning = false := by simpa [isHalted] using h
  have hm' : m'.isRunning = false := isRunning_actAll hm hacts
  refine ⟨by simp [isHalted, hm'], ?_, fun budget => ?_, fun act hact hne => ?_⟩
  · simp only [operate, clock_of_halted hm']
  · simp only [operate, run_of_halted hm']
  · exact (state_act hm' hact).resolve_left hne

/-- A machine whose only memory is exchanged for another after the halt, and a load into the gap. -/
theorem halted_until_restart_remounted :
    let l : RangeLimiter Memory :=
      .limited ⟨1, #[1, 0], by decide, by decide, rfl⟩ ⟨1, 0, by decide, by decide⟩
    let m : Machine (RangeLimiter Memory) := ((Machine.ofDevices [l]).run 2).2
    let acts : List (Action (RangeLimiter Memory)) :=
      [.operation (.set .p 7), .mount l, .unmount 0, .operation (.write 3 43), .operation .clock]
    let image : Image := [⟨0, 1⟩, ⟨0x8000, 9⟩, ⟨1, 1⟩]
    m.isHalted = true ∧ .operation .restart ∉ acts ∧
      (m.actAll acts).operate (.run 5) = (.outcome ⟨0, [], false⟩, m.actAll acts) ∧
      ∃ e, Refuses (m.actAll acts).bus image e ∧
        ((m.actAll acts).act (.operation (.load image))).state =
          .halted (.fault (.noDeviceResponded .write e.address)) := by
  intro l m acts image
  have hm : m.isHalted = true := by decide +kernel
  have hacts : .operation .restart ∉ acts := by simp [acts]
  obtain ⟨-, -, hrun, hload⟩ := halted_until_restart m hm acts hacts
  have hne : ((m.actAll acts).act (.operation (.load image))).state ≠ (m.actAll acts).state := by
    decide +kernel
  obtain ⟨_, e, heq, hrefuses, hstate⟩ := hload (.operation (.load image)) (by simp) hne
  cases heq
  exact ⟨hm, hacts, hrun 5, e, hrefuses, hstate⟩

end Machine

end Octet
