import Octet.Memory
import Octet.Proofs.Machine.Law
import Octet.Proofs.Machine.Recorder

/-! # Arbitration

A transfer walks over the devices of the bus. Each of them is offered the transfer once, in the order
in which they were mounted, whatever those before it have answered. What has been answered in the end
decides the transfer: it fails without an answer, and several answers are reported and joined.
-/

namespace Octet

namespace Bus

/-- A transfer on its way over the bus: the devices behind it, each in its next state, and their
answers, those of the first ones first. -/
structure Walk (δ α : Type) where
  passed : List (Mounted δ)
  answers : List α

section

variable {δ α : Type} (offer : δ → Option α × δ)

/-- Offers the transfer to the next device. -/
def Walk.next (w : Walk δ α) (m : Mounted δ) : Walk δ α :=
  let (answer, d) := offer m.device
  ⟨w.passed ++ [⟨m.id, d⟩], w.answers ++ answer.toList⟩

def walk (bus : Bus δ) : Walk δ α := bus.mounted.foldl (Walk.next offer) ⟨[], []⟩

theorem foldl_next (w : Walk δ α) (ms : List (Mounted δ)) : ms.foldl (Walk.next offer) w =
    ⟨w.passed ++ ms.map fun m => ⟨m.id, (offer m.device).2⟩,
      w.answers ++ ms.filterMap fun m => (offer m.device).1⟩ := by
  induction ms generalizing w with
  | nil => simp
  | cons m ms ih =>
    rw [List.foldl_cons, ih]
    cases h : (offer m.device).1 <;> simp [Walk.next, h]

theorem passed_walk (bus : Bus δ) :
    (bus.walk offer).passed = bus.mounted.map fun m => ⟨m.id, (offer m.device).2⟩ := by
  rw [walk, foldl_next]
  rfl

theorem answers_walk (bus : Bus δ) :
    (bus.walk offer).answers = bus.devices.filterMap fun d => (offer d).1 := by
  rw [walk, foldl_next, devices, List.filterMap_map]
  rfl

end

section

variable {δ : Type} [Device δ] (bus : Bus δ) (a : Address) (v : Byte)

/-- The offer of a write, to which a device answers just that it accepts the byte. -/
def writing (d : δ) : Option Unit × δ :=
  let (accepted, d) := Device.write d a v
  (if accepted then some () else none, d)

theorem read_eq_walk : bus.read a =
    let w := bus.walk (Device.read · a)
    (arbitrate .read a w.answers.length (joined w.answers), ⟨w.passed, bus.nextId⟩) := by
  have hmounted : (bus.read a).2.mounted = (bus.walk (Device.read · a)).passed := by
    rw [passed_walk, read, readAll_eq_map]
  apply Prod.ext
  · rw [transfer_read]
    simp only [answers, answers_walk]
  · exact congrArg (Bus.mk · bus.nextId) hmounted

theorem write_eq_walk : bus.write a v =
    let w := bus.walk (writing a v)
    (arbitrate .write a w.answers.length (), ⟨w.passed, bus.nextId⟩) := by
  have hmounted : (bus.write a v).2.mounted = (bus.walk (writing a v)).passed := by
    rw [passed_walk, write, writeAll_eq_map]
    rfl
  have hcount : accepting a v bus.devices = (bus.walk (writing a v)).answers.length := by
    rw [answers_walk, List.length_filterMap_eq_countP, accepting]
    apply List.countP_congr
    intro d _
    cases h : (Device.write d a v).1 <;> simp [writing, h]
  apply Prod.ext
  · rw [transfer_write, hcount]
  · exact congrArg (Bus.mk · bus.nextId) hmounted

end

theorem testBit_joined (bytes : List Byte) (i : Nat) :
    (joined bytes).toNat.testBit i = bytes.any (·.toNat.testBit i) := by
  have hfold (v : Byte) : (bytes.foldl (· ||| ·) v).toNat.testBit i =
      (v.toNat.testBit i || bytes.any (·.toNat.testBit i)) := by
    induction bytes generalizing v with
    | nil => simp
    | cons b bytes ih =>
      rw [List.foldl_cons, ih, UInt8.toNat_or, Nat.testBit_or, List.any_cons, Bool.or_assoc]
  rw [joined, hfold]
  simp

theorem arbitrate_of_pos {α : Type} {access : Access} {a : Address} {count : Nat} {v : α}
    (h : 0 < count) : arbitrate access a count v =
      ⟨.ok v, if 2 ≤ count then [.multipleResponders access a count] else []⟩ := by
  match count with
  | 1 | _ + 2 => simp [arbitrate]

/-- What a transfer comes to, with the bus behind it, if an answer to it is what the offer makes of a
device and several answers are merged. -/
structure Arbitrated {δ α β : Type} (bus : Bus δ) (access : Access) (a : Address)
    (offer : δ → Option α × δ) (merge : List α → β) (outcome : Transfer β × Bus δ) : Prop where
  walked : outcome.2.mounted = (bus.walk offer).passed
  once : outcome.2.mounted = bus.mounted.map fun m => ⟨m.id, (offer m.device).2⟩
  ids : outcome.2.ids = bus.ids ∧ outcome.2.nextId = bus.nextId
  answers : (bus.walk offer).answers = bus.devices.filterMap fun d => (offer d).1
  answered : (∃ d ∈ bus.devices, (offer d).1.isSome = true) →
    outcome.1.result = .ok (merge (bus.walk offer).answers)
  unanswered : (∀ d ∈ bus.devices, (offer d).1 = none) →
    outcome.1.result = .error (.noDeviceResponded access a)
  raised : outcome.1.raised =
    let count := bus.devices.countP fun d => (offer d).1.isSome
    if 2 ≤ count then [.multipleResponders access a count] else []

theorem arbitrated_of_walk {δ α β : Type} {bus : Bus δ} {access : Access} {a : Address}
    {offer : δ → Option α × δ} {merge : List α → β} {outcome : Transfer β × Bus δ}
    (h : outcome = let w := bus.walk offer
      (arbitrate access a w.answers.length (merge w.answers), ⟨w.passed, bus.nextId⟩)) :
    bus.Arbitrated access a offer merge outcome := by
  subst h
  have hcount : (bus.walk offer).answers.length =
      bus.devices.countP fun d => (offer d).1.isSome := by
    rw [answers_walk, List.length_filterMap_eq_countP]
  have hids : (bus.walk offer).passed.map (·.id) = bus.ids := by
    rw [passed_walk, List.map_map]
    rfl
  refine ⟨rfl, bus.passed_walk offer, ⟨hids, rfl⟩, bus.answers_walk offer, ?_, ?_, ?_⟩
  · intro hanswer
    dsimp only
    rw [hcount]
    rw [arbitrate_of_pos (List.countP_pos_iff.2 hanswer)]
  · intro hnone
    have hzero : bus.devices.countP (fun d => (offer d).1.isSome) = 0 := by
      rw [List.countP_eq_zero]
      intro d hd
      simp [hnone d hd]
    dsimp only
    rw [hcount, hzero]
    rfl
  · dsimp only
    rw [hcount]
    generalize bus.devices.countP (fun d => (offer d).1.isSome) = count
    match count with
    | 0 | 1 | count + 2 => simp [arbitrate]

/-- A transfer is offered to every device once, in the order in which they are mounted. A read that
is answered gives the bits of all answers, a write that is accepted goes through, and without a
device that takes part they fail; two devices or more are reported, and nothing else is. In a clock
what is reported is put behind what has been reported before, also by a transfer that fails. -/
theorem transfer_arbitrated {δ : Type} [Device δ] (bus : Bus δ) (a : Address) (v : Byte) :
    bus.Arbitrated .read a (Device.read · a) joined (bus.read a) ∧
    bus.Arbitrated .write a (writing a v) (fun _ => ()) (bus.write a v) ∧
    (∀ bytes i, (joined bytes).toNat.testBit i = bytes.any (·.toNat.testBit i)) ∧
    ∀ rs said,
      Effect.final (Effect.read a ⟨rs, bus, said⟩) =
        ⟨rs, (bus.read a).2, said ++ (bus.read a).1.raised⟩ ∧
      Effect.final (Effect.write a v ⟨rs, bus, said⟩) =
        ⟨rs, (bus.write a v).2, said ++ (bus.write a v).1.raised⟩ := by
  refine ⟨arbitrated_of_walk (bus.read_eq_walk a), arbitrated_of_walk (bus.write_eq_walk a v),
    testBit_joined, fun rs said => ⟨?_, ?_⟩⟩
  · rw [Effect.read, Effect.final_conclude]
  · rw [Effect.write, Effect.final_conclude]

/-- Devices of two kinds: a recorder that answers nothing is offered the read between two memories
that do answer. -/
example :
    let mem (v : Byte) : Memory := ⟨1, #[v, 0], by decide, by decide, rfl⟩
    let bus : Bus (Memory ⊕ Recorder) := .ofDevices [.inl (mem 5), .inr ⟨[]⟩, .inl (mem 6)]
    (bus.read 8).1.result.toOption = some 7 ∧ (bus.read 8).1.raised = [.multipleResponders .read 8 2] ∧
      (bus.read 8).2.log = [⟨.read, 8⟩] := by
  decide +kernel

end Bus

end Octet
