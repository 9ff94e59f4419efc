import Octet.Proofs.Bus.Steady
import Octet.Proofs.Machine.Law
import Octet.Proofs.Machine.Simulation

/-! # Recorded transfers

A recorder is a device that answers nothing and takes down every transfer that it is offered.
Mounted beside the devices of a machine it goes unnoticed, and what stands in it are the transfers
that the machine makes. On steady devices these decide, one by one and in their order, what the
machine says about transfers.
-/

namespace Octet

open Device

structure Request where
  access : Access
  address : Address
deriving DecidableEq, Repr

structure Recorder where
  log : List Request
deriving DecidableEq

instance : Device Recorder where
  read r a := (none, ⟨r.log ++ [⟨.read, a⟩]⟩)
  write r a _ := (false, ⟨r.log ++ [⟨.write, a⟩]⟩)
  reset r := r

/-- Devices of two kinds. -/
instance {δ ε : Type} [Device δ] [Device ε] : Device (δ ⊕ ε) where
  read
    | .inl d, a => let (answer, d) := Device.read d a; (answer, .inl d)
    | .inr d, a => let (answer, d) := Device.read d a; (answer, .inr d)
  write
    | .inl d, a, v => let (accepted, d) := Device.write d a v; (accepted, .inl d)
    | .inr d, a, v => let (accepted, d) := Device.write d a v; (accepted, .inr d)
  reset := Sum.map Device.reset Device.reset

namespace Bus

variable {δ : Type}

def record (bus : Bus δ) : Bus (δ ⊕ Recorder) :=
  ⟨bus.mounted.map (fun m => ⟨m.id, .inl m.device⟩) ++ [⟨bus.nextId, .inr ⟨[]⟩⟩], bus.nextId + 1⟩

def log (bus : Bus (δ ⊕ Recorder)) : List Request :=
  bus.devices.flatMap (Sum.elim (fun _ => []) Recorder.log)

/-- Behind the devices there is one recorder, and it holds the log. -/
def Records (bus : Bus (δ ⊕ Recorder)) (ds : List δ) (log : List Request) : Prop :=
  bus.devices = ds.map .inl ++ [.inr ⟨log⟩]

theorem records_record (bus : Bus δ) : bus.record.Records bus.devices [] := by
  simp [Records, record, devices]

theorem Records.log_eq {bus : Bus (δ ⊕ Recorder)} {ds : List δ} {requests : List Request}
    (h : bus.Records ds requests) : bus.log = requests := by
  rw [log, h]
  simp [List.flatMap_map]

variable [Device δ] {bus : Bus (δ ⊕ Recorder)} {ds : List δ} {requests : List Request}

theorem Records.answers (h : bus.Records ds requests) (a : Address) :
    answers a bus.devices = Bus.answers a ds := by
  rw [h, Bus.answers, List.filterMap_append, List.filterMap_map]
  exact List.append_nil _

theorem Records.accepting (h : bus.Records ds requests) (a : Address) (v : Byte) :
    accepting a v bus.devices = Bus.accepting a v ds := by
  rw [h, Bus.accepting, List.countP_append, List.countP_map]
  rfl

theorem Records.read (h : bus.Records ds requests) (a : Address) :
    (bus.read a).2.Records (ds.map fun d => (Device.read d a).2) (requests ++ [⟨.read, a⟩]) := by
  rw [Records, devices_read, h, List.map_append, List.map_map, List.map_map]
  rfl

theorem Records.write (h : bus.Records ds requests) (a : Address) (v : Byte) :
    (bus.write a v).2.Records (ds.map fun d => (Device.write d a v).2)
      (requests ++ [⟨.write, a⟩]) := by
  rw [Records, devices_write, h, List.map_append, List.map_map, List.map_map]
  rfl

theorem Records.reset (h : bus.Records ds requests) :
    bus.reset.Records (ds.map Device.reset) requests := by
  rw [Records, devices_reset, h, List.map_append, List.map_map, List.map_map]
  rfl

/-- A recorder goes unnoticed. -/
theorem bisimulation_records : Bisimulation fun (b : Bus δ) (c : Bus (δ ⊕ Recorder)) =>
    ∃ requests, c.Records b.devices requests where
  read := by
    rintro b c ⟨requests, h⟩ a
    refine ⟨?_, _, b.devices_read a ▸ h.read a⟩
    rw [transfer_read, transfer_read, h.answers]
  write := by
    rintro b c ⟨requests, h⟩ a v
    refine ⟨?_, _, b.devices_write a v ▸ h.write a v⟩
    rw [transfer_write, transfer_write, h.accepting]
  reset := by
    rintro b c ⟨requests, h⟩
    exact ⟨requests, b.devices_reset ▸ h.reset⟩

end Bus

def Diagnostic.ofTransfer : Diagnostic → Bool
  | .multipleResponders .. | .fault (.noDeviceResponded ..) => true
  | _ => false

/-- The diagnostic of the fault in which something has ended, if it has ended in one. -/
def Fault.closing (f? : Option Fault) : List Diagnostic := (f?.map .fault).toList

/-- The diagnostics of a transfer, its fault among them. -/
def Transfer.diagnostics {α : Type} (t : Transfer α) : List Diagnostic :=
  t.raised ++ Fault.closing t.fault?

/-- All diagnostics of an answer. -/
def Answer.diagnostics : Answer → List Diagnostic
  | .report r => r.diagnostics
  | .outcome o => o.diagnostics.map (·.2)
  | .set _ | .restarted => []
  | .read t => t.diagnostics
  | .written t => t.diagnostics

namespace Bus

/-- What is said about a transfer in which so many devices take part. -/
def verdict (r : Request) : (count : Nat) → List Diagnostic
  | 0 => [.fault (.noDeviceResponded r.access r.address)]
  | 1 => []
  | count => [.multipleResponders r.access r.address count]

theorem diagnostics_arbitrate {α : Type} (access : Access) (a : Address) (count : Nat) (v : α) :
    (arbitrate access a count v).diagnostics = verdict ⟨access, a⟩ count := by
  match count with
  | 0 | 1 | _ + 2 => rfl

theorem filter_verdict (r : Request) (count : Nat) :
    (verdict r count).filter (·.ofTransfer) = verdict r count := by
  match count with
  | 0 | 1 | _ + 2 => rfl

variable {δ : Type} [Device δ]

/-- Between the two buses lie transfers on which the diagnostics say what the number of devices that
take part in them demands, and about no other transfer anything. -/
def Accounts (b c : Bus (δ ⊕ Recorder)) (said : List Diagnostic) : Prop :=
  ∀ ⦃ds requests⦄, b.Records ds requests → ∃ ds' more, c.Records ds' (requests ++ more) ∧
    responders ds' = responders ds ∧
    said.filter (·.ofTransfer) = more.flatMap fun r => verdict r (responders ds r.address)

namespace Accounts

variable {b c d : Bus (δ ⊕ Recorder)} {said said' : List Diagnostic}

theorem refl (b : Bus (δ ⊕ Recorder)) : Accounts b b [] :=
  fun ds _ h => ⟨ds, [], by rwa [List.append_nil], rfl, rfl⟩

theorem trans (h : Accounts b c said) (h' : Accounts c d said') : Accounts b d (said ++ said') := by
  intro ds requests hb
  obtain ⟨ds', more, hc, hcount, hsaid⟩ := h hb
  obtain ⟨ds'', more', hd, hcount', hsaid'⟩ := h' hc
  refine ⟨ds'', more ++ more', by rwa [← List.append_assoc], hcount'.trans hcount, ?_⟩
  rw [List.filter_append, hsaid, hsaid', hcount, List.flatMap_append]

theorem congr (h : Accounts b c said)
    (hsaid : said'.filter (·.ofTransfer) = said.filter (·.ofTransfer)) : Accounts b c said' := by
  intro ds requests hb
  obtain ⟨ds', more, hc, hcount, hmore⟩ := h hb
  exact ⟨ds', more, hc, hcount, hsaid.trans hmore⟩

variable [Steady δ]

theorem read (b : Bus (δ ⊕ Recorder)) (a : Address) :
    Accounts b (b.read a).2 (b.read a).1.diagnostics := by
  intro ds requests hb
  refine ⟨_, _, hb.read a, responders_map (Steady.responds_read · a) ds, ?_⟩
  rw [transfer_read, diagnostics_arbitrate, filter_verdict, hb.answers, length_answers]
  exact (List.flatMap_singleton _ _).symm

theorem write (b : Bus (δ ⊕ Recorder)) (a : Address) (v : Byte) :
    Accounts b (b.write a v).2 (b.write a v).1.diagnostics := by
  intro ds requests hb
  refine ⟨_, _, hb.write a v, responders_map (Steady.responds_write · a v) ds, ?_⟩
  rw [transfer_write, diagnostics_arbitrate, filter_verdict, hb.accepting, accepting_eq_responders]
  exact (List.flatMap_singleton _ _).symm

theorem reset (b : Bus (δ ⊕ Recorder)) : Accounts b b.reset [] := by
  intro ds requests hb
  refine ⟨_, [], by rw [List.append_nil]; exact hb.reset, ?_, rfl⟩
  exact responders_map Steady.responds_reset ds

end Accounts

end Bus

open Bus

namespace Effect

variable {δ : Type} [Device δ] [Steady δ]

/-- What is raised, and the fault at the end, account for the transfers. -/
def Accounted (c d : Cycle (δ ⊕ Recorder)) (f? : Option Fault) : Prop :=
  ∃ said, d.raised = c.raised ++ said ∧ Accounts c.bus d.bus (said ++ Fault.closing f?)

theorem law_accounted :
    Law (Accounted : Cycle (δ ⊕ Recorder) → Cycle (δ ⊕ Recorder) → Option Fault → Prop) where
  refl c := ⟨[], (List.append_nil _).symm, .refl c.bus⟩
  trans := by
    rintro c d e f ⟨said, hd, h⟩ ⟨said', he, h'⟩
    refine ⟨said ++ said', by rw [he, hd, List.append_assoc], ?_⟩
    rw [Fault.closing, Option.map_none, Option.toList_none, List.append_nil] at h
    rw [List.append_assoc]
    exact h.trans h'
  update := fun h _ => h
  wrap := by
    rintro c d f ⟨said, hd, h⟩ w hw
    refine ⟨said ++ [w], by rw [← List.append_assoc, ← hd], h.congr ?_⟩
    have hnot : w.ofTransfer = false := by
      cases w with
      | programCounterWrapped | stackPointerUnderflow | stackPointerOverflow => rfl
      | halting | multipleResponders | fault => cases hw
    simp [hnot]
  invalid c _ := ⟨[], (List.append_nil _).symm, (Accounts.refl c.bus).congr rfl⟩
  transfer_read c a := ⟨_, rfl, .read c.bus a⟩
  transfer_write c a v := ⟨_, rfl, .write c.bus a v⟩

end Effect

namespace Machine

variable {δ : Type} [Device δ] [Steady δ]

theorem accounts_clock (m : Machine (δ ⊕ Recorder)) :
    Accounts m.bus m.clock.2.bus m.clock.1.diagnostics := by
  cases hm : m.isRunning with
  | true =>
    rcases Effect.law_accounted.clocking hm with ⟨c, ⟨said, hc, h⟩, hclock⟩ |
      ⟨c, ⟨said, hc, h⟩, hclock⟩ | ⟨f, c, ⟨said, hc, h⟩, hclock⟩
    all_goals
      rw [List.nil_append] at hc
      rw [hclock, hc]
    · exact h.congr (by simp [Fault.closing])
    · exact h.congr (by simp [Fault.closing, Diagnostic.ofTransfer])
    · exact h
  | false =>
    rw [clock_of_halted hm]
    exact .refl m.bus

theorem accounts_run (m : Machine (δ ⊕ Recorder)) (budget : Nat) :
    Accounts m.bus (m.run budget).2.bus ((m.run budget).1.diagnostics.map (·.2)) := by
  induction budget generalizing m with
  | zero => exact .refl m.bus
  | succ budget ih =>
    cases hm : m.isRunning with
    | true =>
      have hlocated : (located m.clock.1).map (·.2) = m.clock.1.diagnostics := by
        simp [located, Function.comp_def]
      rw [run_succ hm, List.map_append, hlocated]
      exact (accounts_clock m).trans (ih m.clock.2)
    | false =>
      rw [run_of_halted hm]
      exact .refl m.bus

theorem accounts_store (image : Image) (bus : Bus (δ ⊕ Recorder)) :
    Accounts bus (store image bus).2.2 (store image bus).1 := by
  induction image generalizing bus with
  | nil => exact .refl bus
  | cons e image ih =>
    have hwrite := Accounts.write bus e.address e.byte
    rw [Transfer.diagnostics] at hwrite
    cases hresult : (bus.write e.address e.byte).1.result with
    | ok u =>
      simp only [Transfer.fault?, hresult, Fault.closing, Option.map_none, Option.toList_none,
        List.append_nil] at hwrite
      simp only [store, hresult]
      exact hwrite.trans (ih _)
    | error f =>
      simp only [Transfer.fault?, hresult] at hwrite
      simp only [store, hresult]
      exact hwrite

theorem accounts_operate (m : Machine (δ ⊕ Recorder)) (op : Operation) :
    Accounts m.bus (m.operate op).2.bus (m.operate op).1.diagnostics := by
  cases op with
  | clock => exact accounts_clock m
  | run budget => exact accounts_run m budget
  | load image => exact accounts_store image m.bus
  | set register n =>
    simp only [operate, Machine.set]
    cases m.registers.set register n <;> exact .refl m.bus
  | restart => exact .reset m.bus
  | read a => exact .read m.bus a
  | write a v => exact .write m.bus a v

def observed (m : Machine δ) : Machine (δ ⊕ Recorder) := ⟨m.registers, m.bus.record, m.state⟩

/-- The transfers that the machine makes in the course of an operation. -/
def transfers (m : Machine δ) (op : Operation) : List Request := (m.observed.operate op).2.bus.log

omit [Steady δ] in
/-- Observation makes no difference to what an operation answers. -/
theorem operate_observed (m : Machine δ) (op : Operation) :
    (m.observed.operate op).1 = (m.operate op).1 := by
  have hagree : m.Agree (fun b c => ∃ requests, c.Records b.devices requests) m.observed :=
    ⟨rfl, ⟨[], m.bus.records_record⟩, rfl⟩
  exact (hagree.operate bisimulation_records op).1.symm

/-- What an operation says about transfers is what the transfers that it makes demand one by one. -/
theorem diagnostics_operate (m : Machine δ) (op : Operation) :
    (m.operate op).1.diagnostics.filter (·.ofTransfer) =
      (m.transfers op).flatMap fun r => verdict r (responders m.bus.devices r.address) := by
  obtain ⟨ds, requests, hrecords, -, hsaid⟩ :=
    accounts_operate m.observed op m.bus.records_record
  rw [← operate_observed, hsaid, transfers, hrecords.log_eq, List.nil_append]

end Machine

end Octet
