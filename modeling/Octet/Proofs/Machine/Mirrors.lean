import Octet.Proofs.Machine.Routing

/-! # Mirrored devices

Copies of a device on one bus stay copies: a write reaches each of them, what they answer to a read
joins to what one of them answers, and a reset takes them all to one state. So a machine with copies
of a device and a machine with one of them differ in nothing but the conflicts that are reported,
and where all devices are copies there is one conflict for each transfer.
-/

namespace Octet

open Bus

def Diagnostic.isConflict : Diagnostic → Bool
  | .multipleResponders .. => true
  | _ => false

namespace Bus

theorem joined_replicate_append {n : Nat} (hn : 1 ≤ n) (v : Byte) (vs : List Byte) :
    joined (List.replicate n v ++ vs) = joined (v :: vs) := by
  have hcopies (n : Nat) : (List.replicate n v).foldl (· ||| ·) v = v := by
    induction n with
    | zero => rfl
    | succ n ih => rw [List.replicate_succ, List.foldl_cons, UInt8.or_self, ih]
  cases n with
  | zero => omega
  | succ n =>
    have hfirst : (0 : Byte) ||| v = v := UInt8.zero_or
    rw [joined, joined, List.replicate_succ, List.cons_append, List.foldl_cons, List.foldl_append,
      List.foldl_cons, hfirst, hcopies]

theorem kept_arbitrate {α : Type} (access : Access) (a : Address) {count count' : Nat}
    (h : count = 0 ↔ count' = 0) (v : α) : (arbitrate access a count v).kept (!·.isConflict) =
      (arbitrate access a count' v).kept (!·.isConflict) := by
  have hsome (count : Nat) :
      (arbitrate access a (count + 1) v).kept (!·.isConflict) = ⟨.ok v, []⟩ := by
    cases count <;> rfl
  cases count with
  | zero =>
    obtain rfl : count' = 0 := h.1 rfl
    rfl
  | succ count =>
    obtain ⟨k, rfl⟩ : ∃ k, count' = k + 1 := Nat.exists_eq_succ_of_ne_zero (by omega)
    rw [hsome, hsome]

variable {δ : Type}

/-- On the first bus there are so many copies of a device of which the second one holds one; all
other devices are the same. -/
def Mirrored (n : Nat) (b c : Bus δ) : Prop :=
  ∃ d rest, b.devices = List.replicate n d ++ rest ∧ c.devices = d :: rest

theorem Mirrored.record {n : Nat} {b c : Bus δ} (h : Mirrored n b c) :
    Mirrored n b.record c.record := by
  obtain ⟨d, rest, hb, hc⟩ := h
  refine ⟨.inl d, rest.map .inl ++ [.inr ⟨[]⟩], ?_, ?_⟩
  · rw [b.records_record, hb, List.map_append, List.map_replicate, List.append_assoc]
  · rw [c.records_record, hc]
    rfl

theorem Mirrored.log_eq {n : Nat} (hn : 2 ≤ n) {b c : Bus (δ ⊕ Recorder)} (h : Mirrored n b c)
    {ds : List δ} {requests : List Request} (hb : b.Records ds requests) : b.log = c.log := by
  obtain ⟨d, rest, hdevices, hc⟩ := h
  obtain ⟨k, rfl⟩ := Nat.exists_eq_add_of_le' hn
  obtain ⟨e, rfl⟩ : ∃ e, d = .inl e := by
    have hrecords : List.replicate (k + 2) d ++ rest = ds.map .inl ++ [.inr ⟨requests⟩] :=
      hdevices.symm.trans hb
    cases ds with
    | nil => simp [List.replicate_succ] at hrecords
    | cons e ds => exact ⟨e, (List.cons.inj hrecords).1⟩
  have hcopies : (List.replicate (k + 2) (.inl e : δ ⊕ Recorder)).flatMap
      (Sum.elim (fun _ => []) Recorder.log) = [] := by
    simp [List.flatMap_eq_nil_iff]
  rw [log, log, hdevices, hc, List.flatMap_append, hcopies]
  rfl

variable [Device δ]

theorem likeness_mirrored {n : Nat} (hn : 1 ≤ n) :
    Likeness (!·.isConflict) (Mirrored n : Bus δ → Bus δ → Prop) where
  read := by
    rintro b c ⟨d, rest, hb, hc⟩ a
    refine ⟨?_, (Device.read d a).2, rest.map fun d => (Device.read d a).2, ?_, ?_⟩
    · rw [transfer_read, transfer_read, hb, hc]
      cases hanswer : (Device.read d a).1 with
      | none =>
        have hcopies : answers a (List.replicate n d) = [] := by
          simp [answers, hanswer]
        have hone : answers a (d :: rest) = answers a rest := by
          simp [answers, hanswer]
        have hall : answers a (List.replicate n d ++ rest) = answers a rest := by
          rw [answers, List.filterMap_append, ← answers, hcopies]
          rfl
        rw [hone, hall]
      | some v =>
        have hone : answers a (d :: rest) = v :: answers a rest := by
          simp [answers, hanswer]
        have hall : answers a (List.replicate n d ++ rest) =
            List.replicate n v ++ answers a rest := by
          simp [answers, hanswer]
        rw [hone, hall, joined_replicate_append hn]
        apply kept_arbitrate
        simp only [List.length_append, List.length_replicate, List.length_cons]
        omega
    · rw [devices_read, hb, List.map_append, List.map_replicate]
    · rw [devices_read, hc]
      rfl
  write := by
    rintro b c ⟨d, rest, hb, hc⟩ a v
    refine ⟨?_, (Device.write d a v).2, rest.map fun d => (Device.write d a v).2, ?_, ?_⟩
    · rw [transfer_write, transfer_write, hb, hc]
      apply kept_arbitrate
      simp only [accepting, List.countP_append, List.countP_replicate, List.countP_cons]
      split <;> omega
    · rw [devices_write, hb, List.map_append, List.map_replicate]
    · rw [devices_write, hc]
      rfl
  reset := by
    rintro b c ⟨d, rest, hb, hc⟩
    refine ⟨Device.reset d, rest.map Device.reset, ?_, ?_⟩
    · rw [devices_reset, hb, List.map_append, List.map_replicate]
    · rw [devices_reset, hc]
      rfl

end Bus

theorem Answer.kept_eq_self {keep : Diagnostic → Bool} {answer : Answer}
    (h : ∀ d ∈ answer.diagnostics, keep d = true) : answer.kept keep = answer := by
  cases answer with
  | set | restarted => rfl
  | report r =>
    have hall : ∀ d ∈ r.diagnostics, keep d = true := h
    rw [kept, StepReport.kept, List.filter_eq_self.2 hall]
  | outcome o =>
    have hall : ∀ d ∈ o.diagnostics, keep d.2 = true := by
      intro d hd
      exact h d.2 (List.mem_map_of_mem hd)
    rw [kept, RunOutcome.kept, List.filter_eq_self.2 hall]
  | read t | written t =>
    have hraised : ∀ d ∈ t.raised, keep d = true := by
      intro d hd
      exact h d (List.mem_append_left _ hd)
    rw [kept, Transfer.kept, List.filter_eq_self.2 hraised]

namespace Machine

variable {δ : Type} [Device δ] [Device.Steady δ] {m : Machine δ}

theorem conflicts_operate (m : Machine δ) (op : Operation) :
    (m.operate op).1.diagnostics.filter (·.isConflict) = (m.transfers op).flatMap fun r =>
      (verdict r (responders m.bus.devices r.address)).filter (·.isConflict) := by
  have htransfer : ∀ d : Diagnostic, d.isConflict = (d.isConflict && d.ofTransfer) := by
    intro d
    cases d <;> rfl
  have hsplit : (m.operate op).1.diagnostics.filter (·.isConflict) =
      ((m.operate op).1.diagnostics.filter (·.ofTransfer)).filter (·.isConflict) := by
    rw [List.filter_filter]
    exact List.filter_congr fun d _ => htransfer d
  rw [hsplit, diagnostics_operate, List.filter_flatMap]

/-- Where no two devices answer to one address, no conflict is reported. -/
theorem kept_operateAll (h : ∀ a, responders m.bus.devices a ≤ 1) (ops : List Operation) :
    (m.operateAll ops).1.map (·.kept (!·.isConflict)) = (m.operateAll ops).1 := by
  induction ops generalizing m with
  | nil => rfl
  | cons op ops ih =>
    have hnone : (m.operate op).1.diagnostics.filter (·.isConflict) = [] := by
      rw [conflicts_operate, List.flatMap_eq_nil_iff]
      intro r _
      have hcount := h r.address
      generalize responders m.bus.devices r.address = count at hcount ⊢
      match count with
      | 0 | 1 => rfl
    have hanswer : (m.operate op).1.kept (!·.isConflict) = (m.operate op).1 := by
      apply Answer.kept_eq_self
      intro d hd
      simpa using List.filter_eq_nil_iff.1 hnone d hd
    have hnext : responders (m.operate op).2.bus.devices = responders m.bus.devices :=
      m.responders_operateAll [op]
    have hrest := ih (m := (m.operate op).2) (by rwa [hnext])
    simp only [operateAll, List.map_cons, Observation.kept, hanswer]
    exact congrArg _ hrest

end Machine

namespace Machine

theorem responders_memory (ds : List Memory) (a : Address) : responders ds a = ds.length := by
  simp [responders]

theorem transfers_of_mirrored {δ : Type} [Device δ] [Device.Steady δ] {n : Nat} (hn : 2 ≤ n)
    {m one : Machine δ} (h : m.Agree (Mirrored n) one) (op : Operation) :
    m.transfers op = one.transfers op := by
  have hobserved : m.observed.Agree (Mirrored n) one.observed :=
    ⟨h.registers, h.bus.record, h.state⟩
  obtain ⟨-, hend⟩ := hobserved.operate_kept (likeness_mirrored (by omega)) op
  obtain ⟨ds, requests, hrecords, -⟩ := accounts_operate m.observed op m.bus.records_record
  exact hend.bus.log_eq hn hrecords

/-- A machine with several memories of one width and the same contents and a machine with one such
memory are seen to do the same, but for the conflicts that the first one reports. The memories stay
equal to each other and to the single one, and an operation reports one conflict for each transfer
that it makes, in their order and of all memories. -/
theorem operateAll_of_mirrored (n : Nat) (hn : 2 ≤ n) (mem : Memory) (m one : Machine Memory)
    (hregisters : m.registers = one.registers) (hstate : m.state = one.state)
    (hm : m.bus.devices = List.replicate n mem) (hone : one.bus.devices = [mem])
    (ops : List Operation) :
    (m.operateAll ops).1.map (·.kept (!·.isConflict)) = (one.operateAll ops).1 ∧
    (m.operateAll ops).2.registers = (one.operateAll ops).2.registers ∧
    (m.operateAll ops).2.state = (one.operateAll ops).2.state ∧
    (∃ mem', (m.operateAll ops).2.bus.devices = List.replicate n mem' ∧
      (one.operateAll ops).2.bus.devices = [mem']) ∧
    ∀ op,
      ((m.operateAll ops).2.operate op).1.diagnostics.filter (·.isConflict) =
        ((m.operateAll ops).2.transfers op).map
          (fun r => .multipleResponders r.access r.address n) ∧
      (m.operateAll ops).2.transfers op = (one.operateAll ops).2.transfers op := by
  have hmirrored : Mirrored n m.bus one.bus := ⟨mem, [], by rw [hm, List.append_nil], hone⟩
  have hagree : m.Agree (Mirrored n) one := ⟨hregisters, hmirrored, hstate⟩
  obtain ⟨hseen, hend⟩ := hagree.operateAll_kept (likeness_mirrored (by omega)) ops
  have hsingle : ∀ a, responders one.bus.devices a = 1 := by
    intro a
    rw [hone, responders_memory]
    rfl
  have hcount : ∀ a, responders (m.operateAll ops).2.bus.devices a = n := by
    intro a
    rw [m.responders_operateAll, hm, responders_memory, List.length_replicate]
  refine ⟨?_, hend.registers, hend.state, ?_, ?_⟩
  · rw [hseen, kept_operateAll fun a => Nat.le_of_eq (hsingle a)]
  · obtain ⟨mem', rest, hm', hone'⟩ := hend.bus
    have hlength : (mem' :: rest).length = 1 := by
      rw [← hone', ← responders_memory _ 0, one.responders_operateAll, hsingle]
    obtain rfl : rest = [] := List.length_eq_zero_iff.1 (Nat.succ.inj hlength)
    exact ⟨mem', by rw [hm', List.append_nil], hone'⟩
  · intro op
    refine ⟨?_, transfers_of_mirrored hn hend op⟩
    obtain ⟨k, rfl⟩ := Nat.exists_eq_add_of_le' hn
    rw [conflicts_operate]
    simp only [hcount]
    exact List.flatMap_pure_eq_map _ _

/-- Three memories with a program that pushes what it reads, and one of them. -/
theorem operateAll_of_mirrored_three :
    let mem : Memory := ⟨2, #[3, 42, 1, 0], by decide, by decide, rfl⟩
    let m : Machine Memory := .ofDevices [mem, mem, mem]
    let one : Machine Memory := .ofDevices [mem]
    let ops : List Operation := [.run 2, .read 0x4003]
    (m.operateAll ops).1.map (·.kept (!·.isConflict)) = (one.operateAll ops).1 ∧
      ((m.operateAll ops).2.operate (.write 7 9)).1.diagnostics.filter (·.isConflict) =
        [.multipleResponders .write 7 3] := by
  intro mem m one ops
  have hm : m.bus.devices = List.replicate 3 mem := devices_ofDevices _
  have hone : one.bus.devices = [mem] := devices_ofDevices _
  obtain ⟨hseen, -, -, -, hconflicts⟩ :=
    operateAll_of_mirrored 3 (by decide) mem m one rfl rfl hm hone ops
  obtain ⟨hwrite, -⟩ := hconflicts (.write 7 9)
  have htransfers : (m.operateAll ops).2.transfers (.write 7 9) = [⟨.write, 7⟩] := by decide +kernel
  rw [htransfers] at hwrite
  exact ⟨hseen, hwrite⟩

end Machine

end Octet
