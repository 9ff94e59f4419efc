import Octet.Proofs.Machine.Operation

/-! # Machines that are alike but for some diagnostics

Two buses may hold different devices and still give the same transfers for ever, or transfers that
differ only in diagnostics of which nothing is kept. A relation between buses that says so is lifted
here from single transfers to effects, clocks, runs, loads and sequences of operations: of two
machines with related buses, the same registers and the same run state the same is seen, as far as
it is kept.
-/

namespace Octet

section

variable (keep : Diagnostic → Bool)

def Transfer.kept {α : Type} (t : Transfer α) : Transfer α := ⟨t.result, t.raised.filter keep⟩

def StepReport.kept (report : StepReport) : StepReport :=
  { report with diagnostics := report.diagnostics.filter keep }

def RunOutcome.kept (outcome : RunOutcome) : RunOutcome :=
  { outcome with diagnostics := outcome.diagnostics.filter fun d => keep d.2 }

def Answer.kept : Answer → Answer
  | .report r => .report (r.kept keep)
  | .outcome o => .outcome (o.kept keep)
  | .set result => .set result
  | .restarted => .restarted
  | .read t => .read (t.kept keep)
  | .written t => .written (t.kept keep)

def Observation.kept (o : Observation) : Observation := { o with answer := o.answer.kept keep }

end

theorem Transfer.kept_eq_iff {α : Type} {keep : Diagnostic → Bool} {t t' : Transfer α} :
    t.kept keep = t'.kept keep ↔
      t.result = t'.result ∧ t.raised.filter keep = t'.raised.filter keep := by
  simp [kept]

theorem filter_append_congr {α : Type} {keep : α → Bool} {l l' m m' : List α}
    (hl : l.filter keep = l'.filter keep) (hm : m.filter keep = m'.filter keep) :
    (l ++ m).filter keep = (l' ++ m').filter keep := by
  rw [List.filter_append, List.filter_append, hl, hm]

theorem Answer.kept_true (answer : Answer) : answer.kept (fun _ => true) = answer := by
  cases answer with
  | set | restarted => rfl
  | report | outcome | read | written =>
    have hall {α : Type} (l : List α) : l.filter (fun _ => true) = l := by simp
    simp only [kept, StepReport.kept, RunOutcome.kept, Transfer.kept, hall]

theorem Observation.kept_true : Observation.kept (fun _ => true) = id := by
  funext o
  rw [kept, Answer.kept_true]
  rfl

variable {δ ε : Type} {keep : Diagnostic → Bool} {R : Bus δ → Bus ε → Prop}

/-- Related buses give transfers of which the same is kept, and stay related. -/
structure Bus.Likeness [Device δ] [Device ε] (keep : Diagnostic → Bool)
    (R : Bus δ → Bus ε → Prop) : Prop where
  read : ∀ {b c}, R b c → ∀ a,
    (b.read a).1.kept keep = (c.read a).1.kept keep ∧ R (b.read a).2 (c.read a).2
  write : ∀ {b c}, R b c → ∀ a v,
    (b.write a v).1.kept keep = (c.write a v).1.kept keep ∧ R (b.write a v).2 (c.write a v).2
  reset : ∀ {b c}, R b c → R b.reset c.reset

structure Cycle.Alike (keep : Diagnostic → Bool) (R : Bus δ → Bus ε → Prop) (c : Cycle δ)
    (d : Cycle ε) : Prop where
  registers : c.registers = d.registers
  bus : R c.bus d.bus
  raised : c.raised.filter keep = d.raised.filter keep

namespace Effect

variable {α β : Type}

/-- Both effects end in the same value, or both in the same fault. -/
inductive SameEnd (keep : Diagnostic → Bool) (R : Bus δ → Bus ε → Prop) :
    EStateM.Result Fault (Cycle δ) α → EStateM.Result Fault (Cycle ε) α → Prop where
  | ok {v : α} {c : Cycle δ} {d : Cycle ε} (h : c.Alike keep R d) :
    SameEnd keep R (.ok v c) (.ok v d)
  | error {f : Fault} {c : Cycle δ} {d : Cycle ε} (h : c.Alike keep R d) :
    SameEnd keep R (.error f c) (.error f d)

/-- From cycles that are alike the effects end alike, in cycles that are alike. -/
def Alike (keep : Diagnostic → Bool) (R : Bus δ → Bus ε → Prop) (x : Effect δ α) (y : Effect ε α) :
    Prop :=
  ∀ ⦃c d⦄, Cycle.Alike keep R c d → SameEnd keep R (x c) (y d)

theorem Alike.pure (v : α) : Alike keep R (Pure.pure v) (Pure.pure v) := fun _ _ h => .ok h

theorem Alike.bind {x : Effect δ α} {y : Effect ε α} {f : α → Effect δ β} {g : α → Effect ε β}
    (h : Alike keep R x y) (hf : ∀ v, Alike keep R (f v) (g v)) :
    Alike keep R (x >>= f) (y >>= g) := by
  intro c d hcd
  have hend := h hcd
  simp only [Bind.bind, EStateM.bind]
  generalize x c = r at hend
  generalize y d = s at hend
  cases hend with
  | ok h => exact hf _ h
  | error h => exact .error h

theorem SameEnd.conclude {t t' : Transfer α} {c : Cycle δ} {d : Cycle ε}
    (ht : t.kept keep = t'.kept keep) (h : c.Alike keep R d) :
    SameEnd keep R (conclude t.result c) (conclude t'.result d) := by
  obtain ⟨hresult, -⟩ := Transfer.kept_eq_iff.1 ht
  rw [hresult]
  cases t'.result with
  | ok v => exact .ok h
  | error f => exact .error h

theorem Alike.registers : Alike keep R registers registers := by
  intro c d h
  rw [Effect.registers, Effect.registers, h.registers]
  exact .ok h

theorem Alike.modifyRegisters (f : RegisterFile → RegisterFile) :
    Alike keep R (modifyRegisters f) (modifyRegisters f) := by
  intro c d h
  exact .ok ⟨congrArg f h.registers, h.bus, h.raised⟩

theorem Alike.warn (condition : Bool) (diagnostic : Diagnostic) :
    Alike keep R (warn condition diagnostic) (warn condition diagnostic) := by
  intro c d h
  cases condition with
  | false => exact .ok h
  | true => exact .ok ⟨h.registers, h.bus, filter_append_congr h.raised rfl⟩

theorem Alike.ofOption (f : Fault) (v : Option α) :
    Alike keep R (ofOption f v) (ofOption f v) := by
  intro c d h
  cases v with
  | some v => exact .ok h
  | none => exact .error h

section

variable [Device δ] [Device ε] (hR : Bus.Likeness keep R)
include hR

theorem Alike.read (a : Address) : Alike keep R (read a) (read a) := by
  rintro ⟨rs, b, raised⟩ ⟨_, c, raised'⟩ ⟨rfl, hbus, hraised⟩
  obtain ⟨htransfer, hbus⟩ := hR.read hbus a
  obtain ⟨-, hkept⟩ := Transfer.kept_eq_iff.1 htransfer
  exact .conclude htransfer ⟨rfl, hbus, filter_append_congr hraised hkept⟩

theorem Alike.write (a : Address) (v : Byte) : Alike keep R (write a v) (write a v) := by
  rintro ⟨rs, b, raised⟩ ⟨_, c, raised'⟩ ⟨rfl, hbus, hraised⟩
  obtain ⟨htransfer, hbus⟩ := hR.write hbus a v
  obtain ⟨-, hkept⟩ := Transfer.kept_eq_iff.1 htransfer
  exact .conclude htransfer ⟨rfl, hbus, filter_append_congr hraised hkept⟩

theorem Alike.fetch : Alike keep R fetch fetch := by
  rintro ⟨rs, b, raised⟩ ⟨_, c, raised'⟩ ⟨rfl, hbus, hraised⟩
  obtain ⟨htransfer, hbus⟩ := hR.read hbus rs.p
  obtain ⟨-, hkept⟩ := Transfer.kept_eq_iff.1 htransfer
  exact .conclude htransfer
    ⟨rfl, hbus, filter_append_congr (filter_append_congr hraised hkept) rfl⟩

theorem Alike.push (v : Byte) : Alike keep R (push v) (push v) :=
  Alike.registers.bind fun _ => (Alike.write hR _ v).bind fun _ =>
    (Alike.modifyRegisters _).bind fun _ => Alike.warn _ _

theorem Alike.pop : Alike keep R pop pop :=
  (Alike.modifyRegisters _).bind fun _ => Alike.registers.bind fun _ =>
    (Alike.warn _ _).bind fun _ => Alike.read hR _

theorem Alike.execute (op : Opcode) : Alike keep R (execute op) (execute op) := by
  cases op with
  | adr => exact (Alike.fetch hR).bind fun _ => (Alike.fetch hR).bind fun _ => .modifyRegisters _
  | cla | clb | clq => exact (Alike.fetch hR).bind fun _ => .modifyRegisters _
  | lda => exact Alike.registers.bind fun _ => (Alike.read hR _).bind fun _ => .modifyRegisters _
  | sta => exact Alike.registers.bind fun _ => .write hR _ _
  | psh => exact Alike.registers.bind fun _ => .push hR _
  | pop => exact (Alike.pop hR).bind fun _ => .modifyRegisters _
  | subr =>
    exact Alike.registers.bind fun _ => (Alike.push hR _).bind fun _ =>
      (Alike.push hR _).bind fun _ => .modifyRegisters _
  | ret => exact (Alike.pop hR).bind fun _ => (Alike.pop hR).bind fun _ => .modifyRegisters _
  | _ => exact Alike.modifyRegisters (·.after _)

theorem Alike.step : Alike keep R step step :=
  (Alike.fetch hR).bind fun _ => (Alike.ofOption _ _).bind fun op =>
    (Alike.execute hR op).bind fun _ => .pure op

end

end Effect

namespace Machine

/-- Machines that differ at most in related buses. -/
structure Agree (R : Bus δ → Bus ε → Prop) (m : Machine δ) (n : Machine ε) : Prop where
  registers : m.registers = n.registers
  bus : R m.bus n.bus
  state : m.state = n.state

section

variable [Device δ] [Device ε] (hR : Bus.Likeness keep R) {m : Machine δ} {n : Machine ε}
include hR

theorem Agree.clock (h : m.Agree R n) :
    m.clock.1.kept keep = n.clock.1.kept keep ∧ m.clock.2.Agree R n.clock.2 := by
  obtain ⟨rs, b, state⟩ := m
  obtain ⟨_, c, _⟩ := n
  obtain ⟨rfl, hbus, rfl⟩ := h
  cases state with
  | halted reason => exact ⟨rfl, rfl, hbus, rfl⟩
  | running =>
    have hstep := Effect.Alike.step hR (c := ⟨rs, b, []⟩) (d := ⟨rs, c, []⟩) ⟨rfl, hbus, rfl⟩
    generalize hx : Effect.step ⟨rs, b, []⟩ = x at hstep
    generalize hy : Effect.step ⟨rs, c, []⟩ = y at hstep
    simp only [Machine.clock, hx, hy]
    cases hstep with
    | @ok op c d h =>
      cases op with
      | hlt =>
        refine ⟨?_, h.registers, h.bus, rfl⟩
        rw [StepReport.kept, StepReport.kept, filter_append_congr h.raised rfl]
      | _ =>
        refine ⟨?_, h.registers, h.bus, rfl⟩
        rw [StepReport.kept, StepReport.kept, h.raised]
    | @error f c d h =>
      refine ⟨?_, h.registers, h.bus, rfl⟩
      rw [StepReport.kept, StepReport.kept, filter_append_congr h.raised rfl]

omit [Device δ] [Device ε] hR in
theorem kept_located {report report' : StepReport} (h : report.kept keep = report'.kept keep) :
    (located report).filter (fun d => keep d.2) = (located report').filter fun d => keep d.2 := by
  simp only [StepReport.kept, StepReport.mk.injEq] at h
  obtain ⟨hpc, hkept, -⟩ := h
  simp only [located, List.filter_map, Function.comp_def, hpc, hkept]

theorem Agree.run (h : m.Agree R n) (budget : Nat) :
    (m.run budget).1.kept keep = (n.run budget).1.kept keep ∧
      (m.run budget).2.Agree R (n.run budget).2 := by
  induction budget generalizing m n with
  | zero => exact ⟨by simp only [run_zero, isRunning, h.state], h⟩
  | succ budget ih =>
    have hrunning : m.isRunning = n.isRunning := congrArg RunState.isRunning h.state
    cases hm : m.isRunning with
    | false =>
      rw [run_of_halted hm, run_of_halted (hrunning.symm.trans hm)]
      exact ⟨rfl, h⟩
    | true =>
      obtain ⟨hreport, hclock⟩ := h.clock hR
      obtain ⟨houtcome, hrest⟩ := ih hclock
      rw [run_succ hm, run_succ (hrunning.symm.trans hm)]
      refine ⟨?_, hrest⟩
      simp only [RunOutcome.kept, RunOutcome.mk.injEq] at houtcome ⊢
      obtain ⟨hclocks, hkept, hend⟩ := houtcome
      simp only [List.filter_append, kept_located hreport, hclocks, hkept, hend, and_self]

theorem store_alike {b : Bus δ} {c : Bus ε} (h : R b c) (image : Image) :
    (store image b).1.filter keep = (store image c).1.filter keep ∧
      (store image b).2.1 = (store image c).2.1 ∧ R (store image b).2.2 (store image c).2.2 := by
  induction image generalizing b c with
  | nil => exact ⟨rfl, rfl, h⟩
  | cons e image ih =>
    obtain ⟨htransfer, hbus⟩ := hR.write h e.address e.byte
    obtain ⟨hresult, hkept⟩ := Transfer.kept_eq_iff.1 htransfer
    simp only [store, hresult]
    cases (c.write e.address e.byte).1.result with
    | error f => exact ⟨filter_append_congr hkept rfl, rfl, hbus⟩
    | ok u =>
      obtain ⟨hraised, hfault, hrest⟩ := ih hbus
      exact ⟨filter_append_congr hkept hraised, hfault, hrest⟩

theorem Agree.load (h : m.Agree R n) (image : Image) :
    (m.load image).1.kept keep = (n.load image).1.kept keep ∧
      (m.load image).2.Agree R (n.load image).2 := by
  obtain ⟨rs, b, state⟩ := m
  obtain ⟨_, c, _⟩ := n
  obtain ⟨rfl, hbus, rfl⟩ := h
  obtain ⟨hraised, hfault, hrest⟩ := store_alike hR hbus image
  simp only [Machine.load, StepReport.kept, hraised, hfault, true_and]
  exact ⟨rfl, hrest, rfl⟩

theorem Agree.restart (h : m.Agree R n) : m.restart.Agree R n.restart :=
  ⟨rfl, hR.reset h.bus, rfl⟩

theorem Agree.operate_kept (h : m.Agree R n) (op : Operation) :
    (m.operate op).1.kept keep = (n.operate op).1.kept keep ∧
      (m.operate op).2.Agree R (n.operate op).2 := by
  cases op with
  | clock =>
    obtain ⟨hreport, hrest⟩ := h.clock hR
    exact ⟨congrArg Answer.report hreport, hrest⟩
  | run budget =>
    obtain ⟨houtcome, hrest⟩ := h.run hR budget
    exact ⟨congrArg Answer.outcome houtcome, hrest⟩
  | load image =>
    obtain ⟨hreport, hrest⟩ := h.load hR image
    exact ⟨congrArg Answer.report hreport, hrest⟩
  | set register k =>
    simp only [Machine.operate, Machine.set, h.registers]
    cases n.registers.set register k with
    | ok rs => exact ⟨rfl, rfl, h.bus, h.state⟩
    | error e => exact ⟨rfl, h⟩
  | restart => exact ⟨rfl, h.restart hR⟩
  | read a =>
    obtain ⟨htransfer, hbus⟩ := hR.read h.bus a
    exact ⟨congrArg Answer.read htransfer, h.registers, hbus, h.state⟩
  | write a v =>
    obtain ⟨htransfer, hbus⟩ := hR.write h.bus a v
    exact ⟨congrArg Answer.written htransfer, h.registers, hbus, h.state⟩

/-- Whatever is done to machines that agree, of what is seen the same is kept, and they go on to
agree. -/
theorem Agree.operateAll_kept (h : m.Agree R n) (ops : List Operation) :
    (m.operateAll ops).1.map (·.kept keep) = (n.operateAll ops).1.map (·.kept keep) ∧
      (m.operateAll ops).2.Agree R (n.operateAll ops).2 := by
  induction ops generalizing m n with
  | nil => exact ⟨rfl, h⟩
  | cons op ops ih =>
    obtain ⟨hanswer, hnext⟩ := h.operate_kept hR op
    obtain ⟨hseen, hrest⟩ := ih hnext
    refine ⟨?_, hrest⟩
    simp only [Machine.operateAll, List.map_cons, Observation.kept, hanswer, hnext.registers,
      hnext.state]
    exact congrArg _ hseen

end

end Machine

end Octet
