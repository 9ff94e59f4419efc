import Octet.Proofs.Machine.Likeness

/-! # Machines with buses that answer alike

Two buses may hold different devices and still give the same transfers for ever, diagnostics and
all. Two machines with buses so related, the same registers and the same run state cannot be told
apart.
-/

namespace Octet

variable {δ ε : Type} {R : Bus δ → Bus ε → Prop}

section

variable [Device δ] [Device ε]

/-- Related buses give the same transfers and stay related. -/
structure Bus.Bisimulation (R : Bus δ → Bus ε → Prop) : Prop where
  read : ∀ {b c}, R b c → ∀ a, (b.read a).1 = (c.read a).1 ∧ R (b.read a).2 (c.read a).2
  write : ∀ {b c}, R b c → ∀ a v,
    (b.write a v).1 = (c.write a v).1 ∧ R (b.write a v).2 (c.write a v).2
  reset : ∀ {b c}, R b c → R b.reset c.reset

theorem Bus.Bisimulation.of_invariant {P : Bus δ → Prop} (hread : ∀ b a, P b → P (b.read a).2)
    (hwrite : ∀ b a v, P b → P (b.write a v).2) (hreset : ∀ b, P b → P b.reset) :
    Bisimulation fun b c : Bus δ => b = c ∧ P b where
  read := by
    rintro b _ ⟨rfl, h⟩ a
    exact ⟨rfl, rfl, hread b a h⟩
  write := by
    rintro b _ ⟨rfl, h⟩ a v
    exact ⟨rfl, rfl, hwrite b a v h⟩
  reset := by
    rintro b _ ⟨rfl, h⟩
    exact ⟨rfl, hreset b h⟩

theorem Bus.Bisimulation.likeness (hR : Bisimulation R) : Likeness (fun _ => true) R where
  read h a := ⟨congrArg (Transfer.kept _) (hR.read h a).1, (hR.read h a).2⟩
  write h a v := ⟨congrArg (Transfer.kept _) (hR.write h a v).1, (hR.write h a v).2⟩
  reset := hR.reset

end

namespace Machine

variable [Device δ] [Device ε] {m : Machine δ} {n : Machine ε}

theorem Agree.operate (hR : Bus.Bisimulation R) (h : m.Agree R n) (op : Operation) :
    (m.operate op).1 = (n.operate op).1 ∧ (m.operate op).2.Agree R (n.operate op).2 := by
  obtain ⟨hanswer, hnext⟩ := h.operate_kept hR.likeness op
  rw [Answer.kept_true, Answer.kept_true] at hanswer
  exact ⟨hanswer, hnext⟩

/-- Whatever is done to machines that agree, the same is seen of both, and they go on to agree. -/
theorem Agree.operateAll (hR : Bus.Bisimulation R) (h : m.Agree R n) (ops : List Operation) :
    (m.operateAll ops).1 = (n.operateAll ops).1 ∧
      (m.operateAll ops).2.Agree R (n.operateAll ops).2 := by
  obtain ⟨hseen, hrest⟩ := h.operateAll_kept hR.likeness ops
  rw [Observation.kept_true, List.map_id, List.map_id] at hseen
  exact ⟨hseen, hrest⟩

/-- What every transfer and every reset keeps of a bus is kept by all that is done to a machine. -/
theorem operateAll_keeps (m : Machine δ) {P : Bus δ → Prop}
    (hread : ∀ b a, P b → P (b.read a).2) (hwrite : ∀ b a v, P b → P (b.write a v).2)
    (hreset : ∀ b, P b → P b.reset) (h : P m.bus) (ops : List Operation) : P (m.operateAll ops).2.bus := by
  have hagree : m.Agree (fun b c => b = c ∧ P b) m := ⟨rfl, ⟨rfl, h⟩, rfl⟩
  obtain ⟨-, hend⟩ := hagree.operateAll (.of_invariant hread hwrite hreset) ops
  exact hend.bus.2

end Machine

end Octet
