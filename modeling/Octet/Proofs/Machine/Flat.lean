import Octet.Machine.Run
import Octet.MachineConfig

/-! # Machines with one memory

The machine of the standard configuration has one memory on its bus, with a cell for every address.
Its transfers go to that memory, nothing faults, and a load leaves the bytes of the image in it.
-/

namespace Octet

namespace Memory

theorem index_eq {m : Memory} (hw : m.width = 16) (a : Address) : m.index a = a.toNat := by
  have hs : m.size = 65536 := by rw [m.size_eq, hw]; rfl
  rw [index, hs]
  exact Nat.mod_eq_of_lt a.toNat_lt

theorem get_set {m : Memory} (hw : m.width = 16) (a b : Address) (v : Byte) :
    (m.set a v).get b = if b = a then v else m.get b := by
  have hw' : (m.set a v).width = 16 := (m.width_set a v).trans hw
  rw [get_eq_cell, index_eq hw', cell_set, index_eq hw, get_eq_cell, index_eq hw]
  simp only [UInt16.toNat_inj]

@[simp] theorem get_clear (m : Memory) (a : Address) : m.clear.get a = 0 := by
  rw [get_eq_cell, cell_clear]

/-- The memory with the bytes of an image in it, stored one after the other. -/
def storeAll (m : Memory) (image : Image) : Memory :=
  image.foldl (fun m e => m.set e.address e.byte) m

theorem get_storeAll_of_not_mem {m : Memory} (hw : m.width = 16) {image : Image} {a : Address}
    (h : ∀ e ∈ image, e.address ≠ a) : (m.storeAll image).get a = m.get a := by
  induction image generalizing m with
  | nil => rfl
  | cons e image ih =>
    obtain ⟨he, hes⟩ := List.forall_mem_cons.1 h
    have hrest := ih (m := m.set e.address e.byte) hw hes
    rw [get_set hw, if_neg (Ne.symm he)] at hrest
    exact hrest

/-- A byte stays where no later one is stored. -/
theorem get_storeAll_of_mem {m : Memory} (hw : m.width = 16) {image : Image}
    (hd : image.Pairwise (·.address ≠ ·.address)) {e : Image.Entry} (he : e ∈ image) :
    (m.storeAll image).get e.address = e.byte := by
  induction image generalizing m with
  | nil => cases he
  | cons x image ih =>
    obtain ⟨hx, hd⟩ := List.pairwise_cons.1 hd
    rcases List.mem_cons.1 he with rfl | he
    · have hkeep := get_storeAll_of_not_mem (m := m.set e.address e.byte) hw
        fun y hy => Ne.symm (hx y hy)
      rw [get_set hw, if_pos rfl] at hkeep
      exact hkeep
    · exact ih (m := m.set x.address x.byte) hw hd he

theorem ext_get {m n : Memory} (hm : m.width = 16) (hn : n.width = 16)
    (h : ∀ a, m.get a = n.get a) : m = n := by
  apply ext_cell (hm.trans hn.symm)
  intro i
  by_cases hi : i < 65536
  · have ha : (UInt16.ofNat i).toNat = i := UInt16.toNat_ofNat_of_lt' hi
    have hget := h (UInt16.ofNat i)
    rwa [get_eq_cell, get_eq_cell, index_eq hm, index_eq hn, ha] at hget
  · have hsize {k : Memory} (hk : k.width = 16) : k.cells.size ≤ i := by
      have hsize : k.size = 65536 := by rw [k.size_eq, hk]; rfl
      rw [size] at hsize
      omega
    simp [cell, Array.getD, Nat.not_lt.2 (hsize hm), Nat.not_lt.2 (hsize hn)]

theorem width_storeAll (m : Memory) (image : Image) : (m.storeAll image).width = m.width := by
  induction image generalizing m with
  | nil => rfl
  | cons e image ih => exact (ih (m.set e.address e.byte)).trans (m.width_set e.address e.byte)

theorem storeAll_perm {m : Memory} (hw : m.width = 16) {image image' : Image}
    (hd : image.Pairwise (·.address ≠ ·.address)) (hperm : image'.Perm image) :
    m.storeAll image' = m.storeAll image := by
  have hd' : image'.Pairwise (·.address ≠ ·.address) := hd.perm hperm.symm Ne.symm
  apply ext_get ((m.width_storeAll image').trans hw) ((m.width_storeAll image).trans hw)
  intro a
  by_cases h : ∃ e ∈ image, e.address = a
  · obtain ⟨e, he, rfl⟩ := h
    rw [get_storeAll_of_mem hw hd he, get_storeAll_of_mem hw hd' (hperm.mem_iff.2 he)]
  · have hnot : ∀ e ∈ image, e.address ≠ a := fun e he ha => h ⟨e, he, ha⟩
    rw [get_storeAll_of_not_mem hw hnot,
      get_storeAll_of_not_mem hw fun e he => hnot e (hperm.mem_iff.1 he)]

end Memory

namespace Bus

def flat (mem : Memory) : Bus (RangeLimiter Memory) := ⟨[⟨0, .unlimited mem⟩], 1⟩

variable (mem : Memory) (a : Address) (v : Byte)

@[simp] theorem read_flat : (flat mem).read a = (⟨.ok (mem.get a), []⟩, flat mem) := by
  simp [flat, read, readAll, Device.read, RangeLimiter.unlimited, RangeLimiter.passes, arbitrate,
    joined]

@[simp] theorem write_flat : (flat mem).write a v = (⟨.ok (), []⟩, flat (mem.set a v)) := by
  simp [flat, write, writeAll, Device.write, RangeLimiter.unlimited, RangeLimiter.passes, arbitrate]

@[simp] theorem reset_flat : (flat mem).reset = flat mem.clear := rfl

end Bus

namespace Machine

/-- Whether the machine has on its bus what the standard configuration puts there, in any state. -/
def IsStandard (m : Machine (RangeLimiter Memory)) : Prop :=
  ∃ mem : Memory, mem.width = 16 ∧ m.bus = .flat mem

theorem isStandard_of_machine {m : Machine (RangeLimiter Memory)}
    (h : MachineConfig.standard.machine = .ok m) : m.IsStandard := by
  cases h
  exact ⟨.full, rfl, rfl⟩

theorem store_flat (image : Image) (mem : Memory) :
    store image (.flat mem) = ([], none, .flat (mem.storeAll image)) := by
  induction image generalizing mem with
  | nil => rfl
  | cons e image ih =>
    rw [store]
    simp only [Bus.write_flat, ih, List.nil_append]
    rfl

theorem load_flat (image : Image) (rs : RegisterFile) (mem : Memory) (state : RunState) :
    (Machine.mk rs (.flat mem) state).load image =
      (⟨rs.p, [], state.isRunning⟩, ⟨rs, .flat (mem.storeAll image), state⟩) := by
  simp only [load, store_flat]

/-- After a restart the load puts the image into an empty memory. -/
theorem load_restart_of_isStandard {m : Machine (RangeLimiter Memory)} (hm : m.IsStandard)
    (image : Image) : ∃ mem : Memory, mem.width = 16 ∧ (∀ a, mem.get a = 0) ∧
      (m.restart.load image).2 = ⟨.initial, .flat (mem.storeAll image), .running⟩ := by
  obtain ⟨rs, bus, state⟩ := m
  obtain ⟨mem, hw, rfl⟩ : ∃ mem : Memory, mem.width = 16 ∧ bus = .flat mem := hm
  refine ⟨mem.clear, hw, mem.get_clear, ?_⟩
  rw [restart, ofBus, Bus.reset_flat, load_flat]

end Machine

end Octet
