import Octet.Proofs.Bus.Arbitration
import Octet.Proofs.Machine.Routing
import Octet.Proofs.Machine.Tiling

/-! # Loads

A load stores the entries of an image up to the first one whose address belongs to no memory. Which
entries these are, what is reported of them and whether the machine halts follows from the number of
memories at each address; and in a cell there is the byte of the last entry that reaches it.
-/

namespace Octet

namespace Image

/-- The entries in front of the first one that nobody answers to. -/
def answered (count : Address → Nat) (image : Image) : Image :=
  image.takeWhile fun e => count e.address != 0

def unanswered? (count : Address → Nat) (image : Image) : Option Entry :=
  image.find? fun e => count e.address == 0

/-- The fault of a machine at an entry that nobody answers to. -/
def Entry.refusal (e : Entry) : Fault := .noDeviceResponded .write e.address

def conflicts (count : Address → Nat) (image : Image) : List Diagnostic :=
  (image.filter fun e => 2 ≤ count e.address).map
    fun e => .multipleResponders .write e.address (count e.address)

variable {count : Address → Nat} {e : Entry}

theorem conflicts_append (image rest : Image) :
    conflicts count (image ++ rest) = conflicts count image ++ conflicts count rest := by
  rw [conflicts, List.filter_append, List.map_append, conflicts, conflicts]

theorem answered_cons_of_eq_zero (h : count e.address = 0) (image : Image) :
    answered count (e :: image) = [] := by
  apply List.takeWhile_cons_of_neg
  simpa using h

theorem answered_cons_of_pos (h : 0 < count e.address) (image : Image) :
    answered count (e :: image) = e :: answered count image := by
  apply List.takeWhile_cons_of_pos
  simpa using Nat.ne_of_gt h

theorem unanswered?_cons_of_eq_zero (h : count e.address = 0) (image : Image) :
    unanswered? count (e :: image) = some e := by
  apply List.find?_cons_of_pos
  simpa using h

theorem unanswered?_cons_of_pos (h : 0 < count e.address) (image : Image) :
    unanswered? count (e :: image) = unanswered? count image := by
  apply List.find?_cons_of_neg
  simpa using Nat.ne_of_gt h

end Image

namespace Machine

variable {δ : Type} [Device δ]

theorem ids_store (image : Image) (bus : Bus δ) :
    (store image bus).2.2.ids = bus.ids ∧ (store image bus).2.2.nextId = bus.nextId := by
  induction image generalizing bus with
  | nil => exact ⟨rfl, rfl⟩
  | cons e image ih =>
    cases h : (bus.write e.address e.byte).1.result with
    | error f =>
      simp only [store, h]
      exact ⟨bus.ids_write _ _, rfl⟩
    | ok u =>
      simp only [store, h]
      obtain ⟨hids, hnext⟩ := ih (bus.write e.address e.byte).2
      exact ⟨hids.trans (bus.ids_write _ _), hnext⟩

variable [Device.Steady δ] {bus : Bus δ} {e : Image.Entry}

theorem store_cons_of_unanswered (h : Bus.responders bus.devices e.address = 0) (image : Image) :
    store (e :: image) bus =
      ([.fault e.refusal], some e.refusal, (bus.write e.address e.byte).2) := by
  have hwrite : (bus.write e.address e.byte).1 = ⟨.error e.refusal, []⟩ := by
    rw [Bus.transfer_write, Bus.accepting_eq_responders, h]
    rfl
  simp only [store, hwrite, List.nil_append]

theorem store_cons_of_answered (h : 0 < Bus.responders bus.devices e.address) (image : Image) :
    store (e :: image) bus =
      (Image.conflicts (Bus.responders bus.devices) [e] ++
          (store image (bus.write e.address e.byte).2).1,
        (store image (bus.write e.address e.byte).2).2) := by
  have hwrite : (bus.write e.address e.byte).1 =
      ⟨.ok (), Image.conflicts (Bus.responders bus.devices) [e]⟩ := by
    rw [Bus.transfer_write, Bus.accepting_eq_responders, Bus.arbitrate_of_pos h]
    by_cases htwo : 2 ≤ Bus.responders bus.devices e.address <;> simp [Image.conflicts, htwo]
  simp only [store, hwrite]

/-- What is reported of a load, and the fault that ends it. -/
theorem store_eq {count : Address → Nat} (hcount : Bus.responders bus.devices = count)
    (image : Image) : (store image bus).1 = (image.answered count).conflicts count ++
        (image.unanswered? count).toList.map (.fault ·.refusal) ∧
      (store image bus).2.1 = (image.unanswered? count).map (·.refusal) := by
  induction image generalizing bus with
  | nil => exact ⟨rfl, rfl⟩
  | cons e image ih =>
    have hrest := ih ((bus.responders_write e.address e.byte).trans hcount)
    subst hcount
    obtain hzero | hpos := Nat.eq_zero_or_pos (Bus.responders bus.devices e.address)
    · rw [store_cons_of_unanswered hzero, Image.answered_cons_of_eq_zero hzero,
        Image.unanswered?_cons_of_eq_zero hzero]
      exact ⟨rfl, rfl⟩
    · obtain ⟨hraised, hfault⟩ := hrest
      rw [store_cons_of_answered hpos, Image.answered_cons_of_pos hpos,
        Image.unanswered?_cons_of_pos hpos, hraised, hfault]
      rw [← List.append_assoc, ← Image.conflicts_append]
      exact ⟨rfl, rfl⟩

end Machine

namespace RangeLimiter

variable (l : RangeLimiter Memory)

theorem setting_put (a : Address) (v : Byte) : (l.put a v).enabled = l.enabled ∧
    (l.put a v).range = l.range ∧ (l.put a v).device.width = l.device.width := by
  rw [put]
  split <;> exact ⟨rfl, rfl, rfl⟩

theorem put_of_not_passes {a : Address} (h : l.passes a = false) (v : Byte) : l.put a v = l := by
  rw [put, h, if_neg Bool.false_ne_true]

def putAll (image : Image) : RangeLimiter Memory :=
  image.foldl (fun l e => l.put e.address e.byte) l

@[simp] theorem putAll_cons (e : Image.Entry) (image : Image) :
    l.putAll (e :: image) = (l.put e.address e.byte).putAll image := rfl

theorem putAll_append (image rest : Image) :
    l.putAll (image ++ rest) = (l.putAll image).putAll rest := List.foldl_append

theorem setting_putAll (image : Image) : (l.putAll image).enabled = l.enabled ∧
    (l.putAll image).range = l.range ∧ (l.putAll image).device.width = l.device.width := by
  induction image generalizing l with
  | nil => exact ⟨rfl, rfl, rfl⟩
  | cons e image ih =>
    obtain ⟨henabled, hrange, hwidth⟩ := ih (l.put e.address e.byte)
    obtain ⟨henabled', hrange', hwidth'⟩ := l.setting_put e.address e.byte
    exact ⟨henabled.trans henabled', hrange.trans hrange', hwidth.trans hwidth'⟩

end RangeLimiter

namespace MemoryConfig

/-- A limiter with a memory as this configuration describes them, whatever is stored in it. -/
structure Describes (config : MemoryConfig) (l : RangeLimiter Memory) : Prop where
  width : l.device.width = config.addressBits
  passes : ∀ a, l.passes a = config.admits a

/-- Whether an entry belongs in cell `i` of the memory. -/
def Reaches (config : MemoryConfig) (i : Nat) (e : Image.Entry) : Prop :=
  config.admits e.address = true ∧ e.address.toNat % 1 <<< config.addressBits = i

instance (config : MemoryConfig) (i : Nat) : DecidablePred (config.Reaches i) :=
  fun _ => inferInstanceAs (Decidable (_ ∧ _))

/-- The limiter `l'` has the setting of `l`, and stored in its memory are the entries that reach it:
of those which reach the same cell the last one, and in the cells that none reaches what was there. -/
structure Stores (config : MemoryConfig) (written : Image) (l l' : RangeLimiter Memory) : Prop where
  setting : l'.enabled = l.enabled ∧ l'.range = l.range ∧ l'.device.width = l.device.width
  last : ∀ i earlier e later, written = earlier ++ e :: later → config.Reaches i e →
    (∀ x ∈ later, ¬config.Reaches i x) → l'.device.cell i = e.byte
  kept : ∀ i, (∀ e ∈ written, ¬config.Reaches i e) → l'.device.cell i = l.device.cell i

variable {config : MemoryConfig} {l : RangeLimiter Memory}

theorem Builds.describes (h : config.Builds l) : config.Describes l :=
  ⟨h.width, h.passes_eq_admits⟩

namespace Describes

theorem reset (h : config.Describes l) : config.Describes (Device.reset l) := ⟨h.width, h.passes⟩

theorem put (h : config.Describes l) (a : Address) (v : Byte) : config.Describes (l.put a v) where
  width := (l.setting_put a v).2.2.trans h.width
  passes b := (l.passes_put a v b).trans (h.passes b)

theorem putAll (h : config.Describes l) (image : Image) : config.Describes (l.putAll image) := by
  induction image generalizing l with
  | nil => exact h
  | cons e image ih => exact ih (h.put e.address e.byte)

theorem index_eq (h : config.Describes l) (a : Address) :
    l.device.index a = a.toNat % 1 <<< config.addressBits := by
  rw [Memory.index, Memory.size_eq, h.width]

theorem cell_put_of_reaches (h : config.Describes l) {i : Nat} {e : Image.Entry}
    (hreach : config.Reaches i e) : (l.put e.address e.byte).device.cell i = e.byte := by
  obtain ⟨hadmits, hi⟩ := hreach
  rw [RangeLimiter.put, h.passes, if_pos hadmits]
  rw [Memory.cell_set, h.index_eq, if_pos hi.symm]

theorem cell_put_of_not_reaches (h : config.Describes l) {i : Nat} {e : Image.Entry}
    (hreach : ¬config.Reaches i e) :
    (l.put e.address e.byte).device.cell i = l.device.cell i := by
  rw [RangeLimiter.put, h.passes]
  split
  · rename_i hadmits
    rw [Memory.cell_set, h.index_eq, if_neg]
    exact fun hi => hreach ⟨hadmits, hi.symm⟩
  · rfl

theorem cell_putAll_of_not_reaches (h : config.Describes l) {i : Nat} {image : Image}
    (hreach : ∀ e ∈ image, ¬config.Reaches i e) :
    (l.putAll image).device.cell i = l.device.cell i := by
  induction image generalizing l with
  | nil => rfl
  | cons e image ih =>
    obtain ⟨he, himage⟩ := List.forall_mem_cons.1 hreach
    exact (ih (h.put e.address e.byte) himage).trans (h.cell_put_of_not_reaches he)

theorem stores (h : config.Describes l) (image : Image) :
    config.Stores image l (l.putAll image) where
  setting := l.setting_putAll image
  last := by
    rintro i earlier e later rfl hreach hlater
    have he := (h.putAll earlier).cell_put_of_reaches hreach
    rw [RangeLimiter.putAll_append, RangeLimiter.putAll_cons]
    rw [((h.putAll earlier).put e.address e.byte).cell_putAll_of_not_reaches hlater, he]
  kept _ hreach := h.cell_putAll_of_not_reaches hreach

end Describes

end MemoryConfig

namespace Machine

/-- A load stores the entries in front of the first one that nobody answers to. -/
theorem devices_store {count : Address → Nat} {bus : Bus (RangeLimiter Memory)}
    (hcount : Bus.responders bus.devices = count) (image : Image) :
    (store image bus).2.2.devices = bus.devices.map (·.putAll (image.answered count)) := by
  induction image generalizing bus with
  | nil => exact (List.map_id _).symm
  | cons e image ih =>
    have hwrite : (bus.write e.address e.byte).2.devices =
        bus.devices.map (·.put e.address e.byte) := by
      simp only [Bus.devices_write, RangeLimiter.write_memory]
    have hrest := ih ((bus.responders_write e.address e.byte).trans hcount)
    subst hcount
    obtain hzero | hpos := Nat.eq_zero_or_pos (Bus.responders bus.devices e.address)
    · rw [store_cons_of_unanswered hzero, Image.answered_cons_of_eq_zero hzero]
      dsimp only
      rw [hwrite]
      refine List.map_congr_left fun l hl => l.put_of_not_passes ?_ e.byte
      have hnot := List.countP_eq_zero.1 hzero l hl
      rwa [RangeLimiter.responds_eq, Memory.responds_eq, Bool.and_true, Bool.not_eq_true] at hnot
    · rw [store_cons_of_answered hpos, Image.answered_cons_of_pos hpos]
      dsimp only
      rw [hrest, hwrite, List.map_map]
      rfl

end Machine

namespace Machine

variable {m : Machine (RangeLimiter Memory)}

theorem IsStandard.operateAll (h : m.IsStandard) (ops : List Operation) :
    (m.operateAll ops).2.IsStandard := by
  apply m.operateAll_keeps (P := fun b => ∃ mem : Memory, mem.width = 16 ∧ b = .flat mem) _ _ _ h
  · rintro _ a ⟨mem, hw, rfl⟩
    exact ⟨mem, hw, by rw [Bus.read_flat]⟩
  · rintro _ a v ⟨mem, hw, rfl⟩
    exact ⟨mem.set a v, hw, by rw [Bus.write_flat]⟩
  · rintro _ ⟨mem, hw, rfl⟩
    exact ⟨mem.clear, hw, Bus.reset_flat mem⟩

theorem IsStandard.load_perm (h : m.IsStandard) {image image' : Image}
    (hd : image.Pairwise (·.address ≠ ·.address)) (hperm : image'.Perm image) :
    m.load image' = m.load image := by
  obtain ⟨rs, bus, state⟩ := m
  obtain ⟨mem, hw, rfl⟩ : ∃ mem : Memory, mem.width = 16 ∧ bus = .flat mem := h
  rw [load_flat, load_flat, Memory.storeAll_perm hw hd hperm]

end Machine

namespace MachineConfig

variable {config : MachineConfig} {m : Machine (RangeLimiter Memory)}

theorem describes_operateAll (h : config.machine = .ok m) (ops : List Operation) :
    List.Forall₂ MemoryConfig.Describes config.memories (m.operateAll ops).2.bus.devices := by
  obtain ⟨ds, hds, rfl⟩ := exists_devices_of_machine h
  have hstart : List.Forall₂ MemoryConfig.Describes config.memories
      (Machine.ofDevices ds).bus.devices := by
    rw [Machine.ofDevices, Machine.ofBus, Bus.devices_ofDevices]
    exact hds.imp fun _ _ => MemoryConfig.Builds.describes
  have hmap {f : RangeLimiter Memory → RangeLimiter Memory} {ds : List (RangeLimiter Memory)}
      (hf : ∀ memory l, MemoryConfig.Describes memory l → memory.Describes (f l))
      (h : List.Forall₂ MemoryConfig.Describes config.memories ds) :
      List.Forall₂ MemoryConfig.Describes config.memories (ds.map f) :=
    List.forall₂_map_right_iff.2 (h.imp hf)
  apply Machine.operateAll_keeps (Machine.ofDevices ds)
    (P := fun b => List.Forall₂ MemoryConfig.Describes config.memories b.devices) _ _ _ hstart
  · intro b a hb
    rw [Bus.devices_read]
    apply hmap _ hb
    intro memory l hl
    rwa [RangeLimiter.read_memory]
  · intro b a v hb
    rw [Bus.devices_write]
    apply hmap _ hb
    intro memory l hl
    rw [RangeLimiter.write_memory]
    exact hl.put a v
  · intro b hb
    rw [Bus.devices_reset]
    exact hmap (fun _ _ => MemoryConfig.Describes.reset) hb

/-- Whatever has been done to a configured machine, a load stores the entries in front of the first
one that no memory answers to, in their order, and no others. That one halts the machine and is
reported last, behind the entries to which several memories answered; without it the run state stays.
On the standard machine an image with one byte for each address can be loaded in any order. -/
theorem load_stores (config : MachineConfig) (m : Machine (RangeLimiter Memory))
    (h : config.machine = .ok m) (ops : List Operation) (image : Image) :
    let used := (m.operateAll ops).2
    let report := (used.load image).1
    let loaded := (used.load image).2
    let written := image.answered config.admitting
    let refused? := image.unanswered? config.admitting
    loaded.registers = used.registers ∧
    loaded.state = refused?.elim used.state (fun e => .halted (.fault e.refusal)) ∧
    report = ⟨used.registers.p,
      written.conflicts config.admitting ++ refused?.toList.map (fun e => .fault e.refusal),
      loaded.state.isRunning⟩ ∧
    loaded.bus.ids = used.bus.ids ∧ loaded.bus.nextId = used.bus.nextId ∧
    loaded.bus.devices = used.bus.devices.map (·.putAll written) ∧
    List.Forall₂ (fun memory l => memory.Describes l ∧ memory.Stores written l (l.putAll written))
      config.memories used.bus.devices ∧
    (config = .standard → image.Pairwise (·.address ≠ ·.address) →
      ∀ image', image'.Perm image → used.load image' = used.load image) := by
  intro used
  have hcount : Bus.responders used.bus.devices = config.admitting :=
    (m.responders_operateAll ops).trans (responders_of_machine h)
  have hdescribes : List.Forall₂ MemoryConfig.Describes config.memories used.bus.devices :=
    describes_operateAll h ops
  have hstandard : config = .standard → used.IsStandard := by
    rintro rfl
    exact (Machine.isStandard_of_machine h).operateAll ops
  clear_value used
  obtain ⟨rs, bus, state⟩ := used
  dsimp only at hcount hdescribes
  obtain ⟨hraised, hfault⟩ := Machine.store_eq hcount image
  obtain ⟨hids, hnext⟩ := Machine.ids_store image bus
  have hstate : ((Machine.mk rs bus state).load image).2.state =
      (image.unanswered? config.admitting).elim state (fun e => .halted (.fault e.refusal)) := by
    simp only [Machine.load, hfault]
    cases image.unanswered? config.admitting <;> rfl
  refine ⟨rfl, hstate, ?_, hids, hnext, Machine.devices_store hcount image, ?_, ?_⟩
  · rw [← hraised]
    rfl
  · exact hdescribes.imp fun memory l hl => ⟨hl, hl.stores _⟩
  · exact fun hc hd image' hperm => (hstandard hc).load_perm hd hperm

/-- A memory of two cells in the lower half, a second one in part of it, and an image that runs into
the gap behind them; then two bytes that the standard machine takes in either order. -/
theorem load_stores_gap :
    let config : MachineConfig := ⟨[⟨1, some ['0']⟩, ⟨3, some ['0', '1']⟩]⟩
    let ops : List Operation := [.write 1 9, .run 5]
    let image : Image := [⟨0, 1⟩, ⟨0x4002, 2⟩, ⟨2, 4⟩, ⟨0x8000, 5⟩, ⟨1, 6⟩]
    let gap : Fault := .noDeviceResponded .write 0x8000
    (∃ m, config.machine = .ok m ∧
      let used := (m.operateAll ops).2
      let report := (used.load image).1
      let loaded := (used.load image).2
      report.diagnostics = [.multipleResponders .write 0x4002 2, .fault gap] ∧
      loaded.state = .halted (.fault gap) ∧
      ∃ l₁ l₂ l₁' l₂', used.bus.devices = [l₁, l₂] ∧ loaded.bus.devices = [l₁', l₂'] ∧
        l₁'.device.cell 0 = 4 ∧ l₁'.device.cell 1 = l₁.device.cell 1 ∧ l₂'.device.cell 2 = 2) ∧
    ∃ m, MachineConfig.standard.machine = .ok m ∧
      (m.operateAll ops).2.load [⟨8, 2⟩, ⟨7, 1⟩] = (m.operateAll ops).2.load [⟨7, 1⟩, ⟨8, 2⟩] := by
  intro config ops image gap
  constructor
  · obtain ⟨m, h⟩ : ∃ m, config.machine = .ok m := ⟨_, rfl⟩
    have hwritten : image.answered config.admitting = [⟨0, 1⟩, ⟨0x4002, 2⟩, ⟨2, 4⟩] := by
      decide +kernel
    have hrefused : image.unanswered? config.admitting = some ⟨0x8000, 5⟩ := by decide +kernel
    have hconflicts : Image.conflicts config.admitting [⟨0, 1⟩, ⟨0x4002, 2⟩, ⟨2, 4⟩] =
        [.multipleResponders .write 0x4002 2] := by decide +kernel
    obtain ⟨-, hstate, hreport, -, -, hdevices, hstores, -⟩ := load_stores config m h ops image
    rw [hrefused] at hstate
    rw [hwritten, hrefused, hconflicts] at hreport
    rw [hwritten] at hdevices hstores
    obtain ⟨l₁, _, ⟨-, h₁⟩, hrest, hds⟩ := List.forall₂_cons_left_iff.1 hstores
    obtain ⟨l₂, _, ⟨-, h₂⟩, hnil, rfl⟩ := List.forall₂_cons_left_iff.1 hrest
    cases hnil
    rw [hds] at hdevices
    refine ⟨m, h, congrArg StepReport.diagnostics hreport, hstate, l₁, l₂, _, _, hds, hdevices,
      ?_, ?_, ?_⟩
    · exact h₁.last 0 [⟨0, 1⟩, ⟨0x4002, 2⟩] ⟨2, 4⟩ [] rfl (by decide) (by simp)
    · exact h₁.kept 1 (by decide)
    · exact h₂.last 2 [⟨0, 1⟩] ⟨0x4002, 2⟩ [⟨2, 4⟩] rfl (by decide) (by decide)
  · obtain ⟨m, h⟩ : ∃ m, MachineConfig.standard.machine = .ok m := ⟨_, rfl⟩
    obtain ⟨-, -, -, -, -, -, -, horder⟩ := load_stores .standard m h ops [⟨7, 1⟩, ⟨8, 2⟩]
    exact ⟨m, h, horder rfl (by decide) _ (.swap ..)⟩

end MachineConfig

end Octet
