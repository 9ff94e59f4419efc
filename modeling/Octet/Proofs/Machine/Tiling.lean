import Octet.Proofs.Machine.Configuration
import Octet.Proofs.Machine.Flat
import Octet.Proofs.Machine.Simulation

/-! # Address spaces in several memories

Memories whose ranges tile the address space, each of them wide enough for its range, are together
one memory with a cell for every address. No program and no host can tell the two apart.
-/

namespace Octet

namespace AddressRange

theorem eq_of_shiftRight_eq {m n k w : Nat} (hk : k ≤ w) (hhigh : m >>> k = n >>> k)
    (hlow : m % 1 <<< w = n % 1 <<< w) : m = n := by
  have hdvd : 1 <<< k ∣ 1 <<< w := by
    rw [Nat.one_shiftLeft, Nat.one_shiftLeft]
    exact Nat.pow_dvd_pow 2 hk
  have hmod : m % 1 <<< k = n % 1 <<< k := by
    rw [← Nat.mod_mod_of_dvd m hdvd, hlow, Nat.mod_mod_of_dvd n hdvd]
  rw [Nat.shiftRight_eq_div_pow, Nat.shiftRight_eq_div_pow, ← Nat.one_shiftLeft] at hhigh
  rw [← Nat.div_add_mod m (1 <<< k), hhigh, hmod, Nat.div_add_mod]

theorem eq_of_covers {r : AddressRange} {a b : Address} {width : Nat} (ha : r.covers a = true)
    (hb : r.covers b = true) (hwidth : 16 ≤ width + r.length)
    (h : a.toNat % 1 <<< width = b.toNat % 1 <<< width) : a = b := by
  rw [covers_iff_shiftRight] at ha hb
  exact UInt16.toNat_inj.1 (eq_of_shiftRight_eq (by omega) (ha.trans hb.symm) h)

end AddressRange

namespace RangeLimiter

variable (l : RangeLimiter Memory) (a : Address) (v : Byte)

/-- The limiter with the byte stored in its memory, if it lets the address through. -/
def put : RangeLimiter Memory := if l.passes a then { l with device := l.device.set a v } else l

theorem read_memory :
    Device.read l a = (if l.passes a then some (l.device.get a) else none, l) := by
  rw [read_eq]
  split <;> rfl

theorem write_memory : Device.write l a v = (l.passes a, l.put a v) := by
  rw [write_eq, put]
  cases h : l.passes a <;> rfl

@[simp] theorem passes_put (b : Address) : (l.put a v).passes b = l.passes b := by
  rw [put]
  split <;> rfl

@[simp] theorem index_put (b : Address) : (l.put a v).device.index b = l.device.index b := by
  rw [put]
  split
  · rw [Memory.index, Memory.size_set, Memory.index]
  · rfl

end RangeLimiter

/-- The devices tile a memory: each address is let through by one of them, which has a cell of its own
for it with the byte that the memory has. -/
structure Tiles (ds : List (RangeLimiter Memory)) (mem : Memory) : Prop where
  one : ∀ a, ds.countP (·.passes a) = 1
  index_inj : ∀ l ∈ ds, ∀ a b, l.passes a = true → l.passes b = true →
    l.device.index a = l.device.index b → a = b
  get : ∀ l ∈ ds, ∀ a, l.passes a = true → l.device.get a = mem.get a

namespace Tiles

variable {ds : List (RangeLimiter Memory)} {mem : Memory}

theorem answers_eq (h : Tiles ds mem) (a : Address) : Bus.answers a ds = [mem.get a] := by
  have hanswers : Bus.answers a ds =
      (ds.filter (·.passes a)).map (·.device.get a) := by
    clear h
    induction ds with
    | nil => rfl
    | cons l ds ih =>
      rw [Bus.answers] at ih ⊢
      rw [List.filterMap_cons, List.filter_cons, RangeLimiter.read_memory]
      cases hl : l.passes a <;> simp [ih]
  have hone := h.one a
  rw [List.countP_eq_length_filter] at hone
  obtain ⟨l, hl⟩ := List.length_eq_one_iff.1 hone
  obtain ⟨hmem, hpasses⟩ := List.mem_filter.1 (hl ▸ List.mem_singleton_self l)
  rw [hanswers, hl, List.map_singleton, h.get l hmem a hpasses]

theorem accepting_eq (h : Tiles ds mem) (a : Address) (v : Byte) : Bus.accepting a v ds = 1 := by
  simp only [Bus.accepting, RangeLimiter.write_memory]
  exact h.one a

theorem put (h : Tiles ds mem) (hw : mem.width = 16) (a : Address) (v : Byte) :
    Tiles (ds.map (·.put a v)) (mem.set a v) where
  one b := by
    rw [List.countP_map]
    simp only [Function.comp_def, RangeLimiter.passes_put]
    exact h.one b
  index_inj := by
    intro _ hmem b c
    obtain ⟨l, hl, rfl⟩ := List.mem_map.1 hmem
    simp only [RangeLimiter.passes_put, RangeLimiter.index_put]
    exact h.index_inj l hl b c
  get := by
    intro _ hmem b hb
    obtain ⟨l, hl, rfl⟩ := List.mem_map.1 hmem
    rw [RangeLimiter.passes_put] at hb
    rw [Memory.get_set hw, ← h.get l hl b hb, RangeLimiter.put]
    by_cases ha : l.passes a = true
    · have hindex : l.device.index b = l.device.index a ↔ b = a :=
        ⟨h.index_inj l hl b a hb ha, fun e => e ▸ rfl⟩
      rw [if_pos ha, Memory.get_eq_cell, Memory.cell_set, Memory.index, Memory.size_set,
        ← Memory.index, Memory.get_eq_cell]
      simp only [hindex]
    · have hne : b ≠ a := fun e => ha (e ▸ hb)
      rw [if_neg ha, if_neg hne]

theorem reset (h : Tiles ds mem) : Tiles (ds.map Device.reset) mem.clear where
  one a := by
    rw [List.countP_map]
    exact h.one a
  index_inj := by
    intro _ hmem a b
    obtain ⟨l, hl, rfl⟩ := List.mem_map.1 hmem
    have hsize : l.device.clear.size = l.device.size := by
      rw [Memory.size_eq, Memory.size_eq, Memory.width_clear]
    rw [RangeLimiter.reset_eq]
    simp only [Device.reset, Memory.index, hsize]
    exact h.index_inj l hl a b
  get := by
    intro _ hmem a _
    obtain ⟨l, -, rfl⟩ := List.mem_map.1 hmem
    rw [RangeLimiter.reset_eq]
    simp only [Device.reset, Memory.get_clear]

end Tiles

theorem Bus.bisimulation_tiles : Bisimulation fun b c : Bus (RangeLimiter Memory) =>
    ∃ mem : Memory, mem.width = 16 ∧ Tiles b.devices mem ∧ c = .flat mem where
  read := by
    rintro b _ ⟨mem, hw, h, rfl⟩ a
    rw [read_flat, transfer_read, h.answers_eq]
    refine ⟨?_, mem, hw, ?_, rfl⟩
    · simp [arbitrate, joined]
    · simpa only [devices_read, RangeLimiter.read_memory, List.map_id'] using h
  write := by
    rintro b _ ⟨mem, hw, h, rfl⟩ a v
    rw [write_flat, transfer_write, h.accepting_eq]
    refine ⟨rfl, mem.set a v, hw, ?_, rfl⟩
    simpa only [devices_write, RangeLimiter.write_memory] using h.put hw a v
  reset := by
    rintro b _ ⟨mem, hw, h, rfl⟩
    refine ⟨mem.clear, hw, ?_, reset_flat mem⟩
    rw [devices_reset]
    exact h.reset

namespace MachineConfig

variable {config : MachineConfig}

theorem tiles_of_builds {ds : List (RangeLimiter Memory)}
    (hds : List.Forall₂ MemoryConfig.Builds config.memories ds)
    (hone : ∀ a, config.admitting a = 1)
    (hwide : ∀ e ∈ config.memories, 16 ≤ e.addressBits + e.digits.length) : Tiles ds .full where
  one a := (countP_passes hds a).trans (hone a)
  index_inj := by
    intro l hl a b ha hb h
    obtain ⟨e, he, hbuilds⟩ := exists_of_mem_right hds hl
    have hwidth := hwide e he
    rw [← hbuilds.width, ← hbuilds.length_range] at hwidth
    rw [hbuilds.passes_eq_covers] at ha hb
    rw [Memory.index, Memory.index, Memory.size_eq] at h
    exact AddressRange.eq_of_covers ha hb hwidth h
  get := by
    intro l hl a _
    obtain ⟨e, -, hbuilds⟩ := exists_of_mem_right hds hl
    rw [Memory.get_eq_cell, Memory.get_eq_cell, hbuilds.cell, Memory.cell_full]

/-- If every address begins with the digits of exactly one configured memory, and each memory is as
wide as its digits leave addresses, then the machine cannot be told from the standard one. -/
theorem operateAll_eq_standard (config : MachineConfig) (m m₀ : Machine (RangeLimiter Memory))
    (h : config.machine = .ok m) (h₀ : MachineConfig.standard.machine = .ok m₀)
    (hone : ∀ a, config.admitting a = 1)
    (hwide : ∀ e ∈ config.memories, 16 ≤ e.addressBits + e.digits.length) (ops : List Operation) :
    (m.operateAll ops).1 = (m₀.operateAll ops).1 := by
  obtain ⟨ds, hds, rfl⟩ := exists_devices_of_machine h
  have hbus : m₀ = .ofBus (.flat .full) := by
    cases h₀
    rfl
  subst hbus
  refine (Machine.Agree.operateAll Bus.bisimulation_tiles ?_ ops).1
  refine ⟨rfl, ⟨.full, rfl, ?_, rfl⟩, rfl⟩
  rw [Machine.ofDevices, Machine.ofBus, Bus.devices_ofDevices]
  exact tiles_of_builds hds hone hwide

/-- Three memories for the quarter below the upper half, the upper half, and the lowest quarter. -/
theorem operateAll_eq_standard_three :
    let config : MachineConfig := ⟨[⟨14, some ['0', '1']⟩, ⟨15, some ['1']⟩, ⟨16, some ['0', '0']⟩]⟩
    let ops : List Operation := [.load [⟨0, 42⟩, ⟨0x7fff, 9⟩], .set .a 5, .run 3, .read 0xffff]
    (∀ a, config.admitting a = 1) ∧
      (∀ e ∈ config.memories, 16 ≤ e.addressBits + e.digits.length) ∧
      ∃ m m₀, config.machine = .ok m ∧ MachineConfig.standard.machine = .ok m₀ ∧
        (m.operateAll ops).1 = (m₀.operateAll ops).1 := by
  intro config ops
  have hone : ∀ a, config.admitting a = 1 := by
    intro a
    have hlt : a.toNat / Nat.pow 2 14 < 4 := Nat.div_lt_of_lt_mul a.toNat_lt
    simp only [admitting, MemoryConfig.admits, Numeral.fixed_add 2 2 14]
    generalize Numeral.fixed 2 14 a.toNat = rest
    generalize a.toNat / Nat.pow 2 14 = q at hlt
    obtain rfl | rfl | rfl | rfl : q = 0 ∨ q = 1 ∨ q = 2 ∨ q = 3 := by omega
    all_goals rfl
  have hwide : ∀ e ∈ config.memories, 16 ≤ e.addressBits + e.digits.length := by decide
  have h : config.machine = .ok _ := rfl
  have h₀ : MachineConfig.standard.machine = .ok _ := rfl
  exact ⟨hone, hwide, _, _, h, h₀, operateAll_eq_standard config _ _ h h₀ hone hwide ops⟩

end MachineConfig

end Octet
