import Mathlib.Data.List.Forall2
import Octet.Proofs.Bus.Attached
import Octet.Proofs.Machine.Demands

/-! # What a clock can change

On a bus with memories behind limiters a clock changes no more than the cells that its instruction
stores to, in the memories that the addresses reach. The demands that are met tell all that happens
to the devices.
-/

namespace Octet

namespace Bus

variable (bus : Bus (Attachment Memory))

theorem meet_of_refused {d : Demand} (h : (bus.meet d).1 = false) : (bus.meet d).2 = bus := by
  cases d with
  | read a => exact bus.read_attached a
  | write a v =>
    rcases bus.meet_write a v with ⟨-, hmet⟩ | ⟨hresult, -⟩
    · rw [h] at hmet
      cases hmet
    · exact bus.write_attached_of_refused hresult

theorem devices_meet (d : Demand) :
    (bus.meet d).2.devices = bus.devices.map (·.putAll d.entry?.toList) := by
  cases d with
  | read a =>
    have hread : (bus.meet (.read a)).2 = bus := bus.read_attached a
    rw [hread]
    exact (List.map_id _).symm
  | write a v => exact bus.devices_write_attached a v

section

variable {δ : Type} [Device δ]

theorem serve_keeps {P : Bus δ → Prop} (hmeet : ∀ bus d, P bus → P (bus.meet d).2) {bus : Bus δ}
    (h : P bus) (ds : List Demand) : P (bus.serve ds).2.2 := by
  induction ds generalizing bus with
  | nil => exact h
  | cons d ds ih =>
    cases hd : (bus.meet d).1 with
    | true =>
      rw [serve_cons_of_met hd]
      exact ih (hmeet bus d h)
    | false =>
      rw [serve_cons_of_refused hd]
      exact hmeet bus d h

theorem ids_serve (bus : Bus δ) (ds : List Demand) :
    (bus.serve ds).2.2.ids = bus.ids ∧ (bus.serve ds).2.2.nextId = bus.nextId := by
  refine serve_keeps (P := fun b => b.ids = bus.ids ∧ b.nextId = bus.nextId) ?_ ⟨rfl, rfl⟩ ds
  rintro b d ⟨hids, hnext⟩
  cases d with
  | read a => exact ⟨(b.ids_read a).trans hids, hnext⟩
  | write a v => exact ⟨(b.ids_write a v).trans hids, hnext⟩

theorem served_prefix (bus : Bus δ) (ds : List Demand) :
    (bus.serve ds).1 ++ (bus.serve ds).2.1.toList <+: ds := by
  induction ds generalizing bus with
  | nil => exact List.prefix_rfl
  | cons d ds ih =>
    cases hd : (bus.meet d).1 with
    | true =>
      rw [serve_cons_of_met hd]
      exact (List.prefix_cons_inj d).2 (ih _)
    | false =>
      rw [serve_cons_of_refused hd]
      exact (List.prefix_cons_inj d).2 List.nil_prefix

end

/-- The demands that are met are carried out, one behind the other, on every memory. -/
theorem devices_serve (ds : List Demand) : (bus.serve ds).2.2.devices =
    bus.devices.map (·.putAll ((bus.serve ds).1.filterMap Demand.entry?)) := by
  induction ds generalizing bus with
  | nil => exact (List.map_id _).symm
  | cons d ds ih =>
    cases hd : (bus.meet d).1 with
    | true =>
      rw [serve_cons_of_met hd, ih, devices_meet, List.map_map]
      apply List.map_congr_left
      intro x _
      cases h : d.entry? <;> simp [h, Attachment.putAll]
    | false =>
      rw [serve_cons_of_refused hd, meet_of_refused bus hd]
      exact (List.map_id _).symm

end Bus

namespace Machine

/-- What the next clock is to store, with the registers before it; a call stores the address behind
it. -/
def stores {δ : Type} [Device δ] (m : Machine δ) : Image :=
  let rs := m.registers
  let cell (s : Byte) : Address := Effect.stackPage + s.toUInt16
  match m.instruction? with
  | some .sta => [⟨rs.r, rs.a⟩]
  | some .psh => [⟨cell rs.s, rs.a⟩]
  | some .subr => [⟨cell rs.s, highByte (rs.p + 1)⟩, ⟨cell (rs.s - 1), lowByte (rs.p + 1)⟩]
  | _ => []

theorem filterMap_demands {δ : Type} [Device δ] (m : Machine δ) :
    m.demands.filterMap Demand.entry? = m.stores := by
  unfold demands stores
  cases m.instruction? with
  | none => rfl
  | some op => cases op <;> rfl

/-- The two cells of a call lie in the page at a distance that is odd, so no memory makes one cell
of them. -/
theorem pairwise_stores {δ : Type} [Device δ] (m : Machine δ) (mem : Memory) :
    m.stores.Pairwise fun x y => mem.index x.address ≠ mem.index y.address := by
  unfold stores
  split
  · exact List.pairwise_singleton _ _
  · exact List.pairwise_singleton _ _
  · rw [List.pairwise_pair]
    intro heq
    have heven : 2 ∣ mem.size := by
      rw [mem.size_eq, Nat.one_shiftLeft]
      exact Nat.dvd_of_pow_dvd mem.one_le_width (Nat.dvd_refl _)
    have hparity := congrArg (· % 2) heq
    simp only [Memory.index, Nat.mod_mod_of_dvd _ heven, Effect.stackPage, UInt16.toNat_add,
      UInt8.toNat_toUInt16, UInt16.reduceToNat, UInt8.toNat_sub, UInt8.reduceToNat] at hparity
    have hs := m.registers.s.toNat_lt
    omega
  · exact List.Pairwise.nil

variable (m : Machine (Attachment Memory))

theorem ids_clock {δ : Type} [Device δ] (m : Machine δ) :
    m.clock.2.bus.ids = m.bus.ids ∧ m.clock.2.bus.nextId = m.bus.nextId := by
  cases hm : m.isRunning with
  | true =>
    rw [bus_clock hm]
    exact m.bus.ids_serve m.demands
  | false =>
    rw [clock_of_halted hm]
    exact ⟨rfl, rfl⟩

/-- A clock carries out the first of its stores, and all of them if it does not end in a fault. -/
theorem devices_clock : ∃ done : Image, done.Sublist m.stores ∧
    (m.clock.2.state.fault? = none → done = m.stores) ∧
    m.clock.2.bus.devices = m.bus.devices.map (·.putAll done) := by
  cases hm : m.isRunning with
  | true =>
    refine ⟨(m.bus.serve m.demands).1.filterMap Demand.entry?, ?_, ?_, ?_⟩
    · rw [← filterMap_demands]
      have hgranted := (List.prefix_append _ _).trans (m.bus.served_prefix m.demands)
      exact hgranted.sublist.filterMap _
    · intro hfault
      rw [← filterMap_demands]
      cases course hm with
      | completed op hop hserve hstate => rw [hserve]
      | unfetched hop hserve hregisters hstate | undecoded byte hop hserve hregisters hstate
      | interrupted op granted r hop hserve hregisters hstate =>
        rw [hstate] at hfault
        cases hfault
    · rw [bus_clock hm, m.bus.devices_serve]
  | false =>
    have hnone : m.stores = [] := by
      obtain ⟨rs, bus, state⟩ := m
      cases state with
      | running => cases hm
      | halted reason => rfl
    refine ⟨[], List.nil_sublist _, fun _ => hnone.symm, ?_⟩
    rw [clock_of_halted hm]
    exact (List.map_id _).symm

/-- A clock changes a cell only if its instruction stores to an address that reaches the memory and
selects the cell there. Unless it ends in a fault, every memory that such an address reaches then
has the byte in that cell. An instruction that stores nothing leaves the bus as it is, as every read
does, and no clock changes a size, a limiter or what is mounted. -/
theorem clock_frame :
    m.clock.2.bus.ids = m.bus.ids ∧ m.clock.2.bus.nextId = m.bus.nextId ∧
    (∀ a, (m.bus.read a).2 = m.bus) ∧
    (m.stores = [] → m.clock.2.bus = m.bus) ∧
    List.Forall₂ (fun d d' : Attachment Memory =>
      d'.limits = d.limits ∧ d'.core.width = d.core.width ∧
      (∀ i, d'.core.cell i ≠ d.core.cell i →
        ∃ e ∈ m.stores, d.passes e.address = true ∧ i = d.core.index e.address) ∧
      (m.clock.2.state.fault? = none → ∀ e ∈ m.stores, d.passes e.address = true →
        d'.core.cell (d.core.index e.address) = e.byte))
      m.bus.devices m.clock.2.bus.devices := by
  obtain ⟨hids, hnext⟩ := m.ids_clock
  obtain ⟨done, hdone, hall, hdevices⟩ := m.devices_clock
  refine ⟨hids, hnext, m.bus.read_attached, ?_, ?_⟩
  · intro hnone
    obtain rfl : done = [] := List.sublist_nil.1 (hnone ▸ hdone)
    apply Bus.ext_devices hids _ hnext
    rw [hdevices]
    exact List.map_id _
  · rw [hdevices, List.forall₂_map_right_iff, List.forall₂_same]
    intro d _
    refine ⟨d.limits_putAll done, d.width_putAll done, ?_, ?_⟩
    · intro i hi
      obtain ⟨e, he, hcell⟩ := Attachment.exists_of_cell_putAll_ne hi
      exact ⟨e, hdone.subset he, hcell⟩
    · intro hfault
      rw [hall hfault]
      exact Attachment.cell_putAll_of_mem (m.pairwise_stores d.core)

end Machine

end Octet
