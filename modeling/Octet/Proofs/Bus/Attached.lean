import Mathlib.Data.List.Basic
import Octet.Attachment
import Octet.Image
import Octet.Memory
import Octet.Proofs.Bus.Transfer

/-! # Memories behind limiters

However many limiters stand before a memory, together they let an address through or they do not. A
read leaves the memory as it is, and a write stores one byte in the one cell that its address
selects, if the address is let through.
-/

namespace Octet

namespace Attachment

section

variable {δ : Type}

def core : Attachment δ → δ
  | .bare d => d
  | .limited inner _ _ => inner.core

/-- Whether every limiter lets the address through. -/
def passes : Attachment δ → Address → Bool
  | .bare _, _ => true
  | .limited inner enabled range, a => (!enabled || range.covers a) && inner.passes a

/-- The settings of the limiters, the outermost first. -/
def limits : Attachment δ → List (Bool × AddressRange)
  | .bare _ => []
  | .limited inner enabled range => (enabled, range) :: inner.limits

def replace (e : δ) : Attachment δ → Attachment δ
  | .bare _ => .bare e
  | .limited inner enabled range => .limited (inner.replace e) enabled range

variable (d : Attachment δ) (e : δ)

@[simp] theorem core_replace : (d.replace e).core = e := by
  induction d with
  | bare => rfl
  | limited inner enabled range ih => exact ih

@[simp] theorem passes_replace (a : Address) : (d.replace e).passes a = d.passes a := by
  induction d with
  | bare => rfl
  | limited inner enabled range ih => simp only [replace, passes, ih]

@[simp] theorem limits_replace : (d.replace e).limits = d.limits := by
  induction d with
  | bare => rfl
  | limited inner enabled range ih => simp only [replace, limits, ih]

theorem replace_core : d.replace d.core = d := by
  induction d with
  | bare => rfl
  | limited inner enabled range ih => simp only [replace, core, ih]

variable [Device δ]

theorem read_eq (a : Address) : Device.read d a =
    if d.passes a then ((Device.read d.core a).1, d.replace (Device.read d.core a).2)
    else (none, d) := by
  induction d with
  | bare d => rfl
  | limited inner enabled range ih =>
    have hread : Device.read (limited inner enabled range) a =
        if !enabled || range.covers a then
          ((Device.read inner a).1, limited (Device.read inner a).2 enabled range)
        else (none, limited inner enabled range) := rfl
    rw [hread, ih]
    by_cases houter : (!enabled || range.covers a) = true
    · by_cases hinner : inner.passes a = true
      · simp only [passes, core, replace, houter, hinner, Bool.and_self, ↓reduceIte]
      · simp only [passes, houter, hinner, Bool.and_false, Bool.false_eq_true, ↓reduceIte]
    · simp only [passes, houter, Bool.false_and, Bool.false_eq_true, ↓reduceIte]

theorem write_eq (a : Address) (v : Byte) : Device.write d a v =
    if d.passes a then ((Device.write d.core a v).1, d.replace (Device.write d.core a v).2)
    else (false, d) := by
  induction d with
  | bare d => rfl
  | limited inner enabled range ih =>
    have hwrite : Device.write (limited inner enabled range) a v =
        if !enabled || range.covers a then
          ((Device.write inner a v).1, limited (Device.write inner a v).2 enabled range)
        else (false, limited inner enabled range) := rfl
    rw [hwrite, ih]
    by_cases houter : (!enabled || range.covers a) = true
    · by_cases hinner : inner.passes a = true
      · simp only [passes, core, replace, houter, hinner, Bool.and_self, ↓reduceIte]
      · simp only [passes, houter, hinner, Bool.and_false, Bool.false_eq_true, ↓reduceIte]
    · simp only [passes, houter, Bool.false_and, Bool.false_eq_true, ↓reduceIte]

end

/-- Stores a byte in the memory, if its address is let through. -/
def put (d : Attachment Memory) (e : Image.Entry) : Attachment Memory :=
  if d.passes e.address then d.replace (d.core.set e.address e.byte) else d

def putAll (d : Attachment Memory) (es : Image) : Attachment Memory := es.foldl put d

variable (d : Attachment Memory) (e : Image.Entry) (a : Address)

theorem read_memory : Device.read d a = (if d.passes a then some (d.core.get a) else none, d) := by
  have hread : Device.read d.core a = (some (d.core.get a), d.core) := rfl
  rw [read_eq, hread]
  split
  · rw [replace_core]
  · rfl

theorem write_memory (v : Byte) : Device.write d a v = (d.passes a, d.put ⟨a, v⟩) := by
  have hwrite : Device.write d.core a v = (true, d.core.set a v) := rfl
  rw [write_eq, hwrite, put]
  by_cases h : d.passes a = true <;> simp [h]

theorem put_of_not_passes (h : d.passes e.address = false) : d.put e = d := by
  rw [put, h]
  rfl

@[simp] theorem passes_put : (d.put e).passes a = d.passes a := by
  rw [put]
  split <;> simp

@[simp] theorem limits_put : (d.put e).limits = d.limits := by
  rw [put]
  split <;> simp

@[simp] theorem width_put : (d.put e).core.width = d.core.width := by
  rw [put]
  split <;> simp

@[simp] theorem index_put : (d.put e).core.index a = d.core.index a := by
  rw [Memory.index, Memory.index, Memory.size_eq, Memory.size_eq, width_put]

theorem cell_put (i : Nat) : (d.put e).core.cell i =
    if d.passes e.address = true ∧ i = d.core.index e.address then e.byte else d.core.cell i := by
  rw [put]
  by_cases h : d.passes e.address = true
  · simp only [h, ↓reduceIte, core_replace, Memory.cell_set, true_and]
  · simp only [h, Bool.false_eq_true, ↓reduceIte, false_and]

theorem limits_putAll (es : Image) : (d.putAll es).limits = d.limits := by
  induction es generalizing d with
  | nil => rfl
  | cons e es ih => exact (ih (d.put e)).trans (d.limits_put e)

theorem width_putAll (es : Image) : (d.putAll es).core.width = d.core.width := by
  induction es generalizing d with
  | nil => rfl
  | cons e es ih => exact (ih (d.put e)).trans (d.width_put e)

variable {d}

theorem exists_of_cell_putAll_ne {es : Image} {i : Nat}
    (h : (d.putAll es).core.cell i ≠ d.core.cell i) :
    ∃ e ∈ es, d.passes e.address = true ∧ i = d.core.index e.address := by
  induction es generalizing d with
  | nil => exact absurd rfl h
  | cons e es ih =>
    by_cases hfirst : d.passes e.address = true ∧ i = d.core.index e.address
    · exact ⟨e, List.mem_cons_self, hfirst⟩
    · have hkept : (d.put e).core.cell i = d.core.cell i := by rw [cell_put, if_neg hfirst]
      have hrest : ((d.put e).putAll es).core.cell i ≠ (d.put e).core.cell i := by
        rw [hkept]
        exact h
      obtain ⟨x, hx, hpasses, hi⟩ := ih hrest
      rw [passes_put] at hpasses
      rw [index_put] at hi
      exact ⟨x, List.mem_cons_of_mem _ hx, hpasses, hi⟩

/-- Where no two stores select one cell, each of them is found in its cell. -/
theorem cell_putAll_of_mem {es : Image}
    (hes : es.Pairwise fun x y => d.core.index x.address ≠ d.core.index y.address) :
    ∀ e ∈ es, d.passes e.address = true →
      (d.putAll es).core.cell (d.core.index e.address) = e.byte := by
  induction es generalizing d with
  | nil => nofun
  | cons x es ih =>
    obtain ⟨hx, hes⟩ := List.pairwise_cons.1 hes
    intro e he hpasses
    cases he with
    | head =>
      have hstored : (d.put x).core.cell (d.core.index x.address) = x.byte := by
        rw [cell_put, if_pos ⟨hpasses, rfl⟩]
      by_contra hne
      have hmoved : ((d.put x).putAll es).core.cell (d.core.index x.address) ≠
          (d.put x).core.cell (d.core.index x.address) := by rwa [hstored]
      obtain ⟨y, hy, -, hindex⟩ := exists_of_cell_putAll_ne hmoved
      rw [index_put] at hindex
      exact hx y hy hindex
    | tail _ he =>
      have hput := ih (d := d.put x) (by simpa using hes) e he (by simpa using hpasses)
      rwa [index_put] at hput

end Attachment

namespace Bus

variable (bus : Bus (Attachment Memory)) (a : Address)

/-- A read leaves every device as it is. -/
theorem read_attached : (bus.read a).2 = bus := by
  apply ext_devices (ids_read bus a)
  · rw [devices_read]
    simp only [Attachment.read_memory, List.map_id']
  · rfl

theorem devices_write_attached (v : Byte) :
    (bus.write a v).2.devices = bus.devices.map (·.put ⟨a, v⟩) := by
  rw [devices_write]
  simp only [Attachment.write_memory]

/-- A write that nobody accepts changes nothing. -/
theorem write_attached_of_refused {a : Address} {v : Byte} {f : Fault}
    (h : (bus.write a v).1.result = .error f) : (bus.write a v).2 = bus := by
  obtain ⟨hnone, -⟩ := of_write_error h
  apply ext_devices (ids_write bus a v)
  · rw [devices_write_attached]
    conv_rhs => rw [← List.map_id bus.devices]
    apply List.map_congr_left
    intro d hd
    have hrefused := List.countP_eq_zero.1 hnone d hd
    rw [Attachment.write_memory] at hrefused
    exact d.put_of_not_passes _ (by simpa using hrefused)
  · rfl

end Bus

end Octet
