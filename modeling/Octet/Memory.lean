import Octet.ConfigError
import Octet.Device

/-! # Memory

A memory has `1 <<< width` cells, and an address selects the cell with its number modulo the size, so a
small memory repeats across the address space. `cell` is the view of its contents, and one equation
per operation says what becomes of it.
-/

namespace Octet

structure Memory where
  width : Nat
  cells : Array Byte
  one_le_width : 1 ≤ width
  width_le : width ≤ 16
  size_cells : cells.size = 1 <<< width

namespace Memory

def size (m : Memory) : Nat := m.cells.size

theorem size_eq (m : Memory) : m.size = 1 <<< m.width := m.size_cells

theorem size_pos (m : Memory) : 0 < m.size := by
  rw [size_eq, Nat.one_shiftLeft]
  exact Nat.two_pow_pos m.width

/-- The byte in cell `i`, zero beyond the last cell. -/
def cell (m : Memory) (i : Nat) : Byte := m.cells.getD i 0

/-- The number of the cell that an address selects. -/
def index (m : Memory) (a : Address) : Nat := a.toNat % m.size

theorem index_lt (m : Memory) (a : Address) : m.index a < m.cells.size := Nat.mod_lt _ m.size_pos

theorem ext_cell {m n : Memory} (hw : m.width = n.width) (hc : ∀ i, m.cell i = n.cell i) : m = n := by
  obtain ⟨w, xs, h1, h2, h3⟩ := m
  obtain ⟨w', ys, h1', h2', h3'⟩ := n
  obtain rfl : w = w' := hw
  have : xs = ys := by
    apply Array.ext (h3.trans h3'.symm)
    intro i hi hj
    have := hc i
    simpa [cell, Array.getD, hi, hj] using this
  subst this
  rfl

def zeroed (width : Nat) : Except ConfigError Memory :=
  if h : 1 ≤ width ∧ width ≤ 16 then
    .ok ⟨width, Array.replicate (1 <<< width) 0, h.1, h.2, Array.size_replicate⟩
  else .error (.width width)

def full : Memory :=
  ⟨16, Array.replicate (1 <<< 16) 0, by decide, by decide, Array.size_replicate⟩

def get (m : Memory) (a : Address) : Byte :=
  have := m.index_lt a
  m.cells[m.index a]

def set : Memory → Address → Byte → Memory
  | ⟨width, cells, h1, h2, h3⟩, a, v =>
    ⟨width, cells.setIfInBounds (a.toNat % cells.size) v, h1, h2, by simp [h3]⟩

def clear (m : Memory) : Memory :=
  { m with
    cells := Array.replicate (1 <<< m.width) 0
    size_cells := Array.size_replicate }

/-- The memory with another width, which keeps the cells that both sizes have. -/
def resize (m : Memory) (width : Nat) : Except ConfigError Memory :=
  if h : 1 ≤ width ∧ width ≤ 16 then
    .ok ⟨width, Array.ofFn (fun i : Fin (1 <<< width) => m.cell i), h.1, h.2, Array.size_ofFn⟩
  else .error (.width width)

instance : Device Memory where
  read m a := (some (m.get a), m)
  write m a v := (true, m.set a v)
  reset := clear

theorem get_eq_cell (m : Memory) (a : Address) : m.get a = m.cell (m.index a) := by
  simp [get, cell, m.index_lt a]

@[simp] theorem width_set (m : Memory) (a : Address) (v : Byte) : (m.set a v).width = m.width := rfl

@[simp] theorem size_set (m : Memory) (a : Address) (v : Byte) : (m.set a v).size = m.size := by
  simp [size, set]

theorem cell_set (m : Memory) (a : Address) (v : Byte) (i : Nat) :
    (m.set a v).cell i = if i = m.index a then v else m.cell i := by
  have hlt := m.index_lt a
  by_cases h : i = m.index a
  · subst h
    simp only [index, size] at hlt
    simp [cell, set, index, size, Array.getD, hlt]
  · have h' : ¬ a.toNat % m.cells.size = i := fun e => h e.symm
    simp [cell, set, h, h', Array.getElem?_setIfInBounds_ne]

theorem exists_zeroed {width : Nat} (h : 1 ≤ width ∧ width ≤ 16) : ∃ m, zeroed width = .ok m := by
  rw [zeroed, dif_pos h]
  exact ⟨_, rfl⟩

theorem width_zeroed {width : Nat} {m : Memory} (h : zeroed width = .ok m) : m.width = width := by
  simp only [zeroed] at h
  split at h <;> cases h
  rfl

theorem cell_zeroed {width : Nat} {m : Memory} (h : zeroed width = .ok m) (i : Nat) :
    m.cell i = 0 := by
  simp only [zeroed] at h
  split at h
  · cases h
    by_cases hi : i < 1 <<< width <;> simp [cell, Array.getD, hi]
  · cases h

@[simp] theorem cell_full (i : Nat) : full.cell i = 0 := by
  by_cases hi : i < 1 <<< 16 <;> simp [full, cell, Array.getD]

@[simp] theorem cell_clear (m : Memory) (i : Nat) : m.clear.cell i = 0 := by
  by_cases hi : i < 1 <<< m.width <;> simp [clear, cell, Array.getD, hi]

@[simp] theorem width_clear (m : Memory) : m.clear.width = m.width := rfl

theorem exists_resize {width : Nat} (m : Memory) (h : 1 ≤ width ∧ width ≤ 16) :
    ∃ n, m.resize width = .ok n := by
  rw [resize, dif_pos h]
  exact ⟨_, rfl⟩

theorem resize_of_not {width : Nat} (m : Memory) (h : ¬(1 ≤ width ∧ width ≤ 16)) :
    m.resize width = .error (.width width) := by
  rw [resize, dif_neg h]

theorem cell_resize {m n : Memory} {width : Nat} (h : m.resize width = .ok n) (i : Nat) :
    n.cell i = if i < 1 <<< width then m.cell i else 0 := by
  simp only [resize] at h
  split at h
  · cases h
    by_cases hi : i < 1 <<< width <;> simp [cell, Array.getD, hi]
  · cases h

theorem width_resize {m n : Memory} {width : Nat} (h : m.resize width = .ok n) : n.width = width := by
  simp only [resize] at h
  split at h <;> cases h
  rfl

end Memory

end Octet
