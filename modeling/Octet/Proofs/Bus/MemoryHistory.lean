import Mathlib.Data.List.Induction
import Octet.Memory
import Octet.Proofs.Lists

/-! # The history of a memory

What stands in a cell is told by what has been done to the memory. It is the byte of the last write
that selected the cell, by the size that the memory had then, unless the cell has been cleared since,
by a reset or because a smaller memory had no place for it.
-/

namespace Octet

inductive MemoryOperation where
  | write (a : Address) (v : Byte)
  | read (a : Address)
  | reset
  | resize (width : Nat)
deriving DecidableEq, Repr

namespace MemoryOperation

def widthFrom (width : Nat) : MemoryOperation → Nat
  | .resize w => if 1 ≤ w ∧ w ≤ 16 then w else width
  | _ => width

def Spares (width i : Nat) : MemoryOperation → Prop
  | .write a _ => a.toNat % 1 <<< width ≠ i
  | .read _ => True
  | .reset => False
  | .resize w => 1 ≤ w → w ≤ 16 → i < 1 <<< w

end MemoryOperation

open MemoryOperation

def widthBefore (width : Nat) (ops : List MemoryOperation) (k : Nat) : Nat :=
  (ops.take k).foldl widthFrom width

/-- The operation numbered `k` is a write of the byte to cell `i`, and none behind it is another write
to the cell, a reset, or a change to a size that has no such cell. -/
structure LastWrite (width : Nat) (ops : List MemoryOperation) (i k : Nat) (v : Byte) : Prop where
  written : ∃ a, ops[k]? = some (.write a v) ∧ a.toNat % 1 <<< widthBefore width ops k = i
  spared : ∀ j op, k < j → ops[j]? = some op → op.Spares (widthBefore width ops j) i

section

variable {width i k : Nat} {ops : List MemoryOperation} {op : MemoryOperation} {v : Byte}

theorem widthBefore_length (width : Nat) (ops : List MemoryOperation) (op : MemoryOperation) :
    widthBefore width (ops ++ [op]) ops.length = ops.foldl widthFrom width := by
  rw [widthBefore, List.take_left]

theorem widthBefore_concat (width : Nat) {ops : List MemoryOperation} (op : MemoryOperation) {k : Nat}
    (h : k < ops.length) : widthBefore width (ops ++ [op]) k = widthBefore width ops k := by
  rw [widthBefore, widthBefore, List.take_append_of_le_length (by omega)]

theorem LastWrite.unique {j : Nat} {w : Byte} (h : LastWrite width ops i k v)
    (h' : LastWrite width ops i j w) : v = w := by
  obtain ⟨a, ha, hi⟩ := h.written
  obtain ⟨b, hb, hi'⟩ := h'.written
  obtain hlt | rfl | hlt := Nat.lt_trichotomy k j
  · exact absurd hi' (h.spared j _ hlt hb)
  · obtain ⟨-, rfl⟩ := MemoryOperation.write.inj (Option.some.inj (ha.symm.trans hb))
    rfl
  · exact absurd hi (h'.spared k _ hlt ha)

theorem lastWrite_concat_iff : LastWrite width (ops ++ [op]) i k v ↔
    LastWrite width ops i k v ∧ op.Spares (ops.foldl widthFrom width) i ∨
    k = ops.length ∧ ∃ a, op = .write a v ∧ a.toNat % 1 <<< ops.foldl widthFrom width = i := by
  constructor
  · rintro ⟨⟨a, ha, hi⟩, hspared⟩
    rw [getElem?_concat_eq_some_iff] at ha
    obtain ha | ⟨rfl, rfl⟩ := ha
    · have hk := lt_of_getElem?_eq_some ha
      rw [widthBefore_concat width op hk] at hi
      refine .inl ⟨⟨⟨a, ha, hi⟩, fun j x hj hx => ?_⟩, ?_⟩
      · have hspares := hspared j x hj (getElem?_concat_eq_some_iff.2 (.inl hx))
        rwa [widthBefore_concat width op (lt_of_getElem?_eq_some hx)] at hspares
      · have hspares := hspared ops.length op hk (getElem?_concat_eq_some_iff.2 (.inr ⟨rfl, rfl⟩))
        rwa [widthBefore_length] at hspares
    · rw [widthBefore_length] at hi
      exact .inr ⟨rfl, a, rfl, hi⟩
  · rintro (⟨⟨⟨a, ha, hi⟩, hspared⟩, hop⟩ | ⟨rfl, a, rfl, hi⟩)
    · refine ⟨⟨a, getElem?_concat_eq_some_iff.2 (.inl ha), ?_⟩, fun j x hj hx => ?_⟩
      · rwa [widthBefore_concat width op (lt_of_getElem?_eq_some ha)]
      · rw [getElem?_concat_eq_some_iff] at hx
        obtain hx | ⟨rfl, rfl⟩ := hx
        · rw [widthBefore_concat width op (lt_of_getElem?_eq_some hx)]
          exact hspared j x hj hx
        · rwa [widthBefore_length]
    · refine ⟨⟨a, getElem?_concat_eq_some_iff.2 (.inr ⟨rfl, rfl⟩), ?_⟩, fun j x hj hx => ?_⟩
      · rwa [widthBefore_length]
      · have hlt := lt_of_getElem?_eq_some hx
        rw [List.length_append, List.length_singleton] at hlt
        omega

end

namespace Memory

/-- The memory behind an operation. A width that is refused leaves it as it is. -/
def operate (m : Memory) : MemoryOperation → Memory
  | .write a v => (Device.write m a v).2
  | .read a => (Device.read m a).2
  | .reset => Device.reset m
  | .resize width =>
    match m.resize width with
    | .ok resized => resized
    | .error _ => m

def operateAll (m : Memory) (ops : List MemoryOperation) : Memory := ops.foldl operate m

theorem width_operate (m : Memory) (op : MemoryOperation) :
    (m.operate op).width = op.widthFrom m.width := by
  cases op with
  | write a v | read a | reset => rfl
  | resize width =>
    by_cases h : 1 ≤ width ∧ width ≤ 16
    · obtain ⟨resized, hresized⟩ := m.exists_resize h
      simp only [operate, hresized, widthFrom, if_pos h]
      exact width_resize hresized
    · simp only [operate, m.resize_of_not h, widthFrom, if_neg h]

theorem width_operateAll (m : Memory) (ops : List MemoryOperation) :
    (m.operateAll ops).width = ops.foldl widthFrom m.width := by
  induction ops generalizing m with
  | nil => rfl
  | cons op ops ih =>
    rw [operateAll, List.foldl_cons, ← operateAll, ih, width_operate, List.foldl_cons]

/-- An operation either spares a cell, or it is a write to it, or it leaves zero there. -/
theorem cell_operate (m : Memory) (op : MemoryOperation) (i : Nat) :
    (op.Spares m.width i ∧ (m.operate op).cell i = m.cell i) ∨
    (∃ a v, op = .write a v ∧ a.toNat % 1 <<< m.width = i ∧ (m.operate op).cell i = v) ∨
    (¬op.Spares m.width i ∧ (∀ a v, op ≠ .write a v) ∧ (m.operate op).cell i = 0) := by
  cases op with
  | write a v =>
    have hcell : (m.operate (.write a v)).cell i = if i = m.index a then v else m.cell i :=
      m.cell_set a v i
    rw [index, size_eq] at hcell
    by_cases h : a.toNat % 1 <<< m.width = i
    · exact .inr (.inl ⟨a, v, rfl, h, by rw [hcell, if_pos h.symm]⟩)
    · exact .inl ⟨h, by rw [hcell, if_neg (Ne.symm h)]⟩
  | read a => exact .inl ⟨trivial, rfl⟩
  | reset => exact .inr (.inr ⟨id, by rintro a v ⟨⟩, m.cell_clear i⟩)
  | resize width =>
    by_cases h : 1 ≤ width ∧ width ≤ 16
    · obtain ⟨resized, hresized⟩ := m.exists_resize h
      have hcell := cell_resize hresized i
      simp only [operate, hresized]
      by_cases hi : i < 1 <<< width
      · exact .inl ⟨fun _ _ => hi, by rw [hcell, if_pos hi]⟩
      · exact .inr (.inr ⟨fun hs => hi (hs h.1 h.2), by rintro a v ⟨⟩, by rw [hcell, if_neg hi]⟩)
    · simp only [operate, m.resize_of_not h]
      exact .inl ⟨fun h1 h2 => absurd ⟨h1, h2⟩ h, trivial⟩

theorem cell_operateAll {m : Memory} (hm : ∀ i, m.cell i = 0) (ops : List MemoryOperation) (i : Nat) :
    (∃ k v, LastWrite m.width ops i k v ∧ (m.operateAll ops).cell i = v) ∨
    ((∀ k v, ¬LastWrite m.width ops i k v) ∧ (m.operateAll ops).cell i = 0) := by
  induction ops using List.reverseRecOn with
  | nil =>
    refine .inr ⟨fun k v h => ?_, hm i⟩
    obtain ⟨a, ha, -⟩ := h.written
    cases ha
  | append_singleton ops op ih =>
    have hlast : m.operateAll (ops ++ [op]) = (m.operateAll ops).operate op := by
      rw [operateAll, List.foldl_append]
      rfl
    rw [hlast]
    simp only [lastWrite_concat_iff]
    rw [← width_operateAll]
    obtain ⟨hop, hcell⟩ | ⟨a, v, rfl, hi, hcell⟩ | ⟨hop, hwrite, hcell⟩ :=
      (m.operateAll ops).cell_operate op i
    · rw [hcell]
      obtain ⟨k, v, h, hv⟩ | ⟨hnone, hzero⟩ := ih
      · exact .inl ⟨k, v, .inl ⟨h, hop⟩, hv⟩
      · refine .inr ⟨?_, hzero⟩
        rintro k v (⟨h, -⟩ | ⟨-, a, rfl, hi⟩)
        · exact hnone k v h
        · exact hop hi
    · exact .inl ⟨ops.length, v, .inr ⟨rfl, a, rfl, hi⟩, hcell⟩
    · refine .inr ⟨?_, hcell⟩
      rintro k v (⟨-, hspares⟩ | ⟨-, a, rfl, -⟩)
      · exact hop hspares
      · exact hwrite a v rfl

/-- A memory keeps a width from one to sixteen, which is that of the last resize with such a width,
and has a cell for every number of so many bits. In a cell there is the byte of the last write to it,
and zero if there is none or the cell has been cleared since. A read answers the byte in the cell that
its address selects and changes nothing, and no more does a resize with any other width. -/
theorem cell_eq_last_write (width : Nat) (hwidth : 1 ≤ width ∧ width ≤ 16)
    (ops : List MemoryOperation) : ∃ m, zeroed width = .ok m ∧
    let used := m.operateAll ops
    (used.width = ops.foldl widthFrom width ∧ 1 ≤ used.width ∧ used.width ≤ 16 ∧
      used.cells.size = 1 <<< used.width ∧ ∀ a, used.index a < used.cells.size) ∧
    (∀ i, (∀ k v, LastWrite width ops i k v → used.cell i = v) ∧
      ((∀ k v, ¬LastWrite width ops i k v) → used.cell i = 0)) ∧
    (∀ a, Device.read used a = (some (used.cell (a.toNat % 1 <<< used.width)), used)) ∧
    ∀ w, ¬(1 ≤ w ∧ w ≤ 16) → used.resize w = .error (.width w) ∧ used.operate (.resize w) = used := by
  obtain ⟨m, hm⟩ := exists_zeroed hwidth
  have hmw : m.width = width := width_zeroed hm
  refine ⟨m, hm, ?_⟩
  intro used
  refine ⟨⟨?_, used.one_le_width, used.width_le, used.size_eq, used.index_lt⟩, ?_, ?_, ?_⟩
  · rw [← hmw]
    exact m.width_operateAll ops
  · intro i
    have hcell := cell_operateAll (cell_zeroed hm) ops i
    rw [hmw] at hcell
    obtain ⟨k, v, h, hv⟩ | ⟨hnone, hzero⟩ := hcell
    · refine ⟨fun j w hw => ?_, fun hnone => absurd h (hnone k v)⟩
      rw [hw.unique h]
      exact hv
    · exact ⟨fun j w hw => absurd hw (hnone j w), fun _ => hzero⟩
  · intro a
    have hread : Device.read used a = (some (used.get a), used) := rfl
    rw [hread, get_eq_cell, index, size_eq]
  · intro w hw
    refine ⟨used.resize_of_not hw, ?_⟩
    simp only [operate, used.resize_of_not hw]

/-- Of eight cells the lower two outlive a smaller memory. The last write reaches cell 5 by an address
that lies beyond the memory, and what is refused or only read changes nothing. -/
theorem cell_eq_last_write_resized :
    let ops : List MemoryOperation :=
      [.write 1 4, .write 6 8, .resize 1, .resize 3, .write 13 9, .read 5, .resize 20]
    (1 ≤ 3 ∧ 3 ≤ 16) ∧ ∃ m, zeroed 3 = .ok m ∧ (m.operateAll ops).width = 3 ∧
      LastWrite 3 ops 1 0 4 ∧ (m.operateAll ops).cell 1 = 4 ∧
      LastWrite 3 ops 5 4 9 ∧ Device.read (m.operateAll ops) 21 = (some 9, m.operateAll ops) := by
  intro ops
  have hwidth : 1 ≤ 3 ∧ 3 ≤ 16 := by decide
  obtain ⟨m, hm, ⟨hmw, -⟩, hcell, hread, -⟩ := cell_eq_last_write 3 hwidth ops
  have hone : LastWrite 3 ops 1 0 4 := by
    refine ⟨⟨1, rfl, by decide⟩, ?_⟩
    intro j op hj hop
    match j with
    | 1 | 2 | 3 | 4 | 5 | 6 =>
      cases hop
      simp [Spares, widthBefore, widthFrom, ops]
  have hfive : LastWrite 3 ops 5 4 9 := by
    refine ⟨⟨13, rfl, by decide⟩, ?_⟩
    intro j op hj hop
    match j with
    | 5 | 6 =>
      cases hop
      simp [Spares]
  have hw : (m.operateAll ops).width = 3 := hmw
  have hstored := (hcell 5).1 4 9 hfive
  refine ⟨hwidth, m, hm, hw, hone, (hcell 1).1 0 4 hone, hfive, ?_⟩
  rw [hread, hw, ← hstored]
  rfl

end Memory

end Octet
