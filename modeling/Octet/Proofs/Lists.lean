import Mathlib.Data.List.Forall2

/-! # Lists by position

What holds of two lists of the same length position by position, what a map that can fail makes of a
list, and what stands where in a list with one more element behind it.
-/

namespace Octet

section

variable {α β ε : Type} {R : α → β → Prop} {xs : List α} {ys : List β}

theorem exists_of_mem_right (h : List.Forall₂ R xs ys) {y : β} (hy : y ∈ ys) : ∃ x ∈ xs, R x y := by
  induction h with
  | nil => cases hy
  | cons hr _ ih =>
    rcases List.mem_cons.1 hy with rfl | hy
    · exact ⟨_, List.mem_cons_self .., hr⟩
    · obtain ⟨x, hx, hr⟩ := ih hy
      exact ⟨x, List.mem_cons_of_mem _ hx, hr⟩

theorem exists_of_mem_left (h : List.Forall₂ R xs ys) {x : α} (hx : x ∈ xs) : ∃ y ∈ ys, R x y :=
  exists_of_mem_right (R := fun y x => R x y) h.flip hx

theorem forall₂_imp_of_mem {S : α → β → Prop} (h : List.Forall₂ R xs ys)
    (hRS : ∀ x ∈ xs, ∀ y ∈ ys, R x y → S x y) : List.Forall₂ S xs ys := by
  rw [List.forall₂_iff_zip] at h ⊢
  refine ⟨h.1, fun {x y} hxy => ?_⟩
  obtain ⟨hx, hy⟩ := List.of_mem_zip hxy
  exact hRS x hx y hy (h.2 hxy)

theorem forall₂_flatMap {f : List α → List β} (h : ∀ xs, List.Forall₂ R xs (f xs))
    (xss : List (List α)) : List.Forall₂ R xss.flatten (xss.flatMap f) := by
  induction xss with
  | nil => exact .nil
  | cons xs xss ih => exact List.rel_append (h xs) ih

theorem mapM_eq_ok_iff {f : α → Except ε β} :
    xs.mapM f = .ok ys ↔ List.Forall₂ (fun x y => f x = .ok y) xs ys := by
  induction xs generalizing ys with
  | nil => simp [pure, Except.pure, eq_comm]
  | cons x xs ih =>
    rw [List.mapM_cons, List.forall₂_cons_left_iff]
    simp only [← ih]
    constructor
    · intro h
      cases hx : f x with
      | error e => simp [hx, bind, Except.bind] at h
      | ok y =>
        cases hxs : xs.mapM f with
        | error e => simp [hx, hxs, bind, Except.bind] at h
        | ok zs =>
          simp only [hx, hxs, bind, Except.bind, pure, Except.pure, Except.ok.injEq] at h
          exact ⟨y, zs, rfl, rfl, h.symm⟩
    · rintro ⟨y, zs, hx, hxs, rfl⟩
      rw [hx, hxs]
      rfl

theorem exists_mapM_eq_ok {f : α → Except ε β} (h : ∀ x ∈ xs, ∃ y, f x = .ok y) :
    ∃ ys, xs.mapM f = .ok ys := by
  induction xs with
  | nil => exact ⟨[], rfl⟩
  | cons x xs ih =>
    obtain ⟨⟨y, hx⟩, hxs⟩ := List.forall_mem_cons.1 h
    obtain ⟨ys, hys⟩ := ih hxs
    exact ⟨y :: ys, mapM_eq_ok_iff.2 (.cons hx (mapM_eq_ok_iff.1 hys))⟩

theorem lt_of_getElem?_eq_some {x : α} {j : Nat} (h : xs[j]? = some x) : j < xs.length :=
  (List.getElem?_eq_some_iff.1 h).1

theorem getElem?_concat_eq_some_iff {x y : α} {j : Nat} :
    (xs ++ [x])[j]? = some y ↔ xs[j]? = some y ∨ j = xs.length ∧ x = y := by
  rw [List.getElem?_append]
  by_cases hj : j < xs.length
  · simp [hj, Nat.ne_of_lt hj]
  · rw [if_neg hj, List.getElem?_singleton, List.getElem?_eq_none (Nat.le_of_not_lt hj)]
    by_cases hlast : j = xs.length
    · simp [hlast]
    · have hbehind : j - xs.length ≠ 0 := by omega
      simp [hlast, hbehind]

end

end Octet
