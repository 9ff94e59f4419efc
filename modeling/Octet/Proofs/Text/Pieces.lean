import Octet.Proofs.Text.Words

/-! # Pieces of a text

A space parts the pieces before it from those behind it, and that is all that spaces do. So neither
their number nor those at the end of a text matter, and at the beginning of a text they are trimmed.
-/

namespace Octet.Text

theorem mem_of_mem_splitOn {t part : Text} {c sep : Char} (h : part ∈ t.splitOn sep)
    (hc : c ∈ part) : c ∈ t := by
  induction t generalizing part with
  | nil =>
    rw [List.splitOn_nil, List.mem_singleton] at h
    exact h ▸ hc
  | cons x t ih =>
    obtain ⟨first, rest, hparts⟩ := List.exists_cons_of_ne_nil (List.splitOn_ne_nil sep t)
    rw [List.splitOn_cons_eq_if_modifyHead, hparts] at h
    rw [hparts] at ih
    split at h
    · rcases List.mem_cons.1 h with rfl | hmem
      · cases hc
      · exact .tail x (ih hmem hc)
    · rcases List.mem_cons.1 h with rfl | hmem
      · rcases List.mem_cons.1 hc with rfl | hc
        · exact .head t
        · exact .tail x (ih (.head rest) hc)
      · exact .tail x (ih (.tail first hmem) hc)

@[simp] theorem pieces_nil : pieces [] = [] := by
  simp [pieces]

theorem pieces_append_space (s t : Text) : pieces (s ++ ' ' :: t) = pieces s ++ pieces t := by
  rw [pieces, List.splitOn_append_cons_self, List.filter_append, pieces, pieces]

theorem pieces_spaces_append (n : Nat) (t : Text) :
    pieces (List.replicate n ' ' ++ t) = pieces t := by
  induction n with
  | zero => rfl
  | succ n ih => exact (pieces_append_space [] _).trans ih

theorem pieces_append_spaces (t : Text) (n : Nat) :
    pieces (t ++ List.replicate n ' ') = pieces t := by
  cases n with
  | zero => rw [List.replicate_zero, List.append_nil]
  | succ n =>
    have hspaces : pieces (List.replicate n ' ') = [] := by
      simpa using pieces_spaces_append n []
    rw [List.replicate_succ, pieces_append_space, hspaces, List.append_nil]

theorem trimStart_spaces_append (n : Nat) (t : Text) :
    trimStart (List.replicate n ' ' ++ t) = trimStart t := by
  induction n with
  | zero => rfl
  | succ n ih => exact ih

theorem trimEnd_append_spaces (t : Text) (n : Nat) :
    trimEnd (t ++ List.replicate n ' ') = trimEnd t := by
  have h := trimStart_spaces_append n t.reverse
  simp only [trimStart] at h
  rw [trimEnd, List.reverse_append, List.reverse_replicate, h, trimEnd]

theorem trimStart_append {s : Text} (h : trimStart s ≠ []) (t : Text) :
    trimStart (s ++ t) = trimStart s ++ t := by
  have hne : (List.dropWhile isBlank s).isEmpty = false := by simpa [trimStart] using h
  rw [trimStart, List.dropWhile_append, hne]
  rfl

theorem trimStart_append_of_blank {s : Text} (h : trimStart s = []) (t : Text) :
    trimStart (s ++ t) = trimStart t := by
  have hnil : (List.dropWhile isBlank s).isEmpty = true := by simpa [trimStart] using h
  rw [trimStart, List.dropWhile_append, hnil]
  rfl

end Octet.Text
