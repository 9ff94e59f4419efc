import Octet.FileSystem
import Octet.Proofs.Files.Paths

/-! # One file written

A write puts one file into the file system and leaves every other as it was. So whatever could be read
before is read as before, unless its path leads to the location that was written.
-/

namespace Octet.FileSystem

/-- After is before with this content at a location, in a file that is new or written over. -/
def Writes (before after : FileSystem) (l : Location) (content : ByteArray) : Prop :=
  ∀ k, after.lookup k = if k = l then some content else before.lookup k

open Bytes (dot slash)

variable {fs : FileSystem} {path : Path} {l k : Location} {content : ByteArray}

theorem writes_put (fs : FileSystem) (l : Location) (content : ByteArray) :
    fs.Writes (fs.put l content) l content := fun k => fs.lookup_put l k content

theorem node?_eq_file_iff : fs.node? l = some (.file content) ↔ fs.lookup l = some content := by
  unfold node?
  cases h : fs.lookup l with
  | some c => simp
  | none =>
    simp only [reduceCtorEq, iff_false]
    split <;> simp

theorem node?_eq_directory_iff : fs.node? l = some .directory ↔
    fs.lookup l = none ∧ (isFixed l = true ∨ ∃ f ∈ fs, l.isPrefixOf f.1 = true) := by
  unfold node?
  cases h : fs.lookup l with
  | some c => simp
  | none =>
    rw [← List.any_eq_true, ← Bool.or_eq_true]
    simp only [true_and]
    split
    · next hdir => exact iff_of_true rfl hdir
    · next hdir => exact iff_of_false nofun hdir

theorem exists_mem_put {f : Location × ByteArray} (h : f ∈ fs) :
    ∃ c, (f.1, c) ∈ fs.put l content := by
  induction fs with
  | nil => cases h
  | cons g fs ih =>
    rw [put]
    split
    · next hg =>
      rcases List.mem_cons.1 h with rfl | h
      · exact ⟨content, by simp [hg]⟩
      · exact ⟨f.2, .tail _ h⟩
    · rcases List.mem_cons.1 h with rfl | h
      · exact ⟨f.2, .head _⟩
      · obtain ⟨c, hc⟩ := ih h
        exact ⟨c, .tail _ hc⟩

/-- Elsewhere every file and every directory is still there. -/
theorem node?_put {node : Node} (h : fs.node? k = some node) (hk : k ≠ l) :
    (fs.put l content).node? k = some node := by
  cases node with
  | file c =>
    rw [node?_eq_file_iff] at h ⊢
    rw [lookup_put, if_neg hk, h]
  | directory =>
    rw [node?_eq_directory_iff] at h ⊢
    obtain ⟨hnone, hdir⟩ := h
    refine ⟨by rw [lookup_put, if_neg hk, hnone], hdir.imp_right ?_⟩
    rintro ⟨f, hf, hbelow⟩
    obtain ⟨c, hc⟩ := exists_mem_put hf
    exact ⟨_, hc, hbelow⟩

theorem walk_append (fs : FileSystem) (l : Location) (xs ys : List Bytes) :
    fs.walk l (xs ++ ys) = fs.walk l xs >>= fun k => fs.walk k ys := by
  induction xs generalizing l with
  | nil => rfl
  | cons x xs ih =>
    rw [List.cons_append, walk, walk]
    split
    · exact ih _
    · rfl
    · rfl

theorem node?_of_walk {x : Bytes} {xs : List Bytes} (h : fs.walk l (xs ++ [x]) = .ok k) :
    ∃ d, fs.walk l xs = .ok d ∧ k = enter d x ∧ fs.node? k = some .directory := by
  rw [walk_append] at h
  cases hd : fs.walk l xs with
  | error e =>
    rw [hd] at h
    cases h
  | ok d =>
    rw [hd] at h
    change fs.walk d [x] = .ok k at h
    simp only [walk] at h
    split at h
    · next hnode =>
      cases h
      exact ⟨d, rfl, rfl, hnode⟩
    · cases h
    · cases h

/-- Names of the directory itself lead nowhere else. -/
theorem walk_of_dots {n : Nat} {xs : List Bytes} {k : Location}
    (h : fs.walk l (xs ++ List.replicate n [dot]) = .ok k) : fs.walk l xs = .ok k := by
  induction n with
  | zero => rwa [List.replicate_zero, List.append_nil] at h
  | succ n ih =>
    rw [List.replicate_succ', ← List.append_assoc] at h
    obtain ⟨d, hd, rfl, -⟩ := node?_of_walk h
    exact ih hd

theorem walk_put (hl : fs.node? l ≠ some .directory) {a : Location} {xs : List Bytes}
    (h : fs.walk a xs = .ok k) : (fs.put l content).walk a xs = .ok k := by
  induction xs generalizing a with
  | nil => exact h
  | cons x xs ih =>
    rw [walk] at h
    split at h
    · next hnode =>
      have hne : enter a x ≠ l := by
        rintro rfl
        exact hl hnode
      rw [walk, node?_put hnode hne]
      exact ih h
    · cases h
    · cases h

def start (path : Path) : Location := if Path.isAbsolute path then rootLocation else []

theorem locate_of_names {x : Bytes} {xs : List Bytes} (h : Path.names path = xs ++ [x]) :
    fs.locate path = (fs.walk (start path) xs).map (enter · x) := by
  have hrev : (Path.names path).reverse = x :: xs.reverse := by rw [h, List.reverse_concat]
  rw [locate, hrev]
  simp only [List.reverse_reverse]
  rw [start]
  cases fs.walk _ xs <;> rfl

theorem locate_of_names_nil (h : Path.names path = []) : fs.locate path = .ok (start path) := by
  rw [locate, h]
  rfl

theorem locate_eq_ok_iff_of_names {x : Bytes} {xs : List Bytes} (hnames : Path.names path = xs ++ [x]) :
    fs.locate path = .ok l ↔ ∃ d, fs.walk (start path) xs = .ok d ∧ enter d x = l := by
  rw [locate_of_names hnames]
  cases fs.walk (start path) xs <;> simp [Except.map]

theorem locate_put (hl : fs.node? l ≠ some .directory) (h : fs.locate path = .ok k) :
    (fs.put l content).locate path = .ok k := by
  rcases List.eq_nil_or_concat (Path.names path) with hnil | ⟨xs, x, hnames⟩
  · rw [locate_of_names_nil hnil] at h ⊢
    exact h
  · rw [List.concat_eq_append] at hnames
    obtain ⟨d, hd, hk⟩ := (locate_eq_ok_iff_of_names hnames).1 h
    exact (locate_eq_ok_iff_of_names hnames).2 ⟨d, walk_put hl hd, hk⟩

theorem read_eq_ok_iff : fs.read path = .ok content ↔
    ∃ l, fs.locate path = .ok l ∧ fs.lookup l = some content ∧ Path.endsInSlash path = false := by
  rw [read]
  cases hl : fs.locate path with
  | error e => simp [bind, Except.bind]
  | ok l =>
    simp only [bind, Except.bind, ← node?_eq_file_iff, Except.ok.injEq, exists_eq_left']
    cases hn : fs.node? l with
    | none => simp
    | some node =>
      cases node with
      | directory => simp
      | file c => cases hs : Path.endsInSlash path <;> simp

theorem write_eq_ok_iff {after : FileSystem} : fs.write path content = .ok after ↔
    ∃ l, fs.locate path = .ok l ∧ fs.node? l ≠ some .directory ∧ Path.endsInSlash path = false ∧
      after = fs.put l content := by
  rw [write]
  cases hl : fs.locate path with
  | error e => simp [bind, Except.bind]
  | ok l =>
    simp only [bind, Except.bind, Except.ok.injEq, exists_eq_left']
    split
    · next hn => simp [hn]
    · next hn =>
      have hne : fs.node? l ≠ some .directory := hn
      cases hs : Path.endsInSlash path <;> simp [hne, @eq_comm _ after]

theorem read_of_write {after : FileSystem} (h : fs.write path content = .ok after) :
    after.read path = .ok content := by
  obtain ⟨l, hl, hnode, hslash, rfl⟩ := write_eq_ok_iff.1 h
  exact read_eq_ok_iff.2 ⟨l, locate_put hnode hl, by rw [lookup_put, if_pos rfl], hslash⟩

/-- What could be read before a write is read behind it as well, if it is not at the place written. -/
theorem read_put (hl : fs.node? l ≠ some .directory) {old new : ByteArray}
    (h : fs.read path = .ok old) (hne : fs.locate path ≠ .ok l) :
    (fs.put l new).read path = .ok old := by
  obtain ⟨k, hk, hold, hslash⟩ := read_eq_ok_iff.1 h
  have hkl : k ≠ l := by
    rintro rfl
    exact hne hk
  exact read_eq_ok_iff.2 ⟨k, locate_put hl hk, by rw [lookup_put, if_neg hkl, hold], hslash⟩

theorem enter_of_ne {x : Bytes} (h1 : x ≠ [dot]) (h2 : x ≠ [dot, dot]) : enter l x = l ++ [x] := by
  rw [enter, if_neg h1, if_neg h2]

theorem enter_imageName (l : Location) (source? : Option Bytes) :
    enter l (Path.imageName source?) = l ++ [Path.imageName source?] :=
  enter_of_ne (Path.imageName_ne _ (by decide)) (Path.imageName_ne _ (by decide))

theorem ne_concat_self (l : Location) (x : Bytes) : l ≠ l ++ [x] := by
  intro h
  have := congrArg List.length h
  simp at this

/-- A path without a file name does not lead to the image that goes behind it. -/
theorem locate_ne_of_fileName?_eq_none {input : Path} (hnone : Path.fileName? input = none)
    (hout : fs.locate (Path.defaultOutput input) = .ok l) : fs.locate input ≠ .ok l := by
  obtain ⟨hnames, habs⟩ := Path.names_defaultOutput_of_none hnone
  obtain ⟨d, hwalk, rfl⟩ := (locate_eq_ok_iff_of_names hnames).1 hout
  rw [start, habs, ← start] at hwalk
  rw [enter_imageName]
  intro hin
  rcases List.eq_nil_or_concat (Path.names input) with hnil | ⟨xs, x, hlast⟩
  · rw [hnil] at hwalk
    rw [locate_of_names_nil hnil, Except.ok.inj hwalk] at hin
    exact ne_concat_self _ _ (Except.ok.inj hin)
  · rw [List.concat_eq_append] at hlast
    rw [hlast] at hwalk
    obtain ⟨d', hd', rfl, -⟩ := node?_of_walk hwalk
    have hself := (locate_eq_ok_iff_of_names hlast).2 ⟨d', hd', rfl⟩
    exact ne_concat_self _ _ (Except.ok.inj (hself.symm.trans hin))

/-- By default an image is written over its own source exactly if the source has the name of an
image. -/
theorem locate_defaultOutput_iff {input : Path} (hread : fs.read input = .ok content)
    (hout : fs.locate (Path.defaultOutput input) = .ok l) :
    fs.locate input = .ok l ↔ Path.NamesImage input := by
  rw [Path.NamesImage, ← Path.fileName?_eq]
  cases hname : Path.fileName? input with
  | none => simp [locate_ne_of_fileName?_eq_none hname hout]
  | some t =>
    obtain ⟨-, -, h1, h2⟩ := Path.fileName?_eq_some_iff.1 hname
    obtain ⟨before, j, k, hin, hnames, habs⟩ := Path.names_defaultOutput hname
    obtain ⟨d, hwalk, rfl⟩ := (locate_eq_ok_iff_of_names hnames).1 hout
    rw [start, habs, ← start] at hwalk
    obtain ⟨k', hloc, hlookup, -⟩ := read_eq_ok_iff.1 hread
    cases k with
    | zero =>
      obtain ⟨d', hd', rfl⟩ := (locate_eq_ok_iff_of_names hin).1 hloc
      obtain rfl : d' = d := Except.ok.inj ((walk_of_dots hd').symm.trans hwalk)
      rw [hloc, enter_of_ne h1 h2, enter_imageName]
      simp only [Except.ok.injEq, List.append_cancel_left_eq, List.cons.injEq, and_true,
        Option.some.injEq]
      rw [eq_comm, Path.imageName_eq_iff]
    | succ k =>
      rw [List.replicate_succ', ← List.cons_append, ← List.append_assoc] at hin
      obtain ⟨d', hd', rfl⟩ := (locate_eq_ok_iff_of_names hin).1 hloc
      rw [List.append_cons] at hd'
      obtain ⟨-, -, -, hdir⟩ := node?_of_walk (walk_of_dots hd')
      have hdot : enter d' [dot] = d' := rfl
      rw [hdot, (node?_eq_directory_iff.1 hdir).1] at hlookup
      cases hlookup

end Octet.FileSystem
