import Octet.Path

/-! # Steps of a path

A path leads where its steps lead, which are its names but for those of the directory itself. The path
that an image has by default takes the steps of the path of its source, with the name of the image in
the place of the last one (`derived_defaultOutput`).
-/

namespace Octet.Path

open Bytes (dot slash)

def steps (path : Path) : List Bytes := (names path).filter (· ≠ [dot])

/-- The last step, unless it is one upwards. -/
def file? (path : Path) : Option Bytes := (steps path).getLast?.filter (· ≠ [dot, dot])

/-- What is left of a name without its extension. This begins at the last dot, unless the name does. -/
def IsStem (name stem : Bytes) : Prop :=
  stem = name ∧ dot ∉ name.tail ∨
    stem ≠ [] ∧ ∃ extension, dot ∉ extension ∧ name = stem ++ dot :: extension

/-- The name of the image, if the source has this name or none. -/
def ImageName (source? : Option Bytes) (image : Bytes) : Prop :=
  (∃ name stem, source? = some name ∧ IsStem name (.ofText stem) ∧
    image = .ofText (stem ++ ".json".toList)) ∨
  (∀ name stem, source? = some name → ¬IsStem name (.ofText stem)) ∧ image = .ofText "out.json".toList

/-- The path leads to the image, in the directory of the file that the path of the source leads to. -/
structure Derived (source path : Path) : Prop where
  isAbsolute_eq : isAbsolute path = isAbsolute source
  endsInSlash_eq : endsInSlash path = false
  steps_eq : ∃ before image, ImageName (file? source) image ∧
    steps source = before ++ (file? source).toList ∧ steps path = before ++ [image]

/-- The path leads to a file whose name is a text before the ending of images. -/
def NamesImage (path : Path) : Prop :=
  ∃ t : Text, t ≠ [] ∧ file? path = some (.ofText (t ++ ".json".toList))

variable {path : Path} {s t : Bytes}

@[simp] theorem names_nil : names [] = [] := by
  simp [names]

theorem names_append_slash (s t : Path) : names (s ++ slash :: t) = names s ++ names t := by
  rw [names, List.splitOn_append_cons_self, List.filter_append, names, names]

theorem names_concat_slash (s : Path) : names (s ++ [slash]) = names s := by
  rw [names_append_slash, names_nil, List.append_nil]

theorem names_of_not_mem (hne : t ≠ []) (h : slash ∉ t) : names t = [t] := by
  simp [names, List.splitOn_eq_singleton h, hne]

theorem not_mem_takeWhile (b : Byte) (l : Bytes) : b ∉ l.takeWhile (· != b) := by
  intro h
  have := List.all_eq_true.1 List.all_takeWhile b h
  simp at this

theorem eq_of_dropWhile_eq_cons {b c : Byte} {l rest : Bytes}
    (h : l.dropWhile (· != b) = c :: rest) : c = b := by
  have := List.head?_dropWhile_not (· != b) l
  rw [h] at this
  simpa using this

theorem dropWhile_append_of_not_mem {b : Byte} (h : b ∉ s) (t : Bytes) :
    (s ++ t).dropWhile (· != b) = t.dropWhile (· != b) := by
  refine List.dropWhile_append_of_pos fun x hx => ?_
  simpa using fun hb : x = b => h (hb ▸ hx)

theorem not_mem_name (path : Path) : slash ∉ name path :=
  fun h => not_mem_takeWhile slash _ (List.mem_reverse.1 h)

theorem directory_cases (path : Path) :
    directory path = [] ∨ ∃ d, directory path = d ++ [slash] := by
  rw [directory]
  cases h : path.reverse.dropWhile (· != slash) with
  | nil => exact .inl rfl
  | cons b rest =>
    obtain rfl := eq_of_dropWhile_eq_cons h
    exact .inr ⟨rest.reverse, List.reverse_cons⟩

theorem names_directory_append (path : Path) (ht : t ≠ []) (h : slash ∉ t) :
    names (directory path ++ t) = names (directory path) ++ [t] := by
  obtain hd | ⟨d, hd⟩ := directory_cases path
  · rw [hd, List.nil_append, names_nil, names_of_not_mem ht h, List.nil_append]
  · rw [hd, List.append_assoc, List.singleton_append, names_append_slash, names_of_not_mem ht h,
      names_concat_slash]

theorem names_trimReversed (r : Path) :
    ∃ k, names r.reverse = names (trimReversed r).reverse ++ List.replicate k [dot] := by
  fun_induction trimReversed r with
  | case1 => exact ⟨0, rfl⟩
  | case2 b rest h ih =>
    obtain ⟨k, hk⟩ := ih
    obtain rfl | ⟨rfl, hslash⟩ := h
    · exact ⟨k, by rw [List.reverse_cons, names_concat_slash, hk]⟩
    · obtain ⟨rest, rfl⟩ := List.head?_eq_some_iff.1 hslash
      refine ⟨k + 1, ?_⟩
      have hdot : names [dot] = [[dot]] := names_of_not_mem (by decide) (by decide)
      rw [List.reverse_cons, names_concat_slash] at hk
      rw [List.reverse_cons, List.reverse_cons, List.append_assoc, List.singleton_append,
        names_append_slash, hdot, hk, List.append_assoc, List.replicate_succ']
  | case3 b rest h => exact ⟨0, by simp⟩

theorem names_core (path : Path) :
    ∃ k, names path = names (core path) ++ List.replicate k [dot] := by
  simpa [core] using names_trimReversed path.reverse

/-- A trimmed path ends neither in a slash nor in a name of the directory itself. -/
theorem of_trimReversed_eq_cons {r : Path} {b : Byte} {rest : Path} (h : trimReversed r = b :: rest) :
    b ≠ slash ∧ (b = dot → rest.head? ≠ some slash) := by
  fun_induction trimReversed r with
  | case1 => cases h
  | case2 c r hc ih => exact ih h
  | case3 c r hc =>
    obtain ⟨rfl, rfl⟩ := List.cons.inj h
    rw [not_or, not_and] at hc
    exact hc

theorem getLast?_trimReversed {r : Path} (h : r ≠ []) :
    (slash :: trimReversed r).getLast? = r.getLast? := by
  fun_induction trimReversed r with
  | case1 => exact absurd rfl h
  | case2 b rest hb ih =>
    cases rest with
    | nil =>
      obtain rfl : b = slash := hb.resolve_right fun hdot => nomatch hdot.2
      rfl
    | cons c rest => rw [ih (by simp), List.getLast?_cons_cons]
  | case3 b rest hb => rw [List.getLast?_cons_cons]

theorem isAbsolute_core {path : Path} (h : path ≠ []) (t : Path) :
    isAbsolute (core path ++ slash :: t) = isAbsolute path := by
  have hlast := getLast?_trimReversed (r := path.reverse) (by simpa using h)
  rw [List.getLast?_reverse, List.getLast?_eq_head?_reverse, List.reverse_cons] at hlast
  rw [isAbsolute, isAbsolute, ← hlast, core]
  cases trimReversed path.reverse with
  | nil => rfl
  | cons b r => cases h : (b :: r).reverse <;> simp_all

theorem isAbsolute_append (h : path ≠ []) (t : Path) : isAbsolute (path ++ t) = isAbsolute path := by
  cases path with
  | nil => exact absurd rfl h
  | cons b path => rfl

theorem isAbsolute_of_not_mem (h : slash ∉ t) : isAbsolute t = false := by
  cases t with
  | nil => rfl
  | cons b t =>
    have hb : b ≠ slash := fun hb => h (hb ▸ .head t)
    simpa [isAbsolute] using hb

theorem names_tidy_append (path : Path) (ht : t ≠ []) (h : slash ∉ t) : ∃ before k,
    names (directory path) = before ++ List.replicate k [dot] ∧
      names (tidy (directory path) ++ t) = before ++ [t] := by
  cases hd : directory path with
  | nil => exact ⟨[], 0, by simp, by simp [tidy, names_of_not_mem ht h]⟩
  | cons b d =>
    obtain ⟨k, hk⟩ := names_core (b :: d)
    refine ⟨names (core (b :: d)), k, hk, ?_⟩
    rw [tidy, List.append_assoc, List.singleton_append, names_append_slash, names_of_not_mem ht h]
    simp

theorem isAbsolute_tidy_append (path : Path) (hs : slash ∉ s) (ht : slash ∉ t) :
    isAbsolute (tidy (directory path) ++ t) = isAbsolute (directory path ++ s) := by
  cases hd : directory path with
  | nil => simp [tidy, isAbsolute_of_not_mem hs, isAbsolute_of_not_mem ht]
  | cons b d =>
    have hne : b :: d ≠ [] := by simp
    rw [isAbsolute_append hne, ← isAbsolute_core hne t, tidy, List.append_assoc, List.singleton_append]
    simp

theorem fileName?_eq_some_iff : fileName? path = some t ↔
    name (core path) = t ∧ t ≠ [] ∧ t ≠ [dot] ∧ t ≠ [dot, dot] := by
  simp only [fileName?, Option.ite_none_left_eq_some, Option.some.injEq, not_or]
  constructor
  · rintro ⟨h, rfl⟩
    exact ⟨rfl, h⟩
  · rintro ⟨rfl, h⟩
    exact ⟨h, rfl⟩

theorem steps_core (path : Path) : steps (core path) = steps path := by
  obtain ⟨k, hk⟩ := names_core path
  simp [steps, hk]

theorem core_ne_concat_slash (d : Path) : core path ≠ d ++ [slash] := by
  intro h
  have htrim := congrArg List.reverse h
  rw [core, List.reverse_reverse, List.reverse_concat] at htrim
  exact (of_trimReversed_eq_cons htrim).1 rfl

theorem core_ne_concat_slash_dot (d : Path) : core path ≠ d ++ [slash, dot] := by
  intro h
  have htrim := congrArg List.reverse h
  rw [core, List.reverse_reverse, List.reverse_append] at htrim
  exact (of_trimReversed_eq_cons htrim).2 rfl rfl

theorem fileName?_eq (path : Path) : fileName? path = file? path := by
  have hjoin := directory_append_name (core path)
  rw [file?, ← steps_core, fileName?]
  by_cases hnil : name (core path) = []
  · have hcore : core path = [] := by
      rw [hnil, List.append_nil] at hjoin
      obtain hd | ⟨d, hd⟩ := directory_cases (core path)
      · rw [← hjoin, hd]
      · exact absurd (hjoin.symm.trans hd) (core_ne_concat_slash d)
    rw [if_pos (.inl hnil), hcore]
    rfl
  · have hnames := names_directory_append (core path) hnil (not_mem_name _)
    rw [hjoin] at hnames
    by_cases hdot : name (core path) = [dot]
    · have hcore : core path = [dot] := by
        rw [hdot] at hjoin
        obtain hd | ⟨d, hd⟩ := directory_cases (core path)
        · rw [← hjoin, hd, List.nil_append]
        · rw [hd, List.append_assoc] at hjoin
          exact absurd hjoin.symm (core_ne_concat_slash_dot d)
      rw [if_pos (.inr (.inl hdot)), hcore]
      rfl
    · have hsteps : (steps (core path)).getLast? = some (name (core path)) := by
        simp [steps, hnames, hdot]
      rw [hsteps]
      by_cases hup : name (core path) = [dot, dot] <;> simp [Option.filter, hnil, hdot, hup]

theorem mem_of_mem_stem {name : Bytes} {b : Byte} (h : b ∈ stem name) : b ∈ name := by
  unfold stem at h
  split at h
  · exact h
  · have hb := List.mem_of_mem_tail (List.mem_reverse.1 h)
    exact List.mem_reverse.1 ((List.dropWhile_sublist _).mem hb)

theorem isStem_stem (name : Bytes) : IsStem name (stem name) := by
  have hcut := List.takeWhile_append_dropWhile (p := (· != dot)) (l := name.reverse)
  have hext : dot ∉ (name.reverse.takeWhile (· != dot)).reverse :=
    fun h => not_mem_takeWhile dot _ (List.mem_reverse.1 h)
  rw [stem]
  cases hrest : name.reverse.dropWhile (· != dot) with
  | nil =>
    rw [hrest, List.append_nil] at hcut
    rw [hcut, List.reverse_reverse] at hext
    exact .inl ⟨rfl, fun h => hext (List.mem_of_mem_tail h)⟩
  | cons b rest =>
    obtain rfl := eq_of_dropWhile_eq_cons hrest
    have hname : name = rest.reverse ++ dot :: (name.reverse.takeWhile (· != dot)).reverse := by
      have h := congrArg List.reverse hcut
      rw [hrest, List.reverse_append, List.reverse_cons, List.reverse_reverse, List.append_assoc] at h
      exact h.symm
    cases hstem : rest.reverse with
    | nil =>
      refine .inl ⟨by simp [hstem], ?_⟩
      rw [hname, hstem]
      exact hext
    | cons c s =>
      refine .inr ⟨by simp [hstem], _, hext, ?_⟩
      simp only [List.tail_cons, hstem]
      rw [← hstem, ← hname]

theorem IsStem.eq_stem {name : Bytes} (h : IsStem name s) : s = stem name := by
  obtain ⟨rfl, htail⟩ | ⟨hne, extension, hext, rfl⟩ := h
  · cases s with
    | nil => rfl
    | cons b s =>
      have hdrop : ((b :: s).reverse.dropWhile (· != dot)).tail = [] := by
        have hs : dot ∉ s.reverse := fun h => htail (List.mem_reverse.1 h)
        rw [List.reverse_cons, dropWhile_append_of_not_mem hs]
        cases hb : b != dot <;> simp [hb]
      rw [stem, hdrop]
      rfl
  · have hdrop : (s ++ dot :: extension).reverse.dropWhile (· != dot) = dot :: s.reverse := by
      rw [List.reverse_append, List.reverse_cons, List.append_assoc,
        dropWhile_append_of_not_mem fun h => hext (List.mem_reverse.1 h)]
      rfl
    rw [stem, hdrop, List.tail_cons, List.reverse_reverse]
    cases s with
    | nil => exact absurd rfl hne
    | cons b s => rfl

def imageName (source? : Option Bytes) : Bytes :=
  let stem := (source?.bind fun name => (stem name).text?).getD "out".toList
  .ofText (stem ++ ".json".toList)

theorem imageName_cases (source? : Option Bytes) :
    (∃ name t, source? = some name ∧ stem name = .ofText t ∧
      imageName source? = .ofText (t ++ ".json".toList)) ∨
    (∀ name t, source? = some name → stem name ≠ .ofText t) ∧
      imageName source? = .ofText "out.json".toList := by
  rw [imageName]
  cases h : source?.bind fun name => (stem name).text? with
  | some t =>
    obtain ⟨name, hname, ht⟩ := Option.bind_eq_some_iff.1 h
    exact .inl ⟨name, t, hname, Bytes.text?_eq_some_iff.1 ht, rfl⟩
  | none =>
    refine .inr ⟨fun name t hname ht => ?_, rfl⟩
    have hnone := Option.bind_eq_none_iff.1 h name hname
    rw [ht, Bytes.text?_ofText] at hnone
    cases hnone

theorem imageName_spec (source? : Option Bytes) : ImageName source? (imageName source?) := by
  obtain ⟨name, t, hname, hstem, himage⟩ | ⟨hnone, himage⟩ := imageName_cases source?
  · exact .inl ⟨name, t, hname, hstem ▸ isStem_stem name, himage⟩
  · exact .inr ⟨fun name t hname hstem => hnone name t hname hstem.eq_stem.symm, himage⟩

theorem slash_not_mem_imageName (path : Path) : slash ∉ imageName (fileName? path) := by
  obtain ⟨name, t, hname, hstem, himage⟩ | ⟨-, himage⟩ := imageName_cases (fileName? path)
  · have hslash : slash ∉ stem name := by
      rw [← (fileName?_eq_some_iff.1 hname).1]
      exact fun h => not_mem_name _ (mem_of_mem_stem h)
    rw [himage, Bytes.ofText_append, ← hstem, List.mem_append, not_or]
    exact ⟨hslash, by decide⟩
  · rw [himage]
    decide

theorem length_imageName (source? : Option Bytes) : 5 ≤ (imageName source?).length := by
  rw [imageName, Bytes.ofText_append, List.length_append]
  exact Nat.le_add_left 5 _

theorem imageName_ne (source? : Option Bytes) {name : Bytes} (h : name.length < 5) :
    imageName source? ≠ name := by
  rintro rfl
  exact absurd (length_imageName source?) (Nat.not_le.2 h)

theorem defaultOutput_eq (path : Path) :
    defaultOutput path = withName path (imageName (fileName? path)) := rfl

/-- A source has the name of its own image exactly if its name is that of an image. -/
theorem imageName_eq_iff {name : Bytes} : imageName (some name) = name ↔
    ∃ t : Text, t ≠ [] ∧ name = .ofText (t ++ ".json".toList) := by
  constructor
  · intro h
    obtain ⟨name', t, hname, hstem, himage⟩ | ⟨-, himage⟩ := imageName_cases (some name)
    · cases hname
      refine ⟨t, ?_, h.symm.trans himage⟩
      rintro rfl
      have hname := h.symm.trans himage
      rw [hname] at hstem
      cases hstem
    · exact ⟨"out".toList, by decide, h.symm.trans himage⟩
  · rintro ⟨t, ht, rfl⟩
    have hstem : Bytes.ofText t = stem (.ofText (t ++ ".json".toList)) := by
      refine IsStem.eq_stem (.inr ⟨?_, Bytes.ofText "json".toList, by decide, Bytes.ofText_append t _⟩)
      intro hnil
      have htext := Bytes.text?_ofText t
      rw [hnil] at htext
      exact ht (Option.some.inj (htext.symm.trans (Bytes.text?_ofText [])))
    rw [imageName, Option.bind_some, ← hstem, Bytes.text?_ofText, Option.getD_some]

/-- By default the last name of a path is replaced, and with it what follows of the directory itself. -/
theorem names_defaultOutput (h : fileName? path = some t) : ∃ before j k,
    names path = before ++ List.replicate j [dot] ++ t :: List.replicate k [dot] ∧
      names (defaultOutput path) = before ++ [imageName (some t)] ∧
      isAbsolute (defaultOutput path) = isAbsolute path := by
  have hout := slash_not_mem_imageName path
  have hwith : defaultOutput path = tidy (directory (core path)) ++ imageName (some t) := by
    simp only [defaultOutput_eq, withName, h]
  rw [h] at hout
  obtain ⟨rfl, hne, -, -⟩ := fileName?_eq_some_iff.1 h
  have hpath : path ≠ [] := by
    rintro rfl
    exact hne rfl
  obtain ⟨k, hk⟩ := names_core path
  obtain ⟨before, j, hbefore, hnames⟩ :=
    names_tidy_append (core path) (imageName_ne _ (by decide)) hout
  refine ⟨before, j, k, ?_, ?_, ?_⟩
  · have hcore : names (core path) = names (directory (core path)) ++ [name (core path)] := by
      have hjoined := names_directory_append (core path) hne (not_mem_name _)
      rwa [directory_append_name] at hjoined
    rw [hk, hcore, hbefore, List.append_assoc _ [_], List.singleton_append]
  · rw [hwith, hnames]
  · have hcore : core path ≠ [] := by
      intro hnil
      rw [hnil] at hne
      exact hne rfl
    rw [hwith, isAbsolute_tidy_append (core path) (not_mem_name _) hout, directory_append_name,
      ← isAbsolute_append hcore, isAbsolute_core hpath []]

theorem names_defaultOutput_of_none (h : fileName? path = none) :
    names (defaultOutput path) = names path ++ [imageName none] ∧
      isAbsolute (defaultOutput path) = isAbsolute path := by
  have hwith : defaultOutput path = join path (imageName none) := by
    simp only [defaultOutput_eq, withName, h]
  have hnames : names (imageName none) = [imageName none] :=
    names_of_not_mem (imageName_ne _ (by decide)) (h ▸ slash_not_mem_imageName path)
  rw [hwith, join]
  cases hpath : path with
  | nil => exact ⟨hnames, rfl⟩
  | cons b rest =>
    have hne : b :: rest ≠ [] := by simp
    split
    · next hend =>
      obtain ⟨d, hd⟩ : ∃ d, b :: rest = d ++ [slash] := by
        simpa [endsInSlash, List.getLast?_eq_some_iff] using hend
      refine ⟨?_, isAbsolute_append hne _⟩
      rw [hd, List.append_assoc, List.singleton_append, names_append_slash, names_concat_slash, hnames]
    · refine ⟨?_, isAbsolute_append hne _⟩
      rw [names_append_slash, hnames]

theorem endsInSlash_defaultOutput (path : Path) : endsInSlash (defaultOutput path) = false := by
  obtain ⟨d, hd⟩ : ∃ d, defaultOutput path = d ++ imageName (fileName? path) := by
    rw [defaultOutput_eq, withName]
    split
    · exact ⟨_, rfl⟩
    · rw [join]
      split
      · exact ⟨_, rfl⟩
      · exact ⟨path ++ [slash], List.append_cons ..⟩
  have hne : imageName (fileName? path) ≠ [] := imageName_ne _ (by decide)
  rw [hd, endsInSlash, List.getLast?_append, List.getLast?_eq_some_getLast hne, Option.some_or,
    beq_eq_false_iff_ne]
  intro h
  exact slash_not_mem_imageName path (Option.some.inj h ▸ List.getLast_mem hne)

theorem derived_defaultOutput (path : Path) : Derived path (defaultOutput path) := by
  have himage : imageName (fileName? path) ≠ [dot] := imageName_ne _ (by decide)
  cases h : fileName? path with
  | none =>
    rw [h] at himage
    obtain ⟨hnames, habs⟩ := names_defaultOutput_of_none h
    refine ⟨habs, endsInSlash_defaultOutput path, steps path, _, imageName_spec _, ?_, ?_⟩
    · rw [← fileName?_eq, h, Option.toList_none, List.append_nil]
    · simp [steps, hnames, ← fileName?_eq, h, himage]
  | some t =>
    rw [h] at himage
    obtain ⟨-, -, hdot, -⟩ := fileName?_eq_some_iff.1 h
    obtain ⟨before, j, k, hsource, hnames, habs⟩ := names_defaultOutput h
    refine ⟨habs, endsInSlash_defaultOutput path, before.filter (· ≠ [dot]), _, imageName_spec _, ?_, ?_⟩
    · simp [steps, hsource, ← fileName?_eq, h, hdot]
    · simp [steps, hnames, ← fileName?_eq, h, himage]

/-- The name of a source that is no text gives none to the image. -/
example : defaultOutput (Bytes.ofText "src/".toList ++ 0xFF :: Bytes.ofText ".asm".toList) =
    .ofText "src/out.json".toList := by decide +kernel

end Octet.Path
