import Octet.CommandLine.Execution
import Octet.Proofs.Assembly.Outcome
import Octet.Proofs.Files.Writing
import Octet.Proofs.Json.Images

/-! # What a build does to files

A build reads one file and writes one file, or none: nothing is written until the whole source has been
compiled without an error, and what is written then is the whole image.
-/

namespace Octet

namespace FileSystem

def text? (fs : FileSystem) (path : Path) : Option Text :=
  match fs.read path with
  | .ok content => (String.fromUTF8? content).map (·.toList)
  | .error _ => none

/-- What a command reports, and the files that it leaves behind. -/
def afterwards (fs : FileSystem) (command : Command) : Report × FileSystem :=
  (command.execute access).run fs

variable {fs : FileSystem} {path : Path} {content : ByteArray}

theorem text?_eq_some_iff {t : Text} : fs.text? path = some t ↔
    ∃ content text, fs.read path = .ok content ∧ String.fromUTF8? content = some text ∧
      text.toList = t := by
  unfold text?
  cases fs.read path with
  | error e => simp
  | ok content => simp

theorem fromUTF8?_toUTF8 (s : String) : String.fromUTF8? s.toUTF8 = some s := dif_pos s.isValidUTF8

theorem run_bind_of_run {σ α β : Type} {s s' : σ} {a : α} {x : StateM σ α} {f : α → StateM σ β}
    (h : x.run s = (a, s')) : (x >>= f).run s = (f a).run s' := by
  rw [StateT.run_bind, h]
  rfl

theorem run_read (fs : FileSystem) (path : Path) : (access.read path).run fs = (fs.read path, fs) := rfl

theorem run_write (fs : FileSystem) (path : Path) (content : ByteArray) :
    (access.write path content).run fs =
      match fs.write path content with
      | .ok after => (.ok (), after)
      | .error e => (.error e, fs) := by
  have hget : (get : StateM FileSystem FileSystem).run fs = (fs, fs) := rfl
  simp only [access]
  rw [run_bind_of_run hget]
  cases fs.write path content <;> rfl

end FileSystem

namespace Execution

variable {fs : FileSystem} {input : Path} {output : Option Path} {verbose : Bool} {source : Text}

theorem run_readText (h : fs.text? input = some source) :
    (readText FileSystem.access input).run fs = (.ok source, fs) := by
  obtain ⟨content, text, hread, htext, rfl⟩ := FileSystem.text?_eq_some_iff.1 h
  rw [readText, FileSystem.run_bind_of_run (fs.run_read input), hread]
  simp only [htext]
  rfl

theorem compiled_of_hasErrors (h : (compile source).hasErrors = true) :
    ∃ report, compiled source = .error report ∧
      report.error = some (.compile (compile source).summary) := by
  simp only [compiled, h, ↓reduceIte]
  exact ⟨_, rfl, rfl⟩

theorem compiled_of_image {image : Image} (h : (compile source).image = .ok image) :
    compiled source = .ok (compile source, image) := by
  simp only [compiled, Compilation.clean_of_image h, Bool.false_eq_true, ↓reduceIte, h]

theorem build_of_error (hsource : fs.text? input = some source) {report : Report}
    (h : compiled source = .error report) :
    (build FileSystem.access input output verbose).run fs = (report, fs) := by
  rw [build, FileSystem.run_bind_of_run (run_readText hsource)]
  simp only [h]
  rfl

def target (input : Path) (output : Option Path) : Path := output.getD (Path.defaultOutput input)

def imageContent (image : Image) : ByteArray := (String.ofList image.render).toUTF8

theorem build_of_compiled (verbose : Bool) (hsource : fs.text? input = some source)
    {c : Compilation} {image : Image} (h : compiled source = .ok (c, image))
    {answer : Except FileError Unit} {after : FileSystem}
    (hwrite : (FileSystem.access.write (target input output) (imageContent image)).run fs =
      (answer, after)) :
    ∃ report, (build FileSystem.access input output verbose).run fs = (report, after) ∧
      report.error = match answer with
        | .ok () => none
        | .error e => some (.write (target input output) e) := by
  rw [build, FileSystem.run_bind_of_run (run_readText hsource)]
  simp only [h]
  rw [← target, ← imageContent, FileSystem.run_bind_of_run hwrite]
  cases answer with
  | error e => exact ⟨_, rfl, rfl⟩
  | ok => exact ⟨_, rfl, rfl⟩

/-- A build of a source that can be read ends in one of three ways. A source with errors leaves every
file as it was, and its errors are what is reported. Otherwise there is an image, and a content that is
read as this image. If the content cannot be written, that is reported, and again every file is as it
was. Else it is put at the output path, and no other file is new or changed. Without an output path that
is the one which leads from the directory of the source to its stem with `.json`, or to `out.json` if
the source has no stem that is a text. In this case the source is as it was, unless its own name is a
text and this ending, when the derived path is that of the source. -/
theorem build_writes_image_only (fs : FileSystem) (input : Path) (output : Option Path)
    (verbose : Bool) {source : Text} (hsource : fs.text? input = some source) :
    let path := output.getD (Path.defaultOutput input)
    (output = none → Path.Derived input path) ∧
    ∃ report after, fs.afterwards (.build input output verbose) = (report, after) ∧
      ((compile source).hasErrors = true →
        after = fs ∧ report.error = some (.compile (compile source).summary)) ∧
      ((compile source).hasErrors = false → ∃ image content text,
        (compile source).image = .ok image ∧ String.fromUTF8? content = some text ∧
        Image.parse? text.toList = some image ∧
        ((∃ e, fs.write path content = .error e ∧ after = fs ∧
            report.error = some (.write path e)) ∨
          report.error = none ∧ ∃ l, fs.locate path = .ok l ∧
            fs.Writes after l content ∧ after.read path = .ok content ∧
            (output = none →
              (¬Path.NamesImage input → after.read input = fs.read input) ∧
              (Path.NamesImage input → fs.locate input = .ok l)))) := by
  intro path
  constructor
  · rintro rfl
    exact Path.derived_defaultOutput input
  cases herrors : (compile source).hasErrors with
  | true =>
    obtain ⟨report, hcompiled, herror⟩ := compiled_of_hasErrors herrors
    exact ⟨report, fs, build_of_error hsource hcompiled, fun _ => ⟨rfl, herror⟩, nofun⟩
  | false =>
    obtain ⟨image, himage⟩ := exists_image herrors
    have hcompiled := compiled_of_image himage
    have htext : String.fromUTF8? (imageContent image) = some (String.ofList image.render) :=
      FileSystem.fromUTF8?_toUTF8 _
    have hparse : Image.parse? (String.ofList image.render).toList = some image := by
      rw [String.toList_ofList, Image.parse?_render]
    have haccess := fs.run_write (target input output) (imageContent image)
    cases hwrite : fs.write (target input output) (imageContent image) with
    | error e =>
      rw [hwrite] at haccess
      obtain ⟨report, hrun, herror⟩ := build_of_compiled verbose hsource hcompiled haccess
      exact ⟨report, fs, hrun, nofun, fun _ => ⟨image, _, _, himage, htext, hparse,
        .inl ⟨e, hwrite, rfl, herror⟩⟩⟩
    | ok after =>
      rw [hwrite] at haccess
      obtain ⟨report, hrun, herror⟩ := build_of_compiled verbose hsource hcompiled haccess
      obtain ⟨l, hl, hnode, -, hput⟩ := FileSystem.write_eq_ok_iff.1 hwrite
      refine ⟨report, after, hrun, nofun, fun _ => ⟨image, _, _, himage, htext, hparse,
        .inr ⟨herror, l, hl, ?_, FileSystem.read_of_write hwrite, ?_⟩⟩⟩
      · rw [hput]
        exact FileSystem.writes_put fs l _
      · rintro rfl
        obtain ⟨content, _, hread, -, -⟩ := FileSystem.text?_eq_some_iff.1 hsource
        have hown := FileSystem.locate_defaultOutput_iff hread hl
        refine ⟨fun hname => ?_, hown.2⟩
        rw [hput, FileSystem.read_put hnode hread fun hin => hname (hown.1 hin), hread]

theorem build_writes_image_only_prog :
    let files : FileSystem :=
      [([Bytes.ofText "src".toList, Bytes.ofText "prog.asm".toList], "NOP\n".toUTF8)]
    let input := Bytes.ofText "src/prog.asm".toList
    files.text? input = some "NOP\n".toList ∧
    Path.Derived input (Bytes.ofText "src/prog.json".toList) ∧ ∃ report after text,
      files.afterwards (.build input none true) = (report, after) ∧ report.error = none ∧
      after.text? (Bytes.ofText "src/prog.json".toList) = some text ∧
      Image.parse? text = some [⟨0, 1⟩] ∧ after.read input = files.read input := by
  intro files input
  have hsource : files.text? input = some "NOP\n".toList := by decide +kernel
  have himage : (compile "NOP\n".toList).image = .ok [⟨0, 1⟩] := by decide +kernel
  have htarget : Path.defaultOutput input = Bytes.ofText "src/prog.json".toList := by decide +kernel
  have hlocate : files.locate (Path.defaultOutput input) =
      .ok [Bytes.ofText "src".toList, Bytes.ofText "prog.json".toList] := by decide +kernel
  have hfree : files.node? [Bytes.ofText "src".toList, Bytes.ofText "prog.json".toList] ≠
      some .directory := by
    rw [Option.isNone_iff_eq_none.1 (by decide +kernel :
      (files.node? [Bytes.ofText "src".toList, Bytes.ofText "prog.json".toList]).isNone = true)]
    nofun
  have hname : ¬Path.NamesImage input := by
    rintro ⟨t, -, ht⟩
    have hfile : Path.file? input = some (Bytes.ofText "prog.asm".toList) := by decide +kernel
    have hlast := congrArg List.getLast? (Option.some.inj (hfile.symm.trans ht))
    rw [Bytes.ofText_append, List.getLast?_append] at hlast
    cases hlast
  obtain ⟨hderived, report, after, hrun, -, hend⟩ :=
    build_writes_image_only files input none true hsource
  obtain ⟨image, content, text, himage', htext, hparse, hwritten⟩ :=
    hend (Compilation.clean_of_image himage)
  obtain rfl : image = [⟨0, 1⟩] := Except.ok.inj (himage'.symm.trans himage)
  rw [Option.getD_none] at hwritten
  obtain ⟨e, hrefused, -⟩ | ⟨herror, l, -, -, hread, hinput⟩ := hwritten
  · have hok : files.write (Path.defaultOutput input) content = .ok (files.put _ content) :=
      FileSystem.write_eq_ok_iff.2 ⟨_, hlocate, hfree, by decide +kernel, rfl⟩
    cases hok.symm.trans hrefused
  · rw [htarget] at hread
    exact ⟨hsource, htarget ▸ hderived rfl, report, after, text.toList, hrun, herror,
      FileSystem.text?_eq_some_iff.2 ⟨content, text, hread, htext, rfl⟩, hparse,
      (hinput rfl).1 hname⟩

/-- A source with the name of an image is lost when it is built: the image takes its place. -/
theorem build_overwrites_source :
    let files : FileSystem := [([Bytes.ofText "prog.json".toList], "NOP\n".toUTF8)]
    let input := Bytes.ofText "prog.json".toList
    files.text? input = some "NOP\n".toList ∧ (compile "NOP\n".toList).hasErrors = false ∧
      (files.afterwards (.build input none false)).1.error = none ∧
      (files.afterwards (.build input none false)).2.text? input = some "[[0,1]]".toList := by
  decide +kernel

end Execution

end Octet
