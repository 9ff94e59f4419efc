import Mathlib.Logic.Relation
import Octet.Assembly.Compilation
import Octet.Proofs.Lists
import Octet.Proofs.Text.Pieces

/-! # Edits of the layout

What a line looks like is of no account: how far it is indented, how many spaces stand between its
pieces or behind them, what its comment says, and whether the lines of the text end in returns. A
compilation comes out the same in every token, event and label.
-/

namespace Octet

namespace Line

/-- What stands in a line in front of its comment. -/
def body (raw : Text) : Text := raw.takeWhile (· != '-')

/-- One edit of the layout of a line. Spaces between pieces are widened except in a directive. -/
inductive Edit : Text → Text → Prop
  | indent (n : Nat) (raw : Text) : Edit raw (List.replicate n ' ' ++ raw)
  | pad (n : Nat) (raw : Text) : Edit raw (raw ++ List.replicate n ' ')
  | setOff (n : Nat) (front comment : Text) (h : '-' ∉ front) :
    Edit (front ++ '-' :: comment) (front ++ List.replicate n ' ' ++ '-' :: comment)
  | widen (n : Nat) (front back : Text) (h : '-' ∉ front)
    (hd : (Text.trimStart (front ++ ' ' :: back)).head? ≠ some '#') :
    Edit (front ++ ' ' :: back) (front ++ ' ' :: (List.replicate n ' ' ++ back))
  | comment (raw text : Text) : Edit raw (raw ++ '-' :: text)
  | recomment (front old new : Text) (h : '-' ∉ front) :
    Edit (front ++ '-' :: old) (front ++ '-' :: new)

theorem body_append {front : Text} (h : '-' ∉ front) (t : Text) :
    body (front ++ t) = front ++ body t := by
  refine List.takeWhile_append_of_pos fun c hc => bne_iff_ne.2 ?_
  rintro rfl
  exact h hc

theorem body_of_not_mem {raw : Text} (h : '-' ∉ raw) : body raw = raw := by
  simpa [body] using body_append h []

/-- Behind the first mark of a comment nothing counts. -/
theorem body_append_of_mem {raw : Text} (h : '-' ∈ raw) (t : Text) : body (raw ++ t) = body raw := by
  obtain ⟨front, comment, rfl, hfront⟩ := List.eq_append_cons_of_mem h
  rw [List.append_assoc, body_append hfront, body_append hfront]
  rfl

theorem body_append_comment (raw text : Text) : body (raw ++ '-' :: text) = body raw := by
  by_cases h : '-' ∈ raw
  · exact body_append_of_mem h _
  · rw [body_append h, body_of_not_mem h]
    exact List.append_nil raw

theorem head?_of_body {raw : Text} {c : Char} (h : (Text.trimStart (body raw)).head? = some c) :
    (Text.trimStart raw).head? = some c := by
  have hne : Text.trimStart (body raw) ≠ [] := by
    intro hnil
    rw [hnil] at h
    cases h
  have hraw : raw = body raw ++ raw.dropWhile (· != '-') := List.takeWhile_append_dropWhile.symm
  rw [hraw, Text.trimStart_append hne, List.head?_append, h, Option.some_or]

theorem code_of_body {raw : Text} (h : '\r' ∉ body raw) : code raw = Text.trimStart (body raw) := by
  cases hd : raw.dropSuffix? ['\r'] with
  | none => simp [code, hd, body]
  | some front =>
    obtain rfl := Text.eq_append_of_dropSuffix? hd
    have hmem : '-' ∈ front := by
      refine Classical.byContradiction fun hnot => h ?_
      rw [body_append hnot]
      simp [body]
    rw [body_append_of_mem hmem, code, hd]
    rfl

theorem code_append_return (raw : Text) : code (raw ++ ['\r']) = Text.trimStart (body raw) := by
  simp [code, Text.dropSuffix?_append, body]

/-- The tokens of a line with the code. -/
def ofCode (line : Nat) : Text → List Token
  | [] => []
  | '#' :: rest => [.ofDirective line ('#' :: rest)]
  | code => code.pieces.map (.ofPiece line)

theorem tokens_eq_ofCode (line : Nat) (raw : Text) : tokens line raw = ofCode line (code raw) := rfl

theorem ofCode_of_ne {code : Text} (h : code.head? ≠ some '#') (line : Nat) :
    ofCode line code = code.pieces.map (.ofPiece line) := by
  unfold ofCode
  split
  · rw [Text.pieces_nil, List.map_nil]
  · exact absurd rfl h
  · rfl

theorem ofCode_append_spaces (line : Nat) (t : Text) (n : Nat) :
    ofCode line (Text.trimStart (t ++ List.replicate n ' ')) = ofCode line (Text.trimStart t) := by
  cases ht : Text.trimStart t with
  | nil =>
    have hspaces := Text.trimStart_spaces_append n []
    rw [List.append_nil] at hspaces
    rw [Text.trimStart_append_of_blank ht, hspaces]
    rfl
  | cons c code =>
    rw [Text.trimStart_append (by simp [ht]), ht]
    by_cases hc : c = '#'
    · subst hc
      have htrim : Text.trim ('#' :: (code ++ List.replicate n ' ')) = Text.trim ('#' :: code) :=
        Text.trimEnd_append_spaces ('#' :: code) n
      simp only [List.cons_append, ofCode, Token.ofDirective, htrim]
    · rw [ofCode_of_ne (by simpa using hc), ofCode_of_ne (by simpa using hc),
        Text.pieces_append_spaces]

theorem ofCode_widen (line : Nat) {front t : Text} (n : Nat)
    (h : (Text.trimStart (front ++ ' ' :: t)).head? ≠ some '#') :
    ofCode line (Text.trimStart (front ++ ' ' :: (List.replicate n ' ' ++ t))) =
      ofCode line (Text.trimStart (front ++ ' ' :: t)) := by
  by_cases hf : Text.trimStart front = []
  · have hspaces := Text.trimStart_spaces_append (n + 1) t
    have hspace := Text.trimStart_spaces_append 1 t
    rw [Text.trimStart_append_of_blank hf, Text.trimStart_append_of_blank hf]
    exact congrArg (ofCode line) (hspaces.trans hspace.symm)
  · rw [Text.trimStart_append hf, List.head?_append_of_ne_nil _ hf] at h
    have hcode : ∀ t : Text, (Text.trimStart front ++ t).head? ≠ some '#' := fun t => by
      rwa [List.head?_append_of_ne_nil _ hf]
    rw [Text.trimStart_append hf, Text.trimStart_append hf, ofCode_of_ne (hcode _),
      ofCode_of_ne (hcode _), Text.pieces_append_space, Text.pieces_append_space,
      Text.pieces_spaces_append]

/-- The line `raw'` has the code of the line `raw` but for spaces, and no return in it. -/
structure Kept (raw raw' : Text) : Prop where
  no_return : '\r' ∉ body raw'
  ofCode : ∀ line, ofCode line (Text.trimStart (body raw')) = ofCode line (Text.trimStart (body raw))

theorem Kept.trans {raw raw' raw'' : Text} (h : Kept raw raw') (h' : Kept raw' raw'') :
    Kept raw raw'' :=
  ⟨h'.no_return, fun line => (h'.ofCode line).trans (h.ofCode line)⟩

theorem kept_of_body_eq {raw raw' : Text} (h : '\r' ∉ body raw) (hb : body raw' = body raw) :
    Kept raw raw' :=
  ⟨hb ▸ h, fun line => by rw [hb]⟩

theorem kept_of_body_spaces {raw raw' : Text} {n : Nat} (h : '\r' ∉ body raw)
    (hb : body raw' = body raw ++ List.replicate n ' ') : Kept raw raw' := by
  refine ⟨?_, fun line => ?_⟩
  · rw [hb, List.mem_append]
    rintro (hr | hr)
    · exact h hr
    · cases List.eq_of_mem_replicate hr
  · rw [hb, ofCode_append_spaces]

theorem Edit.kept {raw raw' : Text} (h : Edit raw raw') (hr : '\r' ∉ body raw) : Kept raw raw' := by
  have hdash : ∀ n : Nat, '-' ∉ List.replicate n ' ' := fun n hd => by
    cases List.eq_of_mem_replicate hd
  cases h with
  | indent n =>
    have hb := body_append (hdash n) raw
    refine ⟨?_, fun line => ?_⟩
    · rw [hb, List.mem_append]
      rintro (h | h)
      · cases List.eq_of_mem_replicate h
      · exact hr h
    · rw [hb, Text.trimStart_spaces_append]
  | pad n =>
    by_cases hm : '-' ∈ raw
    · exact kept_of_body_eq hr (body_append_of_mem hm _)
    · have hb : body (raw ++ List.replicate n ' ') = body raw ++ List.replicate n ' ' := by
        rw [body_append hm, body_of_not_mem (hdash n), body_of_not_mem hm]
      exact kept_of_body_spaces hr hb
  | setOff n front comment hf =>
    have hb : body (front ++ List.replicate n ' ' ++ '-' :: comment) =
        body (front ++ '-' :: comment) ++ List.replicate n ' ' := by
      rw [body_append_comment, body_append_comment, body_append hf, body_of_not_mem (hdash n),
        body_of_not_mem hf]
    exact kept_of_body_spaces hr hb
  | widen n front back hf hd =>
    have hwide : body (front ++ ' ' :: (List.replicate n ' ' ++ back)) =
        front ++ ' ' :: (List.replicate n ' ' ++ body back) := by
      rw [body_append hf]
      exact congrArg (fun t => front ++ ' ' :: t) (body_append (hdash n) back)
    have hnarrow : body (front ++ ' ' :: back) = front ++ ' ' :: body back := body_append hf _
    have hhead := mt head?_of_body hd
    rw [hnarrow] at hr hhead
    refine ⟨?_, fun line => ?_⟩
    · simp only [hwide, List.mem_append, List.mem_cons] at hr ⊢
      rintro (h | h | h | h)
      · exact hr (.inl h)
      · cases h
      · cases List.eq_of_mem_replicate h
      · exact hr (.inr (.inr h))
    · rw [hwide, hnarrow, ofCode_widen line n hhead]
  | comment _ text => exact kept_of_body_eq hr (body_append_comment raw text)
  | recomment front old new hf =>
    refine kept_of_body_eq hr ?_
    rw [body_append_comment, body_append_comment]

theorem Kept.tokens_eq {raw raw' : Text} (h : Kept raw raw') (hr : '\r' ∉ body raw) (line : Nat) :
    tokens line raw' = tokens line raw := by
  rw [tokens_eq_ofCode, tokens_eq_ofCode, code_of_body h.no_return, code_of_body hr, h.ofCode]

theorem tokens_append_return {raw : Text} (hr : '\r' ∉ body raw) (line : Nat) :
    tokens line (raw ++ ['\r']) = tokens line raw := by
  rw [tokens_eq_ofCode, tokens_eq_ofCode, code_append_return, code_of_body hr]

theorem kept_of_edits {raw raw' : Text} (h : Relation.ReflTransGen Edit raw raw')
    (hr : '\r' ∉ body raw) : Kept raw raw' := by
  induction h with
  | refl => exact kept_of_body_eq hr rfl
  | tail _ hedit ih => exact ih.trans (hedit.kept ih.no_return)

end Line

/-- The lines of the one text come of the lines of the other by any number of edits on each. -/
def Edited (source source' : Text) : Prop :=
  List.Forall₂ (Relation.ReflTransGen Line.Edit) (source.splitOn '\n') (source'.splitOn '\n')

def withReturns (source : Text) : Text :=
  source.flatMap fun c => if c = '\n' then ['\r', '\n'] else [c]

theorem forall₂_withReturns (source : Text) :
    List.Forall₂ (fun raw raw' => raw' = raw ∨ raw' = raw ++ ['\r']) (source.splitOn '\n')
      ((withReturns source).splitOn '\n') := by
  induction source with
  | nil => exact .cons (.inl rfl) .nil
  | cons c source ih =>
    by_cases hc : c = '\n'
    · subst hc
      have h : withReturns ('\n' :: source) = ['\r'] ++ '\n' :: withReturns source := rfl
      rw [h, List.splitOn_append_cons_self, List.splitOn_cons_eq_if_modifyHead]
      exact .cons (.inr rfl) ih
    · have h : withReturns (c :: source) = c :: withReturns source := by
        simp [withReturns, hc]
      rw [h, List.splitOn_cons_eq_if_modifyHead, List.splitOn_cons_eq_if_modifyHead]
      generalize (withReturns source).splitOn '\n' = raws' at ih ⊢
      obtain ⟨raw, raws, hraws⟩ := List.exists_cons_of_ne_nil (List.splitOn_ne_nil '\n' source)
      rw [hraws] at ih ⊢
      cases ih with
      | cons hraw hrest =>
        have hsep : (c == '\n') = false := by simpa using hc
        simp only [hsep]
        refine .cons ?_ hrest
        rcases hraw with rfl | rfl
        · exact .inl rfl
        · exact .inr rfl

theorem tokenize_congr {source source' : Text}
    (h : List.Forall₂ (fun raw raw' => ∀ line, Line.tokens line raw' = Line.tokens line raw)
      (source.splitOn '\n') (source'.splitOn '\n')) :
    tokenize source' = tokenize source := by
  have hfrom : ∀ {raws raws' : List Text} (n : Nat),
      List.Forall₂ (fun raw raw' => ∀ line, Line.tokens line raw' = Line.tokens line raw)
        raws raws' →
      ((raws'.zipIdx n).flatMap fun (raw, line) => Line.tokens line raw) =
        (raws.zipIdx n).flatMap fun (raw, line) => Line.tokens line raw := by
    intro raws raws' n h
    induction h generalizing n with
    | nil => rfl
    | cons hraw _ ih => simp only [List.zipIdx_cons, List.flatMap_cons, hraw, ih]
  exact hfrom 1 h

theorem Edited.kept {source source' : Text} (h : Edited source source') (hr : '\r' ∉ source) :
    List.Forall₂ (fun raw raw' => '\r' ∉ Line.body raw ∧ Line.Kept raw raw')
      (source.splitOn '\n') (source'.splitOn '\n') := by
  refine forall₂_imp_of_mem h fun raw hraw raw' _ hedits => ?_
  have hbody : '\r' ∉ Line.body raw := fun hmem =>
    hr (Text.mem_of_mem_splitOn hraw ((List.takeWhile_prefix _).subset hmem))
  exact ⟨hbody, Line.kept_of_edits hedits hbody⟩

theorem tokenize_withReturns {source : Text}
    (h : ∀ raw ∈ source.splitOn '\n', '\r' ∉ Line.body raw) :
    tokenize (withReturns source) = tokenize source := by
  refine tokenize_congr (forall₂_imp_of_mem (forall₂_withReturns source) ?_)
  rintro raw hraw raw' - (rfl | rfl) line
  · rfl
  · exact Line.tokens_append_return (h raw hraw) line

/-- A text without returns compiles alike however it is laid out, with newlines of either kind. -/
theorem compile_of_edited {source source' : Text} (hr : '\r' ∉ source)
    (h : Edited source source') :
    compile source' = compile source ∧ compile (withReturns source') = compile source := by
  have hkept := h.kept hr
  have htokens : tokenize source' = tokenize source :=
    tokenize_congr (hkept.imp fun _ _ ⟨hraw, hline⟩ => hline.tokens_eq hraw)
  have hreturns : tokenize (withReturns source') = tokenize source' := by
    refine tokenize_withReturns fun raw' hraw' => ?_
    obtain ⟨raw, -, -, hline⟩ := exists_of_mem_right hkept hraw'
    exact hline.no_return
  exact ⟨by rw [compile, compile, htokens], by rw [compile, compile, hreturns, htokens]⟩

/-- A label line that is indented and commented on, a widened instruction line the comment of which
is changed and set off, and a directive with spaces behind it. -/
theorem compile_of_edited_program :
    let source := "MAIN:\nCLA 7 -old\n#SKIPTO 9".toList
    let source' := "  MAIN:- start\nCLA   7   -new\n#SKIPTO 9 ".toList
    '\r' ∉ source ∧ Edited source source' ∧ compile source' = compile source ∧
      compile (withReturns source') = compile source := by
  intro source source'
  have hr : '\r' ∉ source := by decide +kernel
  have hlines : source.splitOn '\n' =
      ["MAIN:".toList, "CLA 7 -old".toList, "#SKIPTO 9".toList] := by decide +kernel
  have hlines' : source'.splitOn '\n' =
      ["  MAIN:- start".toList, "CLA   7   -new".toList, "#SKIPTO 9 ".toList] := by decide +kernel
  have h : Edited source source' := by
    have hlabel : Relation.ReflTransGen Line.Edit "MAIN:".toList "  MAIN:- start".toList :=
      .tail (.single (.indent 2 "MAIN:".toList)) (.comment "  MAIN:".toList " start".toList)
    have hwide : Line.Edit "CLA 7 -old".toList "CLA   7 -old".toList :=
      .widen 2 "CLA".toList "7 -old".toList (by decide) (by decide)
    have hoff : Line.Edit "CLA   7 -old".toList "CLA   7   -old".toList :=
      .setOff 2 "CLA   7 ".toList "old".toList (by decide)
    have hnew : Line.Edit "CLA   7   -old".toList "CLA   7   -new".toList :=
      .recomment "CLA   7   ".toList "old".toList "new".toList (by decide)
    have hskip : Line.Edit "#SKIPTO 9".toList "#SKIPTO 9 ".toList := .pad 1 "#SKIPTO 9".toList
    rw [Edited, hlines, hlines']
    exact .cons hlabel (.cons (.tail (.tail (.single hwide) hoff) hnew)
      (.cons (.single hskip) .nil))
  exact ⟨hr, h, compile_of_edited hr h⟩

end Octet
