import Octet.Json.Parser
import Octet.Json.Printer

/-! # Documents and their lexemes

A document is written with certain lexemes, and its text is theirs one behind the other. The parser
reads a document from its lexemes, and it keeps all that it has read, so from no other lexemes.
-/

namespace Octet.Json

mutual

/-- The lexemes with which a document is written. -/
def lexemes : Json → List Lexeme
  | .array items => .openArray :: itemLexemes items ++ [.closeArray]
  | .object members => .openObject :: memberLexemes members ++ [.closeObject]
  | v => [.scalar v]

def itemLexemes : List Json → List Lexeme
  | [] => []
  | v :: vs => v.lexemes ++ furtherItems vs

def furtherItems : List Json → List Lexeme
  | [] => []
  | v :: vs => .comma :: v.lexemes ++ furtherItems vs

def memberLexemes : List (List StringUnit × Json) → List Lexeme
  | [] => []
  | (k, v) :: ms => .scalar (.string k) :: .colon :: v.lexemes ++ furtherMembers ms

def furtherMembers : List (List StringUnit × Json) → List Lexeme
  | [] => []
  | (k, v) :: ms => .comma :: .scalar (.string k) :: .colon :: v.lexemes ++ furtherMembers ms

end

def Lexeme.text : Lexeme → Text
  | .openArray => ['[']
  | .closeArray => [']']
  | .openObject => ['{']
  | .closeObject => ['}']
  | .comma => [',']
  | .colon => [':']
  | .scalar v => v.render

mutual

theorem render_eq : ∀ v : Json, v.render = v.lexemes.flatMap Lexeme.text
  | .null | .bool true | .bool false | .number _ | .string _ => by
    simp [lexemes, Lexeme.text]
  | .array items => by
    simp [render, lexemes, Lexeme.text, renderItems_eq items]
  | .object members => by
    simp [render, lexemes, Lexeme.text, renderMembers_eq members]

theorem renderItems_eq : ∀ vs : List Json, renderItems vs = (itemLexemes vs).flatMap Lexeme.text
  | [] => rfl
  | [v] => by simp [renderItems, itemLexemes, furtherItems, render_eq v]
  | v :: w :: vs => by
    have hrest := renderItems_eq (w :: vs)
    rw [itemLexemes] at hrest
    simp [renderItems, itemLexemes, furtherItems, Lexeme.text, render_eq v, hrest]

theorem renderMembers_eq : ∀ ms : List (List StringUnit × Json),
    renderMembers ms = (memberLexemes ms).flatMap Lexeme.text
  | [] => rfl
  | [(k, v)] => by
    simp [renderMembers, memberLexemes, furtherMembers, Lexeme.text, render, render_eq v]
  | (k, v) :: (l, w) :: ms => by
    have hrest := renderMembers_eq ((l, w) :: ms)
    rw [memberLexemes] at hrest
    simp [renderMembers, memberLexemes, furtherMembers, Lexeme.text, render, render_eq v] at hrest ⊢
    exact hrest

end

/-- Where a value is called for, and possibly the end of an array. -/
def Expecting.CallsForValue (e : Expecting) (stack : List Frame) : Prop :=
  ∀ l ≠ .closeArray, e.step l = startValue stack l

theorem callsForValue_value (stack : List Frame) : (Expecting.value stack).CallsForValue stack := by
  intro l _
  rfl

theorem callsForValue_firstItem (stack : List Frame) :
    (Expecting.firstItem stack).CallsForValue (.array [] :: stack) := by
  intro l hl
  cases l with
  | closeArray => exact absurd rfl hl
  | _ => rfl

theorem foldlM_scalar {v : Json} (h : v.lexemes = [.scalar v]) {e : Expecting} {stack : List Frame}
    (he : e.CallsForValue stack) :
    v.lexemes.foldlM Expecting.step e = some (.nothing v stack) := by
  have hscalar : e.step (.scalar v) = startValue stack (.scalar v) := he _ nofun
  rw [h, List.foldlM_cons, hscalar]
  rfl

mutual

theorem foldlM_lexemes : ∀ (v : Json) (e : Expecting) (stack : List Frame), e.CallsForValue stack →
    v.lexemes.foldlM Expecting.step e = some (.nothing v stack)
  | .null, _, _, he | .bool _, _, _, he | .number _, _, _, he | .string _, _, _, he =>
    foldlM_scalar (by simp [lexemes]) he
  | .array items, e, stack, he => by
    have hopen : e.step .openArray = startValue stack .openArray := he _ nofun
    rw [lexemes, List.cons_append, List.foldlM_cons, hopen]
    exact foldlM_items items stack
  | .object members, e, stack, he => by
    have hopen : e.step .openObject = startValue stack .openObject := he _ nofun
    rw [lexemes, List.cons_append, List.foldlM_cons, hopen]
    exact foldlM_members members stack

theorem foldlM_items : ∀ (vs : List Json) (stack : List Frame),
    (itemLexemes vs ++ [Lexeme.closeArray]).foldlM Expecting.step (.firstItem stack) =
      some (.nothing (.array vs) stack)
  | [], _ => rfl
  | v :: vs, stack => by
    have hv := foldlM_lexemes v _ _ (callsForValue_firstItem stack)
    rw [itemLexemes, List.append_assoc, List.foldlM_append, hv]
    exact foldlM_furtherItems vs v [] stack

theorem foldlM_furtherItems : ∀ (vs : List Json) (v : Json) (items : List Json)
    (stack : List Frame), (furtherItems vs ++ [Lexeme.closeArray]).foldlM Expecting.step
      (.nothing v (.array items :: stack)) =
      some (.nothing (.array (items.reverse ++ v :: vs)) stack)
  | [], v, items, stack => by simp [furtherItems, Expecting.step]
  | w :: vs, v, items, stack => by
    have hw := foldlM_lexemes w _ _ (callsForValue_value (.array (v :: items) :: stack))
    have hrest := foldlM_furtherItems vs w (v :: items) stack
    rw [furtherItems, List.append_assoc, List.cons_append, List.foldlM_cons]
    simp only [Expecting.step, bind, Option.bind_some]
    rw [List.foldlM_append, hw]
    simpa using hrest

theorem foldlM_members : ∀ (ms : List (List StringUnit × Json)) (stack : List Frame),
    (memberLexemes ms ++ [Lexeme.closeObject]).foldlM Expecting.step (.key true [] stack) =
      some (.nothing (.object ms) stack)
  | [], _ => rfl
  | (k, v) :: ms, stack => by
    have hv := foldlM_lexemes v _ _ (callsForValue_value (.object [] k :: stack))
    rw [memberLexemes, List.append_assoc, List.cons_append, List.cons_append, List.foldlM_cons]
    simp only [Expecting.step, bind, Option.bind_some]
    rw [List.foldlM_cons]
    simp only [Expecting.step, bind, Option.bind_some]
    rw [List.foldlM_append, hv]
    exact foldlM_furtherMembers ms k v [] stack

theorem foldlM_furtherMembers : ∀ (ms : List (List StringUnit × Json)) (k : List StringUnit)
    (v : Json) (members : List (List StringUnit × Json)) (stack : List Frame),
    (furtherMembers ms ++ [Lexeme.closeObject]).foldlM Expecting.step
      (.nothing v (.object members k :: stack)) =
      some (.nothing (.object (members.reverse ++ (k, v) :: ms)) stack)
  | [], k, v, members, stack => by simp [furtherMembers, Expecting.step]
  | (l, w) :: ms, k, v, members, stack => by
    have hw := foldlM_lexemes w _ _ (callsForValue_value (.object ((k, v) :: members) l :: stack))
    have hrest := foldlM_furtherMembers ms l w ((k, v) :: members) stack
    rw [furtherMembers, List.append_assoc]
    simp only [List.cons_append, List.foldlM_cons, Expecting.step, bind, Option.bind_some]
    rw [List.foldlM_append, hw]
    simpa using hrest

end

/-- A lexeme that a text can hold: a scalar contains nothing, and the literal of a number is one. -/
def Lexeme.Sound : Lexeme → Prop
  | .scalar (.number literal) => isNumber literal = true
  | .scalar (.array _) | .scalar (.object _) => False
  | _ => True

theorem lexemes_of_sound {v : Json} (h : (Lexeme.scalar v).Sound) : v.lexemes = [.scalar v] := by
  cases v with
  | array | object => cases h
  | null | bool | number | string => simp [lexemes]

def endedItems (vs : List Json) : List Lexeme := vs.flatMap fun v => v.lexemes ++ [.comma]

def endedMembers (ms : List (List StringUnit × Json)) : List Lexeme :=
  ms.flatMap fun m => .scalar (.string m.1) :: .colon :: m.2.lexemes ++ [.comma]

def Frame.lexemes : Frame → List Lexeme
  | .array items => .openArray :: endedItems items.reverse
  | .object members k =>
    .openObject :: endedMembers members.reverse ++ [.scalar (.string k), .colon]

def stackLexemes (stack : List Frame) : List Lexeme := stack.reverse.flatMap Frame.lexemes

/-- The lexemes that have been read. -/
def Expecting.lexemes : Expecting → List Lexeme
  | .value stack => stackLexemes stack
  | .firstItem stack => stackLexemes stack ++ [.openArray]
  | .key _ members stack => stackLexemes stack ++ .openObject :: endedMembers members.reverse
  | .colon k members stack =>
    stackLexemes stack ++ .openObject :: endedMembers members.reverse ++ [.scalar (.string k)]
  | .nothing v stack => stackLexemes stack ++ v.lexemes

/-- An object that may still end without a member has none. -/
def Expecting.Opening : Expecting → Prop
  | .key first members _ => first = true → members = []
  | _ => True

theorem stackLexemes_cons (frame : Frame) (stack : List Frame) :
    stackLexemes (frame :: stack) = stackLexemes stack ++ frame.lexemes := by
  simp [stackLexemes]

theorem itemLexemes_concat (vs : List Json) (v : Json) :
    itemLexemes (vs ++ [v]) = endedItems vs ++ v.lexemes := by
  have hfurther (vs : List Json) :
      furtherItems (vs ++ [v]) = .comma :: endedItems vs ++ v.lexemes := by
    induction vs with
    | nil => simp [furtherItems, endedItems]
    | cons w vs ih => simp [furtherItems, endedItems, ih]
  cases vs with
  | nil => simp [itemLexemes, furtherItems, endedItems]
  | cons w vs => simp [itemLexemes, endedItems, hfurther]

theorem memberLexemes_concat (ms : List (List StringUnit × Json)) (k : List StringUnit) (v : Json) :
    memberLexemes (ms ++ [(k, v)]) =
      endedMembers ms ++ .scalar (.string k) :: .colon :: v.lexemes := by
  have hfurther (ms : List (List StringUnit × Json)) : furtherMembers (ms ++ [(k, v)]) =
      .comma :: endedMembers ms ++ .scalar (.string k) :: .colon :: v.lexemes := by
    induction ms with
    | nil => simp [furtherMembers, endedMembers]
    | cons m ms ih => simp [furtherMembers, endedMembers, ih]
  cases ms with
  | nil => simp [memberLexemes, furtherMembers, endedMembers]
  | cons m ms => simp [memberLexemes, endedMembers, hfurther]

/-- Starting a value puts the lexeme with which it starts behind what has been read. -/
theorem lexemes_of_startValue {stack : List Frame} {l : Lexeme} {e : Expecting} (hl : l.Sound)
    (h : startValue stack l = some e) : e.lexemes = stackLexemes stack ++ [l] ∧ e.Opening := by
  cases l with
  | scalar v =>
    cases h
    exact ⟨congrArg (stackLexemes stack ++ ·) (lexemes_of_sound hl), trivial⟩
  | openArray =>
    cases h
    exact ⟨rfl, trivial⟩
  | openObject =>
    cases h
    exact ⟨rfl, fun _ => rfl⟩
  | closeArray | closeObject | comma | colon => cases h

/-- A step puts its lexeme behind what has been read. -/
theorem lexemes_step {e e' : Expecting} {l : Lexeme} (he : e.Opening) (hl : l.Sound)
    (h : e.step l = some e') : e'.lexemes = e.lexemes ++ [l] ∧ e'.Opening := by
  fun_cases Expecting.step e l with
  | case1 stack => exact lexemes_of_startValue hl h
  | case2 stack =>
    cases h
    simp [Expecting.lexemes, Expecting.Opening, Json.lexemes, itemLexemes]
  | case3 stack l hclose =>
    rw [callsForValue_firstItem stack l hclose] at h
    obtain ⟨hlexemes, hopening⟩ := lexemes_of_startValue hl h
    refine ⟨?_, hopening⟩
    rw [hlexemes, stackLexemes_cons]
    rfl
  | case4 first members stack k =>
    cases h
    simp [Expecting.lexemes, Expecting.Opening]
  | case5 members stack =>
    cases h
    obtain rfl : members = [] := he rfl
    simp [Expecting.lexemes, Expecting.Opening, Json.lexemes, memberLexemes, endedMembers]
  | case6 k members stack =>
    cases h
    simp [Expecting.lexemes, Expecting.Opening, stackLexemes_cons, Frame.lexemes]
  | case7 v items stack =>
    cases h
    simp [Expecting.lexemes, Expecting.Opening, stackLexemes_cons, Frame.lexemes, endedItems]
  | case8 v items stack =>
    cases h
    simp [Expecting.lexemes, Expecting.Opening, stackLexemes_cons, Frame.lexemes, Json.lexemes,
      itemLexemes_concat]
  | case9 v members k stack =>
    cases h
    simp [Expecting.lexemes, Expecting.Opening, stackLexemes_cons, Frame.lexemes, endedMembers]
  | case10 v members k stack =>
    cases h
    simp [Expecting.lexemes, Expecting.Opening, stackLexemes_cons, Frame.lexemes, Json.lexemes,
      memberLexemes_concat]
  | case11 => simp [Expecting.step, *] at h

theorem lexemes_foldlM {e e' : Expecting} {ls : List Lexeme} (he : e.Opening)
    (hls : ∀ l ∈ ls, l.Sound) (h : ls.foldlM Expecting.step e = some e') :
    e'.lexemes = e.lexemes ++ ls := by
  induction ls generalizing e with
  | nil =>
    cases h
    simp
  | cons l ls ih =>
    obtain ⟨hl, hrest⟩ := List.forall_mem_cons.1 hls
    rw [List.foldlM_cons] at h
    obtain ⟨e₁, hstep, h⟩ := Option.bind_eq_some_iff.1 h
    obtain ⟨hlexemes, hopening⟩ := lexemes_step he hl hstep
    rw [ih hopening hrest h, hlexemes, List.append_assoc]
    rfl

/-- A document is read from its own lexemes and from no others. -/
theorem foldlM_eq_some_iff {v : Json} {ls : List Lexeme} (hls : ∀ l ∈ ls, l.Sound) :
    ls.foldlM Expecting.step (.value []) = some (.nothing v []) ↔ ls = v.lexemes := by
  constructor
  · intro h
    have hopening : (Expecting.value []).Opening := trivial
    have hread := lexemes_foldlM hopening hls h
    simpa [Expecting.lexemes, stackLexemes] using hread.symm
  · rintro rfl
    exact foldlM_lexemes v _ _ (callsForValue_value [])

end Octet.Json
