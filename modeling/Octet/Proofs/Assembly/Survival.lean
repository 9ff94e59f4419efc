import Octet.Assembly.Compilation
import Octet.Proofs.Assembly.Placement

/-! # What becomes of a token

The passes of the assembler can be applied to any tokens, in any order and any number of times. None
of them loses a token or changes its kind: a token stays in its place and only gains events, unless
it is an address without an error, which gives way to its halves, or a directive without an error,
which a layout drops when it carries it out.
-/

namespace Octet

open Token

/-- A pass over tokens, an encoding with whatever labels are at hand. -/
inductive Pass where
  | split
  | check
  | layout
  | encode (labels : LabelTable)
deriving DecidableEq

namespace Pass

def apply : Pass → List Token → List Token
  | split, ts => splitAddresses ts
  | check, ts => checkOperands ts
  | layout, ts => (Octet.layout ts).1
  | encode labels, ts => Octet.encode labels ts

def applyAll (passes : List Pass) (ts : List Token) : List Token :=
  passes.foldl (fun ts pass => pass.apply ts) ts

/-- A compilation is four of them. -/
example (source : Text) : (compile source).tokens =
    applyAll [split, check, layout, encode (compile source).labels] (tokenize source) := rfl

theorem applyAll_concat (passes : List Pass) (pass : Pass) (ts : List Token) :
    applyAll (passes ++ [pass]) ts = pass.apply (applyAll passes ts) := by
  simp [applyAll]

end Pass

namespace Token

/-- The token `t'` is the token `t` later on: it is made of the same piece and has lost no event. -/
structure Continues (t t' : Token) : Prop extends SamePiece t t' where
  events : t.events <+: t'.events

variable {s t u : Token}

theorem Continues.refl (t : Token) : Continues t t := ⟨⟨rfl, rfl, rfl⟩, List.prefix_rfl⟩

theorem Continues.trans (h : Continues s t) (h' : Continues t u) : Continues s u :=
  ⟨h.toSamePiece.trans h'.toSamePiece, h.events.trans h'.events⟩

theorem Annotated.continues (h : Annotated s t) : Continues s t := by
  refine ⟨h.samePiece, ?_⟩
  obtain ⟨es, rfl, -⟩ := h
  exact List.prefix_append _ _

theorem continues_record (t : Token) (e : Event) : Continues t (t.record e) :=
  ⟨⟨rfl, rfl, rfl⟩, List.prefix_append _ _⟩

theorem Continues.errors (h : Continues s t) : s.errors <+: t.errors := h.events.filterMap _

theorem Continues.isErrored (h : Continues s t) (he : s.isErrored = true) : t.isErrored = true := by
  obtain ⟨es, hes⟩ := h.errors
  rw [isErrored_iff] at he ⊢
  rw [← hes]
  exact List.append_ne_nil_of_left_ne_nil he es

theorem Continues.isErrored_eq_false (h : Continues s t) (he : t.isErrored = false) :
    s.isErrored = false := by
  cases hs : s.isErrored with
  | false => rfl
  | true => rw [h.isErrored hs] at he; cases he

theorem Continues.firstError? (h : Continues s t) (he : s.isErrored = true) :
    t.firstError? = s.firstError? := by
  obtain ⟨es, hes⟩ := h.errors
  rw [Token.firstError?, ← hes]
  exact List.head?_append_of_ne_nil _ ((isErrored_iff s).1 he)

theorem SamePiece.half (h : SamePiece s t) (side : Half) : t.half side = s.half side := by
  rw [Token.half, Token.half, h.line, h.text]

/-- A half is no address that could be split once more, and no directive. -/
theorem kind_half_ne (t : Token) (side : Half) :
    (t.half side).kind ≠ .address ∧ (t.half side).kind ≠ .directive := by
  have hk : (t.half side).kind = (Pattern.classify (t.text ++ side.suffix)).1 := kind_ofPiece _ _
  rw [hk]
  refine ⟨fun h => ?_, classify_ne_directive _⟩
  obtain ⟨name, hn, htext⟩ := exists_name_of_classify h
  cases ht : t.text with
  | nil => cases side <;> simp [ht, Half.suffix] at htext
  | cons c rest =>
    rw [ht, List.cons_append] at htext
    obtain ⟨-, rfl⟩ := List.cons.inj htext
    rw [Pattern.isName_append_suffix] at hn
    cases hn

end Token

/-- What may have become of a token. -/
inductive Remnant (t : Token) : List Token → Prop
  | kept {t' : Token} (h : Continues t t') : Remnant t [t']
  | halved {high low : Token} (he : t.isErrored = false) (hk : t.kind = .address)
    (hhigh : Continues (t.half .high) high) (hlow : Continues (t.half .low) low) :
    Remnant t [high, low]
  | dropped (he : t.isErrored = false) (hk : t.kind = .directive) : Remnant t []

theorem Remnant.of_continues {s t : Token} {part : List Token} (h : Continues s t)
    (ht : Remnant t part) : Remnant s part := by
  cases ht with
  | kept ht => exact .kept (h.trans ht)
  | halved he hk hhigh hlow =>
    refine .halved (h.isErrored_eq_false he) (h.kind ▸ hk) ?_ ?_
    · rwa [← h.toSamePiece.half]
    · rwa [← h.toSamePiece.half]
  | dropped he hk => exact .dropped (h.isErrored_eq_false he) (h.kind ▸ hk)

/-- Neither an address nor a directive can go. -/
theorem Remnant.exists_continues {t : Token} {part : List Token} (h : Remnant t part)
    (hk : t.kind ≠ .address ∧ t.kind ≠ .directive) : ∃ t', part = [t'] ∧ Continues t t' := by
  cases h with
  | kept h => exact ⟨_, rfl, h⟩
  | halved _ h => exact absurd h hk.1
  | dropped _ h => exact absurd h hk.2

inductive Expands (R : Token → List Token → Prop) : List Token → List Token → Prop
  | nil : Expands R [] []
  | cons {t : Token} {part ts ts' : List Token} (h : R t part) (hs : Expands R ts ts') :
    Expands R (t :: ts) (part ++ ts')

namespace Expands

variable {R S : Token → List Token → Prop} {ss ts us ts' : List Token}

theorem imp (hRS : ∀ t part, R t part → S t part) (h : Expands R ts ts') : Expands S ts ts' := by
  induction h with
  | nil => exact .nil
  | cons ht _ ih => exact .cons (hRS _ _ ht) ih

theorem flatMap {f : Token → List Token} (h : ∀ t, R t (f t)) (ts : List Token) :
    Expands R ts (ts.flatMap f) := by
  induction ts with
  | nil => exact .nil
  | cons t ts ih => exact .cons (h t) ih

theorem of_forall₂ (h : List.Forall₂ (fun t t' => R t [t']) ts ts') : Expands R ts ts' := by
  induction h with
  | nil => exact .nil
  | cons ht _ ih => exact .cons ht ih

theorem of_append (h : Expands R (ss ++ ts) us) :
    ∃ ss' ts', us = ss' ++ ts' ∧ Expands R ss ss' ∧ Expands R ts ts' := by
  induction ss generalizing us with
  | nil => exact ⟨[], us, rfl, .nil, h⟩
  | cons s ss ih =>
    cases h with
    | @cons _ part _ us hs h =>
      obtain ⟨ss', ts', rfl, hss, hts⟩ := ih h
      exact ⟨part ++ ss', ts', (List.append_assoc ..).symm, .cons hs hss, hts⟩

theorem of_singleton {t : Token} {part : List Token} (h : Expands R [t] part) : R t part := by
  cases h with
  | cons h hnil =>
    cases hnil
    rwa [List.append_nil]

end Expands

/-- The tokens `ts'` are what has become of the tokens `ts`, in their order. -/
abbrev Survives : List Token → List Token → Prop := Expands Remnant

theorem Remnant.survives {t : Token} {part part' : List Token} (h : Remnant t part)
    (hs : Survives part part') : Remnant t part' := by
  cases h with
  | kept h => exact hs.of_singleton.of_continues h
  | @halved high low he hk hhigh hlow =>
    have hkept : ∀ {side u} {part : List Token}, Continues (t.half side) u → Survives [u] part →
        ∃ u', part = [u'] ∧ Continues (t.half side) u' := fun hu h =>
      (h.of_singleton.of_continues hu).exists_continues (kind_half_ne t _)
    obtain ⟨p, q, rfl, hp, hq⟩ := Expands.of_append (show Survives ([high] ++ [low]) part' from hs)
    obtain ⟨high', rfl, hhigh'⟩ := hkept hhigh hp
    obtain ⟨low', rfl, hlow'⟩ := hkept hlow hq
    exact .halved he hk hhigh' hlow'
  | dropped he hk =>
    cases hs
    exact .dropped he hk

theorem Survives.trans {ss ts us : List Token} (h : Survives ss ts) (h' : Survives ts us) :
    Survives ss us := by
  induction h generalizing us with
  | nil => exact h'
  | cons hr _ ih =>
    obtain ⟨p, q, rfl, hp, hq⟩ := h'.of_append
    exact .cons (hr.survives hp) (ih hq)

def Remains (t : Token) (part : List Token) : Prop := Remnant t part ∧ part ≠ []

theorem Token.Continues.remains {t t' : Token} (h : Continues t t') : Remains t [t'] :=
  ⟨.kept h, List.cons_ne_nil _ _⟩

theorem remains_splitAddresses (ts : List Token) : Expands Remains ts (splitAddresses ts) := by
  refine .flatMap (fun t => ?_) ts
  split
  · next hs =>
    simp only [splits, Bool.and_eq_true, beq_iff_eq, Bool.not_eq_true'] at hs
    exact ⟨.halved hs.2 hs.1 (.refl _) (.refl _), List.cons_ne_nil _ _⟩
  · exact (Continues.refl t).remains

theorem continues_checkOperands (ts : List Token) :
    List.Forall₂ Continues ts (checkOperands ts) := by
  have h := forall₂_flatMap (R := Continues) (f := Operands.checkLine true)
    (fun line => (Operands.forall₂_checkLine true line).imp fun _ _ h => h.annotated.continues)
    (ts.splitBy fun s t => s.line == t.line)
  rwa [List.flatten_splitBy] at h

theorem continues_encode (labels : LabelTable) (ts : List Token) :
    List.Forall₂ Continues ts (encode labels ts) := by
  refine List.forall₂_map_right_iff.2 (List.forall₂_same.2 fun t _ => ?_)
  unfold Encoding.token
  split
  · exact .refl t
  · split
    · exact ⟨⟨rfl, rfl, rfl⟩, List.prefix_append _ _⟩
    · exact continues_record t _
    · exact continues_record t _

namespace Cursor

theorem remnant_place (c : Cursor) (t : Token) : Remnant t (c.place t).1.toList := by
  rcases placing c t with ⟨_, h⟩ | ⟨_, _, _, _, _, _, h⟩ | ⟨_, _, _, _, _, h⟩ | ⟨_, _, _, h⟩ |
    ⟨_, he, hk, _, h⟩ | ⟨_, _, _, _, h⟩ | ⟨_, _, _, _, _, h⟩ | ⟨_, _, _, _, h⟩
  all_goals rw [h]
  · exact .kept ⟨⟨rfl, rfl, rfl⟩, List.prefix_rfl⟩
  · exact .kept ⟨⟨rfl, rfl, rfl⟩, List.prefix_append _ _⟩
  · exact .kept (continues_record t _)
  · exact .kept (continues_record t _)
  · exact .dropped he hk
  · exact .kept ⟨⟨rfl, rfl, rfl⟩, List.prefix_append _ _⟩
  · exact .kept ⟨⟨rfl, rfl, rfl⟩, List.prefix_rfl⟩
  · exact .kept (continues_record t _)

theorem survives_placeAll (c : Cursor) (ts : List Token) : Survives ts (c.placeAll ts).1 := by
  induction ts generalizing c with
  | nil => exact .nil
  | cons t ts ih => exact .cons (c.remnant_place t) (ih (c.place t).2)

/-- The directive is carried out: it leaves, and the counter moves to the address that it gives. -/
def CarriesOut (c : Cursor) (t : Token) : Prop :=
  t.isErrored = false ∧ t.kind = .directive ∧
    ∃ a, Directive.target c.counter t.output = .ok a ∧
      c.place t = (none, { c with counter := a.toNat })

theorem carriesOut_of_place {c : Cursor} {t : Token} (hp : (c.place t).1 = none) :
    c.CarriesOut t := by
  rcases placing c t with ⟨_, h⟩ | ⟨_, _, _, _, _, _, h⟩ | ⟨_, _, _, _, _, h⟩ | ⟨_, _, _, h⟩ |
    ⟨a, he, hk, hd, h⟩ | ⟨_, _, _, _, h⟩ | ⟨_, _, _, _, _, h⟩ | ⟨_, _, _, _, h⟩
  all_goals
    rw [h] at hp
    try cases hp
  exact ⟨he, hk, a, hd, h⟩

end Cursor

namespace Pass

theorem remains_apply {pass : Pass} (h : pass ≠ layout) (ts : List Token) :
    Expands Remains ts (pass.apply ts) := by
  cases pass with
  | split => exact remains_splitAddresses ts
  | check => exact .of_forall₂ ((continues_checkOperands ts).imp fun _ _ h => h.remains)
  | layout => exact absurd rfl h
  | encode labels => exact .of_forall₂ ((continues_encode labels ts).imp fun _ _ h => h.remains)

theorem survives_apply (pass : Pass) (ts : List Token) : Survives ts (pass.apply ts) := by
  by_cases h : pass = layout
  · subst h
    exact Cursor.start.survives_placeAll ts
  · exact (remains_apply h ts).imp fun _ _ h => h.1

/-- One pass at one token: the token is gone only if the pass is a layout that carries it out. -/
theorem exists_remnant_apply (pass : Pass) (front : List Token) (t : Token) (behind : List Token) :
    ∃ front' part behind', pass.apply (front ++ t :: behind) = front' ++ (part ++ behind') ∧
      Survives front front' ∧ Remnant t part ∧ Survives behind behind' ∧
      (part = [] → pass = layout ∧ (Cursor.start.placeAll front).2.CarriesOut t) := by
  by_cases h : pass = layout
  · subst h
    refine ⟨_, _, _, congrArg Prod.fst (Cursor.placeAll_append Cursor.start front (t :: behind)),
      Cursor.start.survives_placeAll front, Cursor.remnant_place _ t,
      Cursor.survives_placeAll _ behind, fun hpart => ⟨rfl, ?_⟩⟩
    exact Cursor.carriesOut_of_place (Option.toList_eq_nil_iff.1 hpart)
  · have hremains := remains_apply h (front ++ t :: behind)
    obtain ⟨front', rest, happly, hfront, hrest⟩ := hremains.of_append
    cases hrest with
    | @cons _ part _ behind' ht hbehind =>
      exact ⟨front', part, behind', happly, hfront.imp fun _ _ h => h.1, ht.1,
        hbehind.imp fun _ _ h => h.1, fun hpart => absurd hpart ht.2⟩

/-- Among the passes is a layout that carries the directive out, where it finds it between what has
become of the tokens before it and of the tokens behind it. -/
def CarryOut (passes : List Pass) (front : List Token) (t : Token) (behind : List Token) : Prop :=
  ∃ earlier later front' t' behind', passes = earlier ++ layout :: later ∧
    applyAll earlier (front ++ t :: behind) = front' ++ t' :: behind' ∧
    Survives front front' ∧ Continues t t' ∧ Survives behind behind' ∧
    (Cursor.start.placeAll front').2.CarriesOut t'

theorem CarryOut.concat {passes : List Pass} {front behind : List Token} {t : Token}
    (h : CarryOut passes front t behind) (pass : Pass) :
    CarryOut (passes ++ [pass]) front t behind := by
  obtain ⟨earlier, later, front', t', behind', rfl, h⟩ := h
  exact ⟨earlier, later ++ [pass], front', t', behind', by simp, h⟩

theorem exists_remnant_applyAll (passes : List Pass) (front : List Token) (t : Token)
    (behind : List Token) :
    ∃ front' part behind', applyAll passes (front ++ t :: behind) = front' ++ (part ++ behind') ∧
      Survives front front' ∧ Remnant t part ∧ Survives behind behind' ∧
      (part = [] → CarryOut passes front t behind) := by
  induction passes using List.reverseRecOn with
  | nil =>
    have hrefl (ts : List Token) : Survives ts ts :=
      .of_forall₂ (List.forall₂_same.2 fun t _ => .kept (.refl t))
    exact ⟨front, [t], behind, rfl, hrefl front, .kept (.refl t), hrefl behind, fun h => by cases h⟩
  | append_singleton passes pass ih =>
    obtain ⟨front₁, part₁, behind₁, hall, hfront, ht, hbehind, hdrop⟩ := ih
    rw [applyAll_concat, hall]
    have hsplit := survives_apply pass (front₁ ++ (part₁ ++ behind₁))
    obtain ⟨front₂, rest₂, happly, hfront', hrest⟩ := hsplit.of_append
    obtain ⟨part₂, behind₂, rfl, hpart, hbehind'⟩ := hrest.of_append
    have ht' : Remnant t part₂ := ht.survives hpart
    cases ht with
    | @kept t₁ ht =>
      obtain ⟨front₂, part₂, behind₂, happly, hfront', ht', hbehind', hdrop'⟩ :=
        exists_remnant_apply pass front₁ t₁ behind₁
      refine ⟨front₂, part₂, behind₂, happly, hfront.trans hfront', ht'.of_continues ht,
        hbehind.trans hbehind', fun hpart => ?_⟩
      obtain ⟨rfl, hcarries⟩ := hdrop' hpart
      exact ⟨passes, [], front₁, t₁, behind₁, rfl, hall, hfront, ht, hbehind, hcarries⟩
    | halved he hk hhigh hlow =>
      refine ⟨front₂, part₂, behind₂, happly, hfront.trans hfront', ht', hbehind.trans hbehind', ?_⟩
      rintro rfl
      cases ht' with
      | dropped _ hk' =>
        rw [hk] at hk'
        cases hk'
    | dropped he hk =>
      exact ⟨front₂, part₂, behind₂, happly, hfront.trans hfront', ht', hbehind.trans hbehind',
        fun _ => (hdrop rfl).concat pass⟩

/-- Whatever passes are applied, and whatever tokens stand before and behind it, a token with an
error stays between what becomes of these, with its line, text and kind and with all of its events,
so that its first error stays the first. A token without an error stays likewise, unless it is an
address that has given way to its two halves on the same line, or a directive that one of the passes
has carried out. -/
theorem remnant_of_token (passes : List Pass) (front : List Token) (t : Token)
    (behind : List Token) :
    ∃ front' part behind',
      applyAll passes (front ++ t :: behind) = front' ++ (part ++ behind') ∧
      Survives front front' ∧ Survives behind behind' ∧
      (t.isErrored = true →
        ∃ t', part = [t'] ∧ Continues t t' ∧ t'.firstError? = t.firstError?) ∧
      (t.isErrored = false →
        (∃ t', part = [t'] ∧ Continues t t') ∨
        (t.kind = .address ∧ ∃ high low, part = [high, low] ∧
          Continues (t.half .high) high ∧ Continues (t.half .low) low ∧
          high.line = t.line ∧ low.line = t.line) ∨
        (t.kind = .directive ∧ part = [] ∧ CarryOut passes front t behind)) := by
  obtain ⟨front', part, behind', hall, hfront, ht, hbehind, hdrop⟩ :=
    exists_remnant_applyAll passes front t behind
  refine ⟨front', part, behind', hall, hfront, hbehind, fun he => ?_, fun he => ?_⟩
  · cases ht with
    | kept h => exact ⟨_, rfl, h, h.firstError? he⟩
    | halved hn | dropped hn =>
      rw [hn] at he
      cases he
  · cases ht with
    | kept h => exact .inl ⟨_, rfl, h⟩
    | halved _ hk hhigh hlow =>
      refine .inr (.inl ⟨hk, _, _, rfl, hhigh, hlow, ?_, ?_⟩)
      · rw [hhigh.line, line_half]
      · rw [hlow.line, line_half]
    | dropped _ hk => exact .inr (.inr ⟨hk, rfl, hdrop rfl⟩)

end Pass

end Octet
