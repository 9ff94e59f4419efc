import Octet.Proofs.Assembly.Survival

/-! # The walk of the cursor

Where the cursor stands when it reaches a token, and what it leaves of it. The counter never goes
back, and it moves on by one wherever a token takes up room, so that no address is given twice,
whatever errors there are; and a counter that has left the address space does not come back to it.
-/

namespace Octet

open Token

structure Visit where
  cursor : Cursor
  token : Token
deriving DecidableEq, Repr

namespace Visit

/-- What the cursor leaves of the token, nothing if it carries out a directive. -/
def left? (v : Visit) : Option Token := (v.cursor.place v.token).1

def next (v : Visit) : Cursor := (v.cursor.place v.token).2

def address? (v : Visit) : Option Address := v.left?.bind (·.address)

/-- The events that the token gains. -/
def gained (v : Visit) : List Event :=
  match v.left? with
  | some t => t.events.drop v.token.events.length
  | none => []

/-- Every token takes up room except a label that comes without an error and a directive that is
carried out. -/
def TakesRoom (v : Visit) : Prop :=
  v.left?.isSome = true ∧ (v.token.kind = .label → v.token.isErrored = true)

/-- The token is a label and goes on without an error. -/
def IsBound (v : Visit) : Prop :=
  ∃ t, v.left? = some t ∧ t.kind = .label ∧ t.isErrored = false

variable {v : Visit}

theorem eq_of_place {t : Option Token} {c : Cursor} (h : v.cursor.place v.token = (t, c)) :
    v.left? = t ∧ v.next = c := by
  simp [left?, next, h]

theorem events_of_left? {t : Token} (h : v.left? = some t) :
    t.events = v.token.events ++ v.gained := by
  have hr : Remnant v.token (some t).toList := h ▸ v.cursor.remnant_place v.token
  cases hr with
  | kept hc =>
    obtain ⟨es, hes⟩ := hc.events
    simp only [gained, h]
    rw [← hes, List.drop_left]

theorem le_next (v : Visit) : v.cursor.counter ≤ v.next.counter := by
  rcases placing v.cursor v.token with ⟨_, h⟩ | ⟨_, _, _, _, _, _, h⟩ | ⟨_, _, _, _, _, h⟩ |
    ⟨_, _, _, h⟩ | ⟨_, _, _, hd, h⟩ | ⟨_, _, _, _, h⟩ | ⟨_, _, _, _, _, h⟩ | ⟨_, _, _, _, h⟩
  all_goals simp only [(eq_of_place h).2, Cursor.advance, Nat.le_refl, Nat.le_add_right]
  exact Directive.le_of_target hd

theorem next_le (v : Visit) : v.next.counter ≤ max v.cursor.counter 65535 + 1 := by
  rcases placing v.cursor v.token with ⟨_, h⟩ | ⟨_, _, _, _, _, _, h⟩ | ⟨_, _, _, _, _, h⟩ |
    ⟨_, _, _, h⟩ | ⟨a, _, _, _, h⟩ | ⟨_, _, _, _, h⟩ | ⟨_, _, _, _, _, h⟩ | ⟨_, _, _, _, h⟩
  all_goals simp only [(eq_of_place h).2, Cursor.advance]
  case applied =>
    have := a.toNat_lt
    omega
  all_goals omega

theorem next_of_takesRoom (hv : v.TakesRoom) : v.next.counter = v.cursor.counter + 1 := by
  have hlabel : v.token.kind = .label → v.token.isErrored = false → False := by
    intro hk he
    rw [hv.2 hk] at he
    cases he
  rcases placing v.cursor v.token with ⟨_, h⟩ | ⟨_, _, he, hk, _, _, _⟩ | ⟨_, he, hk, _, _, _⟩ |
    ⟨he, hk, _, _⟩ | ⟨_, _, _, _, h⟩ | ⟨_, _, _, _, h⟩ | ⟨_, _, _, _, _, h⟩ | ⟨_, _, _, _, h⟩
  case bound | rebound | unbound => exact (hlabel hk he).elim
  case applied =>
    have hleft := hv.1
    rw [(eq_of_place h).1] at hleft
    cases hleft
  all_goals simp only [(eq_of_place h).2, Cursor.advance]

/-- The only address that a token gets is that of the counter, and it does not get it only if it is
a second definition of a label or a directive that is carried out. -/
theorem address?_eq (hn : v.token.address = none) :
    v.address? = Directive.address? v.cursor.counter ∨
      (v.address? = none ∧ ¬ v.TakesRoom ∧ ¬ v.IsBound) := by
  rcases placing v.cursor v.token with ⟨_, h⟩ | ⟨a, _, _, _, ha, _, h⟩ | ⟨_, he, hk, _, _, h⟩ |
    ⟨_, _, hc, h⟩ | ⟨_, _, _, _, h⟩ | ⟨_, _, _, _, h⟩ | ⟨a, _, _, _, ha, h⟩ | ⟨_, _, _, hc, h⟩
  all_goals have hleft := (eq_of_place h).1
  case errored | refused => exact .inl (by simp [address?, hleft, Cursor.skip])
  case bound | located => exact .inl (by simp [address?, hleft, ha, note, record])
  case unbound | beyond =>
    refine .inl ?_
    simp [address?, hleft, Directive.address?_eq_none_iff.2 hc, error, record, hn]
  case rebound =>
    refine .inr ⟨by simp [address?, hleft, error, record, hn], fun hr => ?_, ?_⟩
    · rw [hr.2 hk] at he
      cases he
    · rintro ⟨t, ht, -, hte⟩
      obtain rfl := Option.some.inj (hleft.symm.trans ht)
      rw [isErrored_error] at hte
      cases hte
  case applied =>
    refine .inr ⟨by simp [address?, hleft], fun hr => ?_, ?_⟩
    · simp [TakesRoom, hleft] at hr
    · rintro ⟨t, ht, -⟩
      simp [hleft] at ht

theorem toNat_of_address? (hn : v.token.address = none) {a : Address} (ha : v.address? = some a) :
    a.toNat = v.cursor.counter := by
  rcases address?_eq hn with h | ⟨h, -⟩
  · exact Directive.toNat_of_address? (h.symm.trans ha)
  · rw [h] at ha
    cases ha

theorem address?_of_takesRoom (hn : v.token.address = none) (hv : v.TakesRoom) :
    v.address? = Directive.address? v.cursor.counter :=
  (address?_eq hn).resolve_right fun h => h.2.1 hv

theorem lt_of_isBound (hv : v.IsBound) : v.cursor.counter < 65536 := by
  obtain ⟨t, ht, hk, he⟩ := hv
  rcases placing v.cursor v.token with ⟨he', h⟩ | ⟨a, _, _, _, ha, _, h⟩ | ⟨_, _, _, hc, _, h⟩ |
    ⟨_, _, _, h⟩ | ⟨_, _, _, _, h⟩ | ⟨_, _, _, _, h⟩ | ⟨a, _, hl, _, _, h⟩ | ⟨_, _, _, _, h⟩
  all_goals
    rw [(eq_of_place h).1] at ht
    cases ht
  case bound => exact (Directive.address?_eq_some_iff.1 ha).1
  case rebound => exact hc
  case located => exact absurd hk hl
  case errored =>
    have : v.token.isErrored = false := he
    rw [he'] at this
    cases this
  case unbound | beyond =>
    rw [isErrored_error] at he
    cases he
  case refused e _ _ _ =>
    have : (v.token.error e).isErrored = false := he
    rw [isErrored_error] at this
    cases this

theorem exists_address_of_isBound (hn : v.token.address = none) (hv : v.IsBound) :
    ∃ a, v.address? = some a := by
  have ha := (address?_eq hn).resolve_right fun h => h.2.2 hv
  exact ⟨_, ha.trans (Directive.address?_of_lt (lt_of_isBound hv))⟩

theorem gained_of_left? {t : Token} {es : List Event} (h : v.left? = some t)
    (ht : t.events = v.token.events ++ es) : v.gained = es := by
  simp only [gained, h, ht, List.drop_left]

/-- The tokens that are out of range are those that come without an error behind the last address,
directives apart. -/
theorem mem_gained_iff (n : Nat) : .error (.addressOutOfRange n) ∈ v.gained ↔
    n = v.cursor.counter ∧ v.token.isErrored = false ∧ v.token.kind ≠ .directive ∧
      65535 < v.cursor.counter := by
  have hin : ∀ {a : Address}, Directive.address? v.cursor.counter = some a →
      ¬ 65535 < v.cursor.counter := by
    intro a ha
    have := (Directive.address?_eq_some_iff.1 ha).1
    omega
  have hnothing : v.token.events = v.token.events ++ [] := (List.append_nil _).symm
  rcases placing v.cursor v.token with ⟨he, h⟩ | ⟨a, _, _, _, ha, _, h⟩ | ⟨_, he, hk, hc, _, h⟩ |
    ⟨he, hk, hc, h⟩ | ⟨_, _, hk, _, h⟩ | ⟨e, _, hk, hd, h⟩ | ⟨a, _, _, _, ha, h⟩ | ⟨he, _, hk, hc, h⟩
  all_goals have hleft := (eq_of_place h).1
  case errored => simp [gained_of_left? hleft hnothing, he]
  case bound => simp [gained_of_left? hleft rfl, hin ha]
  case rebound => simp [gained_of_left? hleft rfl, Nat.not_lt.2 (Nat.le_of_lt_succ hc)]
  case unbound => simp [gained_of_left? hleft rfl, he, hk, Nat.lt_of_succ_le hc]
  case applied => simp [gained, hleft, hk]
  case refused =>
    have hne : ∀ m, CompileError.addressOutOfRange m ≠ e := by
      rintro m rfl
      simp only [Directive.target, Directive.destination] at hd
      repeat' split at hd
      all_goals cases hd
    simp [gained_of_left? hleft rfl, hk, hne]
  case located => simp [gained_of_left? hleft hnothing, hin ha]
  case beyond => simp [gained_of_left? hleft rfl, he, hk, Nat.lt_of_succ_le hc]

end Visit

namespace Cursor

/-- The walk of the cursor along the tokens. -/
def visits (c : Cursor) : List Token → List Visit
  | [] => []
  | t :: ts => ⟨c, t⟩ :: visits (c.place t).2 ts

theorem map_token_visits (c : Cursor) (ts : List Token) : (c.visits ts).map (·.token) = ts := by
  induction ts generalizing c with
  | nil => rfl
  | cons t ts ih => rw [visits, List.map_cons, ih]

theorem filterMap_left?_visits (c : Cursor) (ts : List Token) :
    (c.visits ts).filterMap (·.left?) = (c.placeAll ts).1 := by
  induction ts generalizing c with
  | nil => rfl
  | cons t ts ih =>
    rw [visits, placeAll_cons, ← ih, List.filterMap_cons]
    cases h : (c.place t).1 <;> simp [Visit.left?, h]

theorem visits_append (c : Cursor) (ss ts : List Token) :
    c.visits (ss ++ ts) = c.visits ss ++ (c.placeAll ss).2.visits ts := by
  induction ss generalizing c with
  | nil => rfl
  | cons s ss ih => rw [List.cons_append, visits, ih, visits, placeAll_cons, List.cons_append]

variable {c : Cursor} {ts : List Token} {v : Visit}

theorem le_of_mem_visits (h : v ∈ c.visits ts) : c.counter ≤ v.cursor.counter := by
  induction ts generalizing c with
  | nil => cases h
  | cons t ts ih =>
    rcases List.mem_cons.1 h with rfl | h
    · exact Nat.le_refl _
    · exact Nat.le_trans (Visit.le_next ⟨c, t⟩) (ih h)

/-- The counter never goes back. -/
theorem pairwise_visits (c : Cursor) (ts : List Token) :
    (c.visits ts).Pairwise fun v w => v.next.counter ≤ w.cursor.counter := by
  induction ts generalizing c with
  | nil => exact .nil
  | cons t ts ih => exact List.pairwise_cons.2 ⟨fun w hw => le_of_mem_visits hw, ih _⟩

theorem next_le_of_mem_visits (h : v ∈ c.visits ts) :
    v.next.counter ≤ max c.counter 65535 + ts.length := by
  induction ts generalizing c with
  | nil => cases h
  | cons t ts ih =>
    have hstep : (c.place t).2.counter ≤ max c.counter 65535 + 1 := Visit.next_le ⟨c, t⟩
    rw [List.length_cons]
    rcases List.mem_cons.1 h with rfl | h
    · exact Nat.le_trans hstep (by omega)
    · have := ih h
      omega

end Cursor

/-- How the addresses of two tokens compare of which the first stands before the second. -/
structure Visit.Before (v w : Visit) : Prop where
  increasing : v.TakesRoom → w.TakesRoom →
    ∀ a b, v.address? = some a → w.address? = some b → a < b
  exhausted : v.TakesRoom → v.address? = none → w.address? = none
  label_behind : v.TakesRoom → w.IsBound →
    ∃ a b, v.address? = some a ∧ w.address? = some b ∧ a < b
  label_ahead : v.IsBound → w.TakesRoom →
    ∃ a, v.address? = some a ∧ ∀ b, w.address? = some b → a ≤ b

/-- So they compare where the counter has not gone back in between. -/
theorem Visit.before_of_le {v w : Visit} (hv : v.token.address = none) (hw : w.token.address = none)
    (h : v.next.counter ≤ w.cursor.counter) : v.Before w := by
  refine ⟨fun hroom _ a b ha hb => ?_, fun hroom ha => ?_, fun hroom hlabel => ?_,
    fun hlabel _ => ?_⟩
  · have hnext := next_of_takesRoom hroom
    rw [UInt16.lt_iff_toNat_lt, toNat_of_address? hv ha, toNat_of_address? hw hb]
    omega
  · have hnext := next_of_takesRoom hroom
    rw [address?_of_takesRoom hv hroom, Directive.address?_eq_none_iff] at ha
    rw [Option.eq_none_iff_forall_ne_some]
    intro b hb
    have hb := toNat_of_address? hw hb
    have := b.toNat_lt
    omega
  · have hnext := next_of_takesRoom hroom
    have hlt := lt_of_isBound hlabel
    obtain ⟨b, hb⟩ := exists_address_of_isBound hw hlabel
    have ha := (address?_of_takesRoom hv hroom).trans (Directive.address?_of_lt (by omega))
    refine ⟨_, b, ha, hb, ?_⟩
    rw [UInt16.lt_iff_toNat_lt, toNat_of_address? hv ha, toNat_of_address? hw hb]
    omega
  · have hnext := v.le_next
    obtain ⟨a, ha⟩ := exists_address_of_isBound hv hlabel
    refine ⟨a, ha, fun b hb => ?_⟩
    rw [UInt16.le_iff_toNat_le, toNat_of_address? hv ha, toNat_of_address? hw hb]
    omega

/-- A layout of tokens without addresses gives no address twice, whether or not there are errors: the
tokens that take up room get those of the counter, which increase, until one of them is behind the
last address, and from there on nothing gets one. A label without an error stands behind all that
takes up room before it and not behind what does so after it. Out of range are the tokens, without an
error before and directives apart, at which the counter has passed the last address; it stays low
enough for thirty-two bits. -/
theorem addresses_of_layout (ts : List Token) (h : ∀ t ∈ ts, t.address = none) :
    let visits := Cursor.start.visits ts
    visits.map (·.token) = ts ∧ visits.filterMap (·.left?) = (layout ts).1 ∧
    (∀ v ∈ visits, v.TakesRoom → v.address? = Directive.address? v.cursor.counter) ∧
    visits.Pairwise Visit.Before ∧
    (∀ v ∈ visits, v.IsBound → v.address?.isSome = true) ∧
    (∀ v ∈ visits, ∀ n, .error (.addressOutOfRange n) ∈ v.gained ↔
      n = v.cursor.counter ∧ v.token.isErrored = false ∧ v.token.kind ≠ .directive ∧
        65535 < v.cursor.counter) ∧
    (∀ v ∈ visits, ∀ t, v.left? = some t → t.events = v.token.events ++ v.gained) ∧
    ∀ v ∈ visits, v.next.counter ≤ 65535 + ts.length := by
  intro visits
  have hmap := Cursor.start.map_token_visits ts
  have hn : ∀ v ∈ visits, v.token.address = none := by
    intro v hv
    refine h v.token ?_
    rw [← hmap]
    exact List.mem_map_of_mem hv
  refine ⟨hmap, Cursor.start.filterMap_left?_visits ts, ?_, ?_, ?_, ?_, ?_, ?_⟩
  · exact fun v hv hroom => Visit.address?_of_takesRoom (hn v hv) hroom
  · refine (Cursor.start.pairwise_visits ts).imp_of_mem ?_
    intro v w hv hw hle
    exact Visit.before_of_le (hn v hv) (hn w hw) hle
  · intro v hv hlabel
    exact Option.isSome_iff_exists.2 (Visit.exists_address_of_isBound (hn v hv) hlabel)
  · exact fun v _ n => Visit.mem_gained_iff n
  · exact fun v _ t ht => Visit.events_of_left? ht
  · intro v hv
    have hle := Cursor.next_le_of_mem_visits hv
    simpa [Cursor.start] using hle

/-- An error, labels on either side of a directive, and tokens behind the last address. -/
theorem addresses_of_layout_overflow :
    let ts := checked "%\na:\n#SKIPTO 65535\nb:\nNOP\nHLT\nc:\n#SKIPTO 7\n5".toList
    (∀ t ∈ ts, t.address = none) ∧ (Cursor.start.visits ts).Pairwise Visit.Before ∧
      (layout ts).1.map (·.address.map (·.toNat)) =
        [some 0, some 1, some 65535, some 65535, none, none, none, none] := by
  intro ts
  have h : ∀ t ∈ ts, t.address = none := by decide +kernel
  have hall := addresses_of_layout ts h
  exact ⟨h, hall.2.2.2.1, by decide +kernel⟩

end Octet
