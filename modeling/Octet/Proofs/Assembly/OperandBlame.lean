import Octet.Proofs.Assembly.InstructionLine
import Octet.Proofs.Assembly.Survival

/-! # What the operand check blames on whom

An instruction stays without an error only at the beginning of its line and before its operands. Any
other token that the check finds fault with stands behind an instruction on its line, as an operand
of the wrong kind or as the first token too many, and the instruction has the same error.
-/

namespace Octet

open Token Operands

namespace Operands

/-- What an instruction blames on the token with `gap` tokens between the two. -/
inductive Blames (op : Opcode) (gap : Nat) (t : Token) : CompileError → Prop
  | operand {expected : OperandKind} (h : op.operands[gap]? = some expected)
    (he : t.isErrored = false) (hk : expected.accepts t.kind = false) :
    Blames op gap t (.wrongArgumentType op (gap + 1) expected t.kind)
  | surplus (h : gap = op.operands.length) : Blames op gap t (.excessArgument op t.text)

/-- Among the tokens of a line an instruction has the error and blames it on the token `t` at `i`. -/
def Blamed (tokens : List Token) (i : Nat) (t : Token) (e : CompileError) : Prop :=
  ∃ j gap s op, i = j + 1 + gap ∧ tokens[j]? = some s ∧ s.kind = .instruction ∧
    Opcode.ofMnemonic? s.text = some op ∧ e ∈ s.errors ∧ Blames op gap t e

theorem Blamed.append_left {tokens : List Token} {i : Nat} {t : Token} {e : CompileError}
    (h : Blamed tokens i t e) (front : List Token) :
    Blamed (front ++ tokens) (front.length + i) t e := by
  obtain ⟨j, gap, s, op, rfl, hs, hk, ho, he, hb⟩ := h
  refine ⟨front.length + j, gap, s, op, by omega, ?_, hk, ho, he, hb⟩
  rw [List.getElem?_append_right (Nat.le_add_right _ _), Nat.add_sub_cancel_left, hs]

/-- What the check makes of a token that is no instruction: it adds at most one error, and that one
is blamed on it. -/
def Sound (tokens : List Token) (i : Nat) (t t' : Token) : Prop :=
  t' = t ∨ ∃ e, t' = t.error e ∧ Blamed tokens i t e

theorem Sound.append_left {tokens : List Token} {i : Nat} {t t' : Token} (h : Sound tokens i t t')
    (front : List Token) : Sound (front ++ tokens) (front.length + i) t t' :=
  h.imp_right fun ⟨e, ht, hb⟩ => ⟨e, ht, hb.append_left front⟩

theorem Sound.eq_of_zero {tokens : List Token} {t t' : Token} (h : Sound tokens 0 t t') : t' = t := by
  rcases h with h | ⟨_, _, j, gap, _, _, hj, _⟩
  · exact h
  · omega

theorem conclude_cons (op : Opcode) (t : Token) (e : CompileError) (es : List CompileError) :
    conclude op t (e :: es) = t.annotate ((e :: es).map .error) :=
  foldl_error t (e :: es)

theorem samePiece_conclude (op : Opcode) (t : Token) (es : List CompileError) :
    SamePiece t (conclude op t es) := by
  cases es with
  | nil => exact ⟨rfl, rfl, rfl⟩
  | cons e es =>
    rw [conclude_cons]
    exact ⟨rfl, rfl, rfl⟩

theorem mem_errors_conclude {op : Opcode} {t : Token} {es : List CompileError} {e : CompileError}
    (h : e ∈ es) : e ∈ (conclude op t es).errors := by
  cases es with
  | nil => cases h
  | cons f es =>
    rw [conclude_cons]
    exact List.mem_filterMap.2 ⟨.error e, List.mem_append_right _ (List.mem_map_of_mem h), rfl⟩

theorem mark_cases (op : Opcode) (position : Nat) (expected : OperandKind) (t : Token) :
    (t.isErrored = true ∨ expected.accepts t.kind = true) ∧ mark op position expected t = t ∨
      t.isErrored = false ∧ expected.accepts t.kind = false ∧
      mark op position expected t = t.error (.wrongArgumentType op position expected t.kind) ∧
      fault? op position expected t = some (.wrongArgumentType op position expected t.kind) := by
  cases he : t.isErrored <;> cases ha : expected.accepts t.kind <;> simp [mark, fault?, he, ha]

theorem getElem?_take {op : Opcode} {given : Nat} {kinds : List OperandKind} {ts : List Token}
    {k : Nat} {t : Token} (h : ts[k]? = some t) (hk : k < (take op given kinds ts).2.1.length) :
    ∃ expected, kinds[k]? = some expected ∧
      (take op given kinds ts).2.1[k]? = some (mark op (given + k + 1) expected t) ∧
      ∀ e ∈ fault? op (given + k + 1) expected t, e ∈ (take op given kinds ts).1 := by
  induction kinds generalizing given ts k with
  | nil => simp [take] at hk
  | cons expected kinds ih =>
    cases ts with
    | nil => cases h
    | cons s ts =>
      cases k with
      | zero =>
        cases h
        exact ⟨expected, rfl, rfl, fun e he => List.mem_append_left _ (Option.mem_toList.2 he)⟩
      | succ k =>
        have h : ts[k]? = some t := h
        have hk : k < (take op (given + 1) kinds ts).2.1.length := Nat.lt_of_succ_lt_succ hk
        obtain ⟨expected', hkind, hmark, hfault⟩ := ih h hk
        rw [show given + 1 + k = given + (k + 1) by omega] at hmark hfault
        exact ⟨expected', hkind, hmark, fun e he => List.mem_append_right _ (hfault e he)⟩

/-- If tokens are left behind the operands, then no operand is missing. -/
theorem length_take_operands {op : Opcode} {given : Nat} {kinds : List OperandKind}
    {ts : List Token} (h : (take op given kinds ts).2.2 ≠ []) :
    (take op given kinds ts).2.1.length = kinds.length := by
  induction kinds generalizing given ts with
  | nil => rfl
  | cons expected kinds ih =>
    cases ts with
    | nil => simp [take] at h
    | cons t ts =>
      have hrest : (take op (given + 1) kinds ts).2.2 ≠ [] := h
      exact congrArg (· + 1) (ih hrest)

theorem getElem?_take_rest (op : Opcode) (given : Nat) (kinds : List OperandKind) (ts : List Token)
    (m : Nat) :
    (take op given kinds ts).2.2[m]? = ts[(take op given kinds ts).2.1.length + m]? := by
  obtain ⟨front, hts, hf⟩ := forall₂_take op given kinds ts
  calc (take op given kinds ts).2.2[m]?
      = (front ++ (take op given kinds ts).2.2)[front.length + m]? := by
        rw [List.getElem?_append_right (Nat.le_add_right _ _), Nat.add_sub_cancel_left]
    _ = ts[(take op given kinds ts).2.1.length + m]? := by rw [← hts, hf.length_eq]

theorem getElem?_excess (op : Opcode) {ts : List Token} {m : Nat} {t : Token}
    (h : ts[m]? = some t) :
    m = 0 ∧ (excess op ts).2[m]? = some (t.error (.excessArgument op t.text)) ∧
        .excessArgument op t.text ∈ (excess op ts).1 ∨
      m ≠ 0 ∧ (excess op ts).2[m]? = some t := by
  cases ts with
  | nil => cases h
  | cons s ts =>
    cases m with
    | zero =>
      cases h
      exact Or.inl ⟨rfl, rfl, List.mem_singleton_self _⟩
    | succ m => exact Or.inr ⟨Nat.succ_ne_zero m, h⟩

theorem blamed_on_head {op : Opcode} {s : Token} {es : List CompileError} {after : List Token}
    (hs : s.kind = .instruction) (hop : Opcode.ofMnemonic? s.text = some op) {k : Nat} {t : Token}
    {e : CompileError} (he : e ∈ es) (hb : Blames op k t e) :
    Blamed (conclude op s es :: after) (k + 1) t e := by
  have hsame := samePiece_conclude op s es
  exact ⟨0, k, conclude op s es, op, by omega, rfl, hsame.kind.trans hs,
    (congrArg _ hsame.text).trans hop, mem_errors_conclude he, hb⟩

/-- What an instruction does to the tokens behind it is sound if what comes later, `after`, does no
more than is sound to the tokens that it leaves. -/
theorem sound_behind {op : Opcode} {s : Token} {ts operands rest left after tokens : List Token}
    {start faults surplus : List CompileError} (hs : s.kind = .instruction)
    (hop : Opcode.ofMnemonic? s.text = some op)
    (htake : take op 0 op.operands ts = (faults, operands, rest))
    (hexcess : excess op rest = (surplus, left))
    (hafter : ∀ {i t}, left[i]? = some t → t.kind ≠ .instruction →
      ∃ t', after[i]? = some t' ∧ Sound after i t t')
    (htokens : tokens = conclude op s (start ++ faults ++ surplus) :: (operands ++ after))
    {k : Nat} {t : Token} (h : ts[k]? = some t) (hk : t.kind ≠ .instruction) :
    ∃ t', tokens[k + 1]? = some t' ∧ Sound tokens (k + 1) t t' := by
  by_cases hlt : k < operands.length
  · have hgiven : k < (take op 0 op.operands ts).2.1.length := by rwa [htake]
    obtain ⟨expected, hkind, hmark, hfault⟩ := getElem?_take h hgiven
    rw [htake, Nat.zero_add] at hmark hfault
    subst htokens
    refine ⟨mark op (k + 1) expected t, ?_, ?_⟩
    · rw [List.getElem?_cons_succ, List.getElem?_append_left hlt, hmark]
    · rcases mark_cases op (k + 1) expected t with ⟨-, hm⟩ | ⟨he, ha, hm, hq⟩
      · exact Or.inl hm
      · refine Or.inr ⟨_, hm, blamed_on_head hs hop ?_ (.operand hkind he ha)⟩
        exact List.mem_append_left _ (List.mem_append_right _ (hfault _ hq))
  · obtain ⟨m, rfl⟩ := Nat.exists_eq_add_of_le (Nat.le_of_not_lt hlt)
    have hrest : rest[m]? = some t := by
      have hget := getElem?_take_rest op 0 op.operands ts m
      rw [htake] at hget
      exact hget.trans h
    have hget : tokens[operands.length + m + 1]? = after[m]? := by
      rw [htokens, List.getElem?_cons_succ, List.getElem?_append_right (Nat.le_add_right _ _),
        Nat.add_sub_cancel_left]
    rw [hget]
    have hsurplus := getElem?_excess op hrest
    rw [hexcess] at hsurplus
    rcases hsurplus with ⟨rfl, hleft, hmem⟩ | ⟨-, hleft⟩
    · have hne : (take op 0 op.operands ts).2.2 ≠ [] := by
        rw [htake]
        exact List.ne_nil_of_mem (List.mem_of_getElem? hrest)
      have hall : operands.length = op.operands.length := by
        rw [← length_take_operands hne, htake]
      obtain ⟨t', ht', hsound⟩ := hafter hleft hk
      rw [hsound.eq_of_zero] at ht'
      subst htokens
      refine ⟨_, ht', Or.inr ⟨_, rfl, blamed_on_head hs hop ?_ (.surplus hall)⟩⟩
      exact List.mem_append_right _ hmem
    · obtain ⟨t', ht', hsound⟩ := hafter hleft hk
      have hshift := hsound.append_left (conclude op s (start ++ faults ++ surplus) :: operands)
      rw [List.cons_append, ← htokens, List.length_cons, Nat.add_right_comm] at hshift
      exact ⟨t', ht', hshift⟩

theorem sound_checkLine {isFirst : Bool} {ts : List Token} {i : Nat} {t : Token}
    (h : ts[i]? = some t) (hk : t.kind ≠ .instruction) :
    ∃ t', (checkLine isFirst ts)[i]? = some t' ∧ Sound (checkLine isFirst ts) i t t' := by
  fun_induction checkLine isFirst ts generalizing i t
  case case1 => cases h
  case case2 isFirst s ts hp ih =>
    cases i with
    | zero =>
      cases h
      exact ⟨s, rfl, Or.inl rfl⟩
    | succ i =>
      obtain ⟨t', ht', hs⟩ := ih h hk
      exact ⟨t', ht', by simpa [Nat.add_comm] using hs.append_left [s]⟩
  case case3 isFirst s ts hp hop ih =>
    cases i with
    | zero =>
      cases h
      simp [hk] at hp
    | succ i =>
      obtain ⟨t', ht', hs⟩ := ih h hk
      exact ⟨t', ht', by simpa [Nat.add_comm] using hs.append_left [s.error _]⟩
  case case4 isFirst s ts hp op hop start taken left ih =>
    have hs : s.kind = .instruction := by
      simp only [Bool.or_eq_true, bne_iff_ne, not_or, not_not] at hp
      exact hp.1
    cases i with
    | zero =>
      cases h
      exact absurd hs hk
    | succ k => exact sound_behind hs hop rfl rfl ih rfl h hk

/-- An instruction among the operands of another is errored. -/
theorem isErrored_of_mem_take {op : Opcode} {given : Nat} {kinds : List OperandKind}
    {ts : List Token} {t : Token} (h : t ∈ (take op given kinds ts).2.1)
    (hk : t.kind = .instruction) : t.isErrored = true := by
  induction kinds generalizing given ts with
  | nil => cases h
  | cons expected kinds ih =>
    cases ts with
    | nil => cases h
    | cons s ts =>
      rcases List.mem_cons.1 h with rfl | h
      · rcases mark_cases op (given + 1) expected s with ⟨he | ha, hm⟩ | ⟨-, -, hm, -⟩
        · rw [hm, he]
        · rw [hm] at hk
          exact absurd hk (not_instruction_of_accepts ha)
        · rw [hm, isErrored_error]
      · exact ih h

/-- Away from the beginning of a line every instruction is errored. -/
theorem isErrored_of_mem_checkLine {isFirst : Bool} {ts : List Token} {t : Token}
    (h : t ∈ (checkLine isFirst ts).drop isFirst.toNat) (hk : t.kind = .instruction) :
    t.isErrored = true := by
  fun_induction checkLine isFirst ts generalizing t
  case case1 => simp at h
  case case2 isFirst s ts hp ih =>
    rcases List.mem_cons.1 (List.mem_of_mem_drop h) with rfl | h
    · simpa [hk] using hp
    · exact ih h hk
  case case3 isFirst s ts hp hop ih =>
    rcases List.mem_cons.1 (List.mem_of_mem_drop h) with rfl | h
    · exact isErrored_error s _
    · exact ih h hk
  case case4 isFirst s ts hp op hop start taken left ih =>
    have hbehind : ∀ u ∈ taken.2.1 ++ checkLine false left.2, u.kind = .instruction →
        u.isErrored = true := by
      intro u hu hk
      rcases List.mem_append.1 hu with hu | hu
      · exact isErrored_of_mem_take hu hk
      · exact ih hu hk
    cases isFirst with
    | true => exact hbehind t h hk
    | false =>
      rcases List.mem_cons.1 h with rfl | h
      · simp [isErrored_conclude, start]
      · exact hbehind t h hk

/-- An instruction without an error at the beginning of a line has its operands behind it, and
nothing else. -/
theorem takes_of_checkLine {t t' : Token} {ts ts' : List Token}
    (h : checkLine true (t :: ts) = t' :: ts') (hk : t'.kind = .instruction)
    (he : t'.isErrored = false) : ∃ op, Takes op t ts ∧ t.isErrored = false ∧ Clean ts := by
  rw [checkLine] at h
  split at h
  · next hp =>
    obtain ⟨rfl, -⟩ := List.cons.inj h
    simp [hk, he] at hp
  · next hp =>
    simp only [Bool.or_eq_true, bne_iff_ne, not_or, not_not, Bool.not_eq_true] at hp
    split at h
    · obtain ⟨rfl, -⟩ := List.cons.inj h
      simp at he
    · next op hop =>
      obtain ⟨rfl, -⟩ := List.cons.inj h
      simp only [isErrored_conclude, ↓reduceIte, List.nil_append, Bool.or_eq_false_iff,
        Bool.not_eq_false', List.isEmpty_iff, List.append_eq_nil_iff] at he
      obtain ⟨hc, ha⟩ := accepts_of_take_excess he.2.1 he.2.2
      exact ⟨op, ⟨hp.1, hop, ha⟩, hp.2, hc⟩

/-- An instruction without an error begins its line, which holds its operands and nothing else, and
all that the check adds is the note that it has them. -/
theorem exists_takes_of_unerrored {line : List Token} {i : Nat} {t' : Token}
    (h : (checkLine true line)[i]? = some t') (hk : t'.kind = .instruction)
    (he : t'.isErrored = false) :
    ∃ op t operands, i = 0 ∧ line = t :: operands ∧ Takes op t operands ∧ Clean operands ∧
      t' = t.note (.operandsSatisfied op) ∧ checkLine true line = t' :: operands := by
  cases hline : checkLine true line with
  | nil => simp [hline] at h
  | cons u us =>
    rw [hline] at h
    cases i with
    | succ i =>
      have hmem : t' ∈ (checkLine true line).drop true.toNat := by
        rw [hline]
        exact List.mem_of_getElem? h
      rw [isErrored_of_mem_checkLine hmem hk] at he
      cases he
    | zero =>
      cases h
      cases line with
      | nil => simp [checkLine] at hline
      | cons t operands =>
        obtain ⟨op, htakes, ht, hc⟩ := takes_of_checkLine hline hk he
        rw [checkLine_of_takes htakes ht hc] at hline
        obtain ⟨rfl, rfl⟩ := List.cons.inj hline
        exact ⟨op, t, operands, rfl, rfl, htakes, hc, rfl, rfl⟩

theorem unerrored_iff_takes {line : List Token}
    (hline : ∀ t ∈ line, t.kind = .instruction → t.isErrored = false) {i : Nat} {t' : Token}
    (h : (checkLine true line)[i]? = some t') (hk : t'.kind = .instruction) :
    t'.isErrored = false ↔ i = 0 ∧
      ∃ op, Takes op t' (checkLine true line).tail ∧ Clean (checkLine true line).tail := by
  constructor
  · intro he
    obtain ⟨op, t, operands, rfl, rfl, htakes, hc, rfl, hcheck⟩ := exists_takes_of_unerrored h hk he
    rw [hcheck]
    exact ⟨rfl, op, ⟨htakes.kind, htakes.known, htakes.accepts⟩, hc⟩
  · rintro ⟨rfl, op, htakes, hc⟩
    cases line with
    | nil => simp [checkLine] at h
    | cons t ts =>
      obtain ⟨u, us, hu, hus, hcheck⟩ :=
        List.forall₂_cons_left_iff.1 (forall₂_checkLine true (t :: ts))
      rw [hcheck] at h htakes hc
      cases h
      have htakes : Takes op t ts := htakes.of_samePiece hu.annotated.samePiece.symm
        (hus.flip.imp fun _ _ h => h.annotated.samePiece.symm)
      have hc : Clean ts := by
        intro s hs
        obtain ⟨s', hs', h⟩ := exists_of_mem_left hus hs
        exact h.annotated.continues.isErrored_eq_false (hc s' hs')
      rw [checkLine_of_takes htakes (hline t (by simp) htakes.kind) hc] at hcheck
      obtain ⟨rfl, -⟩ := List.cons.inj hcheck
      rw [isErrored_note, hline t (by simp) htakes.kind]

end Operands

end Octet
