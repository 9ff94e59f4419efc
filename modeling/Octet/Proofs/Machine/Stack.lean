import Octet.Proofs.Machine.Instruction

/-! # The stack

The bytes that a program pushes and pops are told by its registers before and behind a clock. Each
popped byte is paired with the latest pushed byte that is still unmatched. As long as no more than a
page of bytes is outstanding these lie in cells of their own, one above the other from the stack
pointer on, wherever in the page it stands; so what is popped is what was pushed.
-/

namespace Octet

/-- A byte on the stack with the stack pointer that belongs to it, before a push or behind a pop. -/
structure StackByte where
  pointer : Byte
  byte : Byte
deriving DecidableEq, Repr

def StackByte.address (x : StackByte) : Address := Effect.stackPage + x.pointer.toUInt16

theorem StackByte.address_inj {x y : StackByte} : x.address = y.address ↔ x.pointer = y.pointer := by
  constructor
  · intro h
    have hx := x.pointer.toNat_lt
    have hy := y.pointer.toNat_lt
    have hnat := congrArg UInt16.toNat h
    simp only [address, Effect.stackPage, UInt16.toNat_add, UInt8.toNat_toUInt16,
      UInt16.reduceToNat] at hnat
    exact UInt8.toNat_inj.1 (by omega)
  · intro h
    rw [address, h, ← address]

namespace Memory

def put (mem : Memory) (x : StackByte) : Memory := mem.set x.address x.byte

theorem get_put {mem : Memory} (hw : mem.width = 16) (x : StackByte) (a : Address) :
    (mem.put x).get a = if a = x.address then x.byte else mem.get a := get_set hw ..

/-- The bytes stand above the stack pointer, one behind the other. -/
def Stacked (mem : Memory) (s : Byte) : List StackByte → Prop
  | [] => True
  | x :: xs => x.pointer = s + 1 ∧ mem.get x.address = x.byte ∧ mem.Stacked (s + 1) xs

theorem Stacked.getElem? {mem : Memory} {s : Byte} {xs : List StackByte} (h : mem.Stacked s xs)
    {i : Nat} {x : StackByte} (hx : xs[i]? = some x) :
    x.pointer.toNat = (s.toNat + 1 + i) % 256 ∧ mem.get x.address = x.byte := by
  induction xs generalizing s i with
  | nil => cases hx
  | cons y ys ih =>
    obtain ⟨hpointer, hbyte, hys⟩ := h
    have hs : (s + 1).toNat = (s.toNat + 1) % 256 := UInt8.toNat_add s 1
    cases i with
    | zero =>
      obtain rfl : y = x := by simpa using hx
      exact ⟨by rw [hpointer, hs, Nat.add_zero], hbyte⟩
    | succ i =>
      obtain ⟨hpointer', hbyte'⟩ := ih hys (by simpa using hx)
      exact ⟨by omega, hbyte'⟩

end Memory

namespace Machine

section

variable {δ : Type} [Device δ]

/-- The bytes that the next clock pushes, the last one first. A call pushes the address behind it. -/
def pushed (m : Machine δ) : List StackByte :=
  let rs := m.registers
  match m.instruction? with
  | some .psh => [⟨rs.s, rs.a⟩]
  | some .subr => [⟨rs.s - 1, lowByte (rs.p + 1)⟩, ⟨rs.s, highByte (rs.p + 1)⟩]
  | _ => []

/-- The bytes that the next clock pops, the first one first. A return makes an address of them. -/
def popped (m : Machine δ) : List StackByte :=
  let rs := m.clock.2.registers
  match m.instruction? with
  | some .pop => [⟨rs.s, rs.a⟩]
  | some .ret => [⟨rs.s - 1, lowByte rs.p⟩, ⟨rs.s, highByte rs.p⟩]
  | _ => []

def stored? (m : Machine δ) : Option Address :=
  if m.instruction? = some .sta then some m.registers.r else none

def afterClocks (m : Machine δ) : Nat → Machine δ
  | 0 => m
  | k + 1 => (m.afterClocks k).clock.2

/-- The pushed bytes that no pop has been paired with when a number of clocks has passed, the latest
first, each with the number of the clock that pushed it. A pop is paired with the first of them. -/
def outstanding (m : Machine δ) : Nat → List (Nat × StackByte)
  | 0 => []
  | k + 1 => (m.afterClocks k).pushed.map (k, ·) ++
    (m.outstanding k).drop (m.afterClocks k).popped.length

/-- Whether no store between the two clocks goes to the address. -/
def Undisturbed (m : Machine δ) (a : Address) (j k : Nat) : Prop :=
  ∀ i, j < i → i < k → (m.afterClocks i).stored? ≠ some a

theorem length_pushed_le (m : Machine δ) : m.pushed.length ≤ 2 := by
  unfold pushed
  split <;> simp

theorem lt_of_mem_outstanding {m : Machine δ} {k : Nat} {e : Nat × StackByte}
    (h : e ∈ m.outstanding k) : e.1 < k := by
  induction k with
  | zero => cases h
  | succ k ih =>
    rcases List.mem_append.1 h with h | h
    · obtain ⟨x, -, rfl⟩ := List.mem_map.1 h
      exact Nat.lt_succ_self k
    · exact Nat.lt_succ_of_lt (ih (List.mem_of_mem_drop h))

theorem sublist_pushed (m : Machine δ) (j k : Nat) :
    ((m.outstanding k).filter (·.1 == j)).Sublist ((m.afterClocks j).pushed.map (j, ·)) := by
  induction k with
  | zero => exact List.nil_sublist _
  | succ k ih =>
    rw [outstanding, List.filter_append]
    by_cases hjk : k = j
    · subst hjk
      have hrest : ((m.outstanding k).drop (m.afterClocks k).popped.length).filter
          (·.1 == k) = [] := by
        refine List.filter_eq_nil_iff.2 fun e he => ?_
        have hlt := lt_of_mem_outstanding (List.mem_of_mem_drop he)
        simpa using Nat.ne_of_lt hlt
      rw [hrest, List.append_nil]
      exact List.filter_sublist
    · have hnew : ((m.afterClocks k).pushed.map (k, ·)).filter (·.1 == j) = [] := by
        refine List.filter_eq_nil_iff.2 fun e he => ?_
        obtain ⟨x, -, rfl⟩ := List.mem_map.1 he
        simpa using hjk
      rw [hnew, List.nil_append]
      exact ((List.drop_sublist _ _).filter _).trans ih

/-- If the two latest bytes are of one clock, it pushed just these. -/
theorem pushed_of_outstanding {m : Machine δ} {j k : Nat} {x y : StackByte}
    {rest : List (Nat × StackByte)} (h : m.outstanding k = (j, x) :: (j, y) :: rest) :
    (m.afterClocks j).pushed = [x, y] := by
  have hsub := m.sublist_pushed j k
  simp only [h, List.filter_cons, beq_self_eq_true, ↓reduceIte] at hsub
  have hpair : [(j, x), (j, y)].Sublist ((m.afterClocks j).pushed.map (j, ·)) :=
    (((List.nil_sublist _).cons_cons _).cons_cons _).trans hsub
  have heq : [x, y].map (j, ·) = (m.afterClocks j).pushed.map (j, ·) :=
    hpair.eq_of_length_le (by simpa using (m.afterClocks j).length_pushed_le)
  have hinj : Function.Injective (Prod.mk j : StackByte → Nat × StackByte) :=
    fun _ _ h => congrArg Prod.snd h
  exact (List.map_injective_iff.2 hinj heq).symm

end

/-- What a clock with this memory before it and that one behind it does to the stack. -/
structure StackStep (m : Machine (RangeLimiter Memory)) (mem mem' : Memory) : Prop where
  bus : m.clock.2.bus = .flat mem'
  width : mem'.width = 16
  pointer : (m.clock.2.registers.s.toNat + m.pushed.length) % 256 =
    (m.registers.s.toNat + m.popped.length) % 256
  pushed : mem'.Stacked m.clock.2.registers.s m.pushed
  popped : mem.Stacked m.registers.s m.popped
  kept : ∀ a, (∀ x ∈ m.pushed, x.address ≠ a) → m.stored? ≠ some a → mem'.get a = mem.get a

variable {m : Machine (RangeLimiter Memory)} {mem mem' : Memory}

theorem stackStep_of_psh (hw : mem.width = 16) (hbus : m.bus = .flat mem)
    (hop : m.instruction? = some .psh) :
    m.StackStep mem (mem.put ⟨m.registers.s, m.registers.a⟩) := by
  obtain ⟨operands, state', -, hclock⟩ := clock_of_some hbus hop
  have hs : m.clock.2.registers.s = m.registers.s - 1 := by rw [hclock]; rfl
  have hpushed : m.pushed = [⟨m.registers.s, m.registers.a⟩] := by simp only [pushed, hop]
  have hpopped : m.popped = [] := by simp only [popped, hop]
  constructor
  case bus => exact congrArg Machine.bus hclock
  case width => exact hw
  case pointer =>
    have hlt := m.registers.s.toNat_lt
    simp only [hpushed, hpopped, hs, List.length, UInt8.toNat_sub, UInt8.toNat_one]
    omega
  case pushed =>
    rw [hpushed, hs]
    simp [Memory.Stacked, Memory.get_put hw]
  case popped => simp only [hpopped, Memory.Stacked]
  case kept =>
    intro a hnew _
    rw [hpushed] at hnew
    rw [Memory.get_put hw, if_neg (Ne.symm (hnew _ (by simp)))]

theorem stackStep_of_subr (hw : mem.width = 16) (hbus : m.bus = .flat mem)
    (hop : m.instruction? = some .subr) : m.StackStep mem
      ((mem.put ⟨m.registers.s, highByte (m.registers.p + 1)⟩).put
        ⟨m.registers.s - 1, lowByte (m.registers.p + 1)⟩) := by
  obtain ⟨operands, state', hlen, hclock⟩ := clock_of_some hbus hop
  obtain rfl := List.length_eq_zero_iff.1 hlen
  have hlt := m.registers.s.toNat_lt
  have hs : m.clock.2.registers.s = m.registers.s - 1 - 1 := by rw [hclock]; rfl
  have hpushed : m.pushed = [⟨m.registers.s - 1, lowByte (m.registers.p + 1)⟩,
      ⟨m.registers.s, highByte (m.registers.p + 1)⟩] := by simp only [pushed, hop]
  have hpopped : m.popped = [] := by simp only [popped, hop]
  have hw' : (mem.put ⟨m.registers.s, highByte (m.registers.p + 1)⟩).width = 16 := hw
  constructor
  case bus => exact congrArg Machine.bus hclock
  case width => exact hw
  case pointer =>
    simp only [hpushed, hpopped, hs, List.length, UInt8.toNat_sub, UInt8.toNat_one]
    omega
  case pushed =>
    have hne : m.registers.s ≠ m.registers.s - 1 := by
      intro h
      have hnat := congrArg UInt8.toNat h
      simp only [UInt8.toNat_sub, UInt8.toNat_one] at hnat
      omega
    rw [hpushed, hs]
    simp [Memory.Stacked, Memory.get_put hw, Memory.get_put hw', StackByte.address_inj, hne]
  case popped => simp only [hpopped, Memory.Stacked]
  case kept =>
    intro a hnew _
    rw [hpushed] at hnew
    rw [Memory.get_put hw', if_neg (Ne.symm (hnew _ (by simp))), Memory.get_put hw,
      if_neg (Ne.symm (hnew _ (by simp)))]

theorem stackStep_of_pop (hw : mem.width = 16) (hbus : m.bus = .flat mem)
    (hop : m.instruction? = some .pop) : m.StackStep mem mem := by
  obtain ⟨operands, state', -, hclock⟩ := clock_of_some hbus hop
  have hs : m.clock.2.registers.s = m.registers.s + 1 := by rw [hclock]; rfl
  have ha : m.clock.2.registers.a =
      mem.get (Effect.stackPage + (m.registers.s + 1).toUInt16) := by rw [hclock]; rfl
  have hpushed : m.pushed = [] := by simp only [pushed, hop]
  have hpopped : m.popped = [⟨m.clock.2.registers.s, m.clock.2.registers.a⟩] := by
    simp only [popped, hop]
  constructor
  case bus => exact congrArg Machine.bus hclock
  case width => exact hw
  case pointer =>
    simp only [hpushed, hpopped, hs, List.length, UInt8.toNat_add, UInt8.toNat_one]
    omega
  case pushed => simp only [hpushed, Memory.Stacked]
  case popped =>
    rw [hpopped, hs, ha]
    exact ⟨rfl, rfl, trivial⟩
  case kept => exact fun _ _ _ => rfl

theorem stackStep_of_ret (hw : mem.width = 16) (hbus : m.bus = .flat mem)
    (hop : m.instruction? = some .ret) : m.StackStep mem mem := by
  obtain ⟨operands, state', -, hclock⟩ := clock_of_some hbus hop
  have hs : m.clock.2.registers.s = m.registers.s + 1 + 1 := by rw [hclock]; rfl
  have hp : m.clock.2.registers.p =
      joinBytes (mem.get (Effect.stackPage + (m.registers.s + 1 + 1).toUInt16))
        (mem.get (Effect.stackPage + (m.registers.s + 1).toUInt16)) := by rw [hclock]; rfl
  have hpushed : m.pushed = [] := by simp only [pushed, hop]
  have hpopped : m.popped = [⟨m.clock.2.registers.s - 1, lowByte m.clock.2.registers.p⟩,
      ⟨m.clock.2.registers.s, highByte m.clock.2.registers.p⟩] := by simp only [popped, hop]
  constructor
  case bus => exact congrArg Machine.bus hclock
  case width => exact hw
  case pointer =>
    simp only [hpushed, hpopped, hs, List.length, UInt8.toNat_add, UInt8.toNat_one]
    omega
  case pushed => simp only [hpushed, Memory.Stacked]
  case popped =>
    rw [hpopped, hs, hp, lowByte_joinBytes, highByte_joinBytes, UInt8.add_sub_cancel]
    exact ⟨rfl, rfl, rfl, rfl, trivial⟩
  case kept => exact fun _ _ _ => rfl

theorem StackStep.of_s_eq (hbus : m.clock.2.bus = .flat mem') (hw : mem'.width = 16)
    (hpushed : m.pushed = []) (hpopped : m.popped = [])
    (hs : m.clock.2.registers.s = m.registers.s)
    (hkept : ∀ a, m.stored? ≠ some a → mem'.get a = mem.get a) : m.StackStep mem mem' where
  bus := hbus
  width := hw
  pointer := by rw [hs, hpushed, hpopped]
  pushed := by simp only [hpushed, Memory.Stacked]
  popped := by simp only [hpopped, Memory.Stacked]
  kept a _ := hkept a

theorem exists_stackStep (hw : mem.width = 16) (hbus : m.bus = .flat mem) :
    ∃ mem', m.StackStep mem mem' := by
  cases hop : m.instruction? with
  | none =>
    obtain ⟨p, state', hclock⟩ := clock_of_none hbus hop
    refine ⟨mem, .of_s_eq (by rw [hclock]) hw ?_ ?_ (by rw [hclock]) fun _ _ => rfl⟩
    · simp only [pushed, hop]
    · simp only [popped, hop]
  | some op =>
    obtain ⟨operands, state', -, hclock⟩ := clock_of_some hbus hop
    have hbus' := congrArg Machine.bus hclock
    have hs := congrArg (·.registers.s) hclock
    cases op with
    | psh => exact ⟨_, stackStep_of_psh hw hbus hop⟩
    | subr => exact ⟨_, stackStep_of_subr hw hbus hop⟩
    | pop => exact ⟨_, stackStep_of_pop hw hbus hop⟩
    | ret => exact ⟨_, stackStep_of_ret hw hbus hop⟩
    | sta =>
      refine ⟨_, .of_s_eq hbus' hw ?_ ?_ hs fun a hstored => ?_⟩
      · simp only [pushed, hop]
      · simp only [popped, hop]
      · have hne : m.registers.r ≠ a := by simpa [stored?, hop] using hstored
        exact (Memory.get_set hw _ _ _).trans (if_neg (Ne.symm hne))
    | jmpc | jmpz | jmpq =>
      refine ⟨_, .of_s_eq hbus' hw ?_ ?_ (hs.trans ?_) fun _ _ => rfl⟩
      · simp only [pushed, hop]
      · simp only [popped, hop]
      · simp only [Opcode.perform, RegisterFile.after]
        split <;> rfl
    | _ =>
      refine ⟨_, .of_s_eq hbus' hw ?_ ?_ hs fun _ _ => rfl⟩
      · simp only [pushed, hop]
      · simp only [popped, hop]

/-- How the outstanding bytes lie in the memory that a run has come to. -/
structure StackRun (m : Machine (RangeLimiter Memory)) (k : Nat) (mem : Memory) : Prop where
  bus : (m.afterClocks k).bus = .flat mem
  width : mem.width = 16
  pointer : ∀ i j x, (m.outstanding k)[i]? = some (j, x) →
    x.pointer.toNat = ((m.afterClocks k).registers.s.toNat + 1 + i) % 256
  byte : ∀ j x, (j, x) ∈ m.outstanding k → m.Undisturbed x.address j k → mem.get x.address = x.byte

variable {k : Nat}

theorem getElem?_outstanding_succ {i j : Nat} {x : StackByte}
    (h : (m.outstanding (k + 1))[i]? = some (j, x)) :
    (j = k ∧ (m.afterClocks k).pushed[i]? = some x) ∨
      (m.afterClocks k).pushed.length ≤ i ∧ (m.outstanding k)[(m.afterClocks k).popped.length +
        (i - (m.afterClocks k).pushed.length)]? = some (j, x) := by
  rw [outstanding, List.getElem?_append, List.length_map] at h
  split at h
  case isTrue hlt =>
    obtain ⟨y, hy, heq⟩ := Option.map_eq_some_iff.1 (List.getElem?_map .. ▸ h)
    cases heq
    exact .inl ⟨rfl, hy⟩
  case isFalse hle =>
    rw [List.getElem?_drop] at h
    exact .inr ⟨Nat.le_of_not_lt hle, h⟩

theorem StackRun.succ (h : m.StackRun k mem) (hstep : (m.afterClocks k).StackStep mem mem')
    (hle : (m.outstanding (k + 1)).length ≤ 256) : m.StackRun (k + 1) mem' := by
  have hpointer : ∀ i j x, (m.outstanding (k + 1))[i]? = some (j, x) →
      x.pointer.toNat = ((m.afterClocks (k + 1)).registers.s.toNat + 1 + i) % 256 := by
    intro i j x hx
    rcases getElem?_outstanding_succ hx with ⟨rfl, hnew⟩ | ⟨hi, hold⟩
    · exact (hstep.pushed.getElem? hnew).1
    · have hold := h.pointer _ _ _ hold
      have hs := hstep.pointer
      rw [afterClocks]
      omega
  refine ⟨hstep.bus, hstep.width, hpointer, ?_⟩
  intro j x hmem hundisturbed
  obtain ⟨i, hx⟩ := List.getElem?_of_mem hmem
  have hi : i < (m.outstanding (k + 1)).length := (List.getElem?_eq_some_iff.1 hx).1
  rcases getElem?_outstanding_succ hx with ⟨rfl, hnew⟩ | ⟨hi', hold⟩
  · exact (hstep.pushed.getElem? hnew).2
  · have hold := List.mem_of_getElem? hold
    have hjk : j < k := lt_of_mem_outstanding hold
    have hbyte := h.byte j x hold fun l hjl hlk => hundisturbed l hjl (Nat.lt_succ_of_lt hlk)
    rw [hstep.kept x.address ?_ (hundisturbed k hjk (Nat.lt_succ_self k)), hbyte]
    intro y hy haddress
    obtain ⟨l, hl⟩ := List.getElem?_of_mem hy
    have hy := (hstep.pushed.getElem? hl).1
    have hx := hpointer _ _ _ hx
    have hlt := (List.getElem?_eq_some_iff.1 hl).1
    rw [StackByte.address_inj.1 haddress] at hy
    rw [afterClocks] at hx
    omega

theorem exists_stackRun (hm : m.IsStandard) (hle : ∀ j ≤ k, (m.outstanding j).length ≤ 256) :
    ∃ mem, m.StackRun k mem := by
  induction k with
  | zero =>
    obtain ⟨mem, hw, hbus⟩ := hm
    exact ⟨mem, hbus, hw, fun _ _ _ h => (by cases h), fun _ _ h => (by cases h)⟩
  | succ k ih =>
    obtain ⟨mem, hrun⟩ := ih fun j hj => hle j (Nat.le_succ_of_le hj)
    obtain ⟨mem', hstep⟩ := exists_stackStep hrun.width hrun.bus
    exact ⟨mem', hrun.succ hstep (hle _ (Nat.le_refl _))⟩

theorem match_of_popped (hm : m.IsStandard) (hle : ∀ j ≤ k, (m.outstanding j).length ≤ 256)
    {i j : Nat} {x e : StackByte} (hx : (m.afterClocks k).popped[i]? = some x)
    (he : (m.outstanding k)[i]? = some (j, e)) (hundisturbed : m.Undisturbed e.address j k) :
    x.byte = e.byte ∧ x.pointer = e.pointer := by
  obtain ⟨mem, hrun⟩ := exists_stackRun hm hle
  obtain ⟨mem', hstep⟩ := exists_stackStep hrun.width hrun.bus
  obtain ⟨hpointer, hbyte⟩ := hstep.popped.getElem? hx
  have hsame : x.pointer = e.pointer :=
    UInt8.toNat_inj.1 (hpointer.trans (hrun.pointer _ _ _ he).symm)
  rw [StackByte.address_inj.2 hsame,
    hrun.byte j e (List.mem_of_getElem? he) hundisturbed] at hbyte
  exact ⟨hbyte.symm, hsame⟩

/-- What a standard machine pops is what it pushed, as long as at most a page of bytes has been
outstanding and no store has gone to the cell in between, and the stack pointer is back where it was.
So a return that is paired with a call goes on behind that call. -/
theorem popped_eq_outstanding (hm : m.IsStandard)
    (hle : ∀ j ≤ k, (m.outstanding j).length ≤ 256) :
    (∀ (i j : Nat) (x e : StackByte), (m.afterClocks k).popped[i]? = some x → (m.outstanding k)[i]? = some (j, e) →
      m.Undisturbed e.address j k → x.byte = e.byte ∧ x.pointer = e.pointer) ∧
    ∀ j low high rest, (m.afterClocks k).instruction? = some .ret →
      (m.afterClocks j).instruction? = some .subr →
      m.outstanding k = (j, low) :: (j, high) :: rest →
      m.Undisturbed low.address j k → m.Undisturbed high.address j k →
      (m.afterClocks (k + 1)).registers.p = (m.afterClocks j).registers.p + 1 ∧
        (m.afterClocks (k + 1)).registers.s = (m.afterClocks j).registers.s := by
  refine ⟨fun i j x e hx he hundisturbed => match_of_popped hm hle hx he hundisturbed, ?_⟩
  intro j low high rest hret hsubr hrest hlow hhigh
  have hpopped : (m.afterClocks k).popped =
      [⟨(m.afterClocks (k + 1)).registers.s - 1, lowByte (m.afterClocks (k + 1)).registers.p⟩,
        ⟨(m.afterClocks (k + 1)).registers.s, highByte (m.afterClocks (k + 1)).registers.p⟩] := by
    simp only [popped, hret, afterClocks]
  have hpushed : [⟨(m.afterClocks j).registers.s - 1, lowByte ((m.afterClocks j).registers.p + 1)⟩,
      ⟨(m.afterClocks j).registers.s, highByte ((m.afterClocks j).registers.p + 1)⟩] =
        [low, high] := by
    rw [← pushed_of_outstanding hrest]
    simp only [pushed, hsubr]
  simp only [List.cons.injEq, and_true] at hpushed
  obtain ⟨rfl, rfl⟩ := hpushed
  obtain ⟨hlowByte, -⟩ := match_of_popped (i := 0) hm hle (by rw [hpopped]; rfl)
    (by rw [hrest]; rfl) hlow
  obtain ⟨hhighByte, hs⟩ := match_of_popped (i := 1) hm hle (by rw [hpopped]; rfl)
    (by rw [hrest]; rfl) hhigh
  refine ⟨?_, hs⟩
  rw [← joinBytes_highByte_lowByte (m.afterClocks (k + 1)).registers.p]
  simp only at hlowByte hhighByte
  rw [hlowByte, hhighByte, joinBytes_highByte_lowByte]

/-- A call that takes the stack pointer through zero, and its return. -/
theorem popped_eq_outstanding_wrapped :
    let mem := (Memory.full.set 7 Opcode.subr.id).set 0 Opcode.ret.id
    let m : Machine (RangeLimiter Memory) := ⟨⟨0, 0, 0, 0, 0, 0, 7, false⟩, .flat mem, .running⟩
    m.IsStandard ∧ (∀ j ≤ 1, (m.outstanding j).length ≤ 256) ∧
      (m.afterClocks 2).registers.p = 8 ∧ (m.afterClocks 2).registers.s = 0 := by
  have hrun (mem : Memory) (hw : mem.width = 16) (hseven : mem.get 7 = Opcode.subr.id)
      (hzero : mem.get 0 = Opcode.ret.id) :
      let m : Machine (RangeLimiter Memory) := ⟨⟨0, 0, 0, 0, 0, 0, 7, false⟩, .flat mem, .running⟩
      m.IsStandard ∧ (∀ j ≤ 1, (m.outstanding j).length ≤ 256) ∧
        (m.afterClocks 2).registers.p = 8 ∧ (m.afterClocks 2).registers.s = 0 := by
    intro m
    have hm : m.IsStandard := ⟨mem, hw, rfl⟩
    have hsubr : m.instruction? = some .subr := by
      rw [instruction?_flat, hseven, Opcode.ofByte?_id]
    have hpushed : m.pushed = [⟨0 - 1, lowByte (7 + 1)⟩, ⟨0, highByte (7 + 1)⟩] := by
      simp only [pushed, hsubr, m]
    have houtstanding : m.outstanding 1 =
        [(0, ⟨0 - 1, lowByte (7 + 1)⟩), (0, ⟨0, highByte (7 + 1)⟩)] := by
      simp only [outstanding, afterClocks, hpushed, List.drop_nil, List.map, List.append_nil]
    have hle : ∀ j ≤ 1, (m.outstanding j).length ≤ 256 := by
      intro j hj
      obtain rfl | rfl := Nat.le_one_iff_eq_zero_or_eq_one.1 hj
      · exact Nat.zero_le _
      · rw [houtstanding]
        exact Nat.le_add_left 2 254
    have hret : (m.afterClocks 1).instruction? = some .ret := by
      obtain ⟨diagnostics, hclock⟩ :=
        @clock_flat m.registers mem .subr [] rfl ⟨hseven, trivial⟩
      have hafter : m.afterClocks 1 = ⟨⟨0, 0, 0, 0, 0, 0 - 1 - 1, joinBytes 0 0, false⟩,
          .flat ((mem.put ⟨0, highByte (7 + 1)⟩).put ⟨0 - 1, lowByte (7 + 1)⟩), .running⟩ :=
        congrArg Prod.snd hclock
      have hw' : (mem.put ⟨0, highByte (7 + 1)⟩).width = 16 := hw
      have hget : ((mem.put ⟨0, highByte (7 + 1)⟩).put ⟨0 - 1, lowByte (7 + 1)⟩).get 0 =
          Opcode.ret.id := by
        rw [Memory.get_put hw', if_neg (by decide), Memory.get_put hw, if_neg (by decide), hzero]
      have hp : joinBytes 0 0 = 0 := by decide
      rw [hafter, instruction?_flat, hp, hget, Opcode.ofByte?_id]
    have hundisturbed (a : Address) : m.Undisturbed a 0 1 := fun i hi hi' => by omega
    obtain ⟨hp, hs⟩ := (popped_eq_outstanding hm hle).2 0 _ _ _ hret hsubr houtstanding
      (hundisturbed _) (hundisturbed _)
    have hbehind : (7 : Address) + 1 = 8 := by decide
    exact ⟨hm, hle, hp.trans hbehind, hs⟩
  refine hrun _ rfl ?_ ?_
  · rw [Memory.get_set rfl, if_neg (by decide), Memory.get_set rfl, if_pos rfl]
  · rw [Memory.get_set rfl, if_pos rfl]

end Machine

end Octet
