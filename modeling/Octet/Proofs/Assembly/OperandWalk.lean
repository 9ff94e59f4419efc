import Octet.Proofs.Assembly.OperandCheck
import Octet.Proofs.Lists

/-! # The operand check as one walk

The operand check cuts the tokens into lines before it looks at any of them. The same comes of one
walk over all tokens: there an instruction begins its line unless the token in front of it is on that
line, and the walk goes on behind the operands it has taken, which end with the line or with the list.
-/

namespace Octet

namespace Operands

/-- As `take`, from tokens that need not all be on the line. -/
def takeOn (op : Opcode) (line given : Nat) :
    List OperandKind → List Token → List CompileError × List Token × List Token
  | [], ts => ([], [], ts)
  | _ :: _, [] => ([.notEnoughArguments op given], [], [])
  | expected :: more, t :: ts =>
    if t.line = line then
      let (faults, operands, rest) := takeOn op line (given + 1) more ts
      ((fault? op (given + 1) expected t).toList ++ faults,
        mark op (given + 1) expected t :: operands, rest)
    else ([.notEnoughArguments op given], [], t :: ts)

def excessOn (op : Opcode) (line : Nat) : List Token → List CompileError × List Token
  | [] => ([], [])
  | t :: ts =>
    if t.line = line then ([.excessArgument op t.text], t.error (.excessArgument op t.text) :: ts)
    else ([], t :: ts)

theorem length_takeOn_rest (op : Opcode) (line given : Nat) (kinds : List OperandKind)
    (ts : List Token) : (takeOn op line given kinds ts).2.2.length ≤ ts.length := by
  induction kinds generalizing given ts with
  | nil => simp [takeOn]
  | cons k ks ih =>
    cases ts with
    | nil => simp [takeOn]
    | cons t ts =>
      rw [takeOn]
      split
      · exact Nat.le_succ_of_le (ih (given + 1) ts)
      · exact Nat.le_refl _

theorem length_excessOn (op : Opcode) (line : Nat) (ts : List Token) :
    (excessOn op line ts).2.length = ts.length := by
  cases ts with
  | nil => rfl
  | cons t ts =>
    rw [excessOn]
    split <;> rfl

/-- Checks the instructions among the tokens behind one on the line `previous`, or behind none. -/
def walk (previous : Option Nat) : List Token → List Token
  | [] => []
  | t :: ts =>
    if t.kind != .instruction || t.isErrored then t :: walk (some t.line) ts
    else
      match Opcode.ofMnemonic? t.text with
      | none => t.error (.instructionNotFound t.text) :: walk (some t.line) ts
      | some op =>
        let start := if previous = some t.line then [CompileError.instructionNotAtLineStart] else []
        let taken := takeOn op t.line 0 op.operands ts
        let left := excessOn op t.line taken.2.2
        conclude op t (start ++ taken.1 ++ left.1) :: (taken.2.1 ++ walk (some t.line) left.2)
termination_by ts => ts.length
decreasing_by
  all_goals simp only [List.length_cons]
  · omega
  · omega
  · have := length_takeOn_rest op t.line 0 op.operands ts
    simp only [length_excessOn]
    omega

section

variable {line : Nat} {run rest : List Token} (hrun : ∀ t ∈ run, t.line = line)
  (hrest : ∀ t ∈ rest.head?, t.line ≠ line)

include hrun hrest

/-- Operands are taken from the line alone. -/
theorem takeOn_append (op : Opcode) (given : Nat) (kinds : List OperandKind) :
    takeOn op line given kinds (run ++ rest) =
      ((take op given kinds run).1, (take op given kinds run).2.1,
        (take op given kinds run).2.2 ++ rest) := by
  induction kinds generalizing given run with
  | nil => simp [takeOn, take]
  | cons k kinds ih =>
    cases run with
    | nil =>
      cases rest with
      | nil => simp [takeOn, take]
      | cons t rest => simp [takeOn, take, hrest t rfl]
    | cons t run =>
      obtain ⟨ht, hrun⟩ := List.forall_mem_cons.1 hrun
      simp [takeOn, take, ht, ih hrun]

theorem excessOn_append (op : Opcode) :
    excessOn op line (run ++ rest) = ((excess op run).1, (excess op run).2 ++ rest) := by
  cases run with
  | nil =>
    cases rest with
    | nil => simp [excessOn, excess]
    | cons t rest => simp [excessOn, excess, hrest t rfl]
  | cons t run => simp [excessOn, excess, hrun t (by simp)]

end

theorem line_of_mem_excess {op : Opcode} {line : Nat} {ts : List Token}
    (h : ∀ t ∈ ts, t.line = line) : ∀ t ∈ (excess op ts).2, t.line = line := by
  intro t ht
  obtain ⟨s, hs, ha⟩ := exists_of_mem_right (forall₂_excess op ts) ht
  rw [ha.samePiece.line, h s hs]

/-- The walk checks the rest of a line as that line is checked, and then goes on with the next. -/
theorem walk_append {line : Nat} {run rest : List Token} {isFirst : Bool} {previous : Option Nat}
    (hrun : ∀ t ∈ run, t.line = line) (hrest : ∀ t ∈ rest.head?, t.line ≠ line)
    (hfirst : isFirst = true ↔ previous ≠ some line) (hnil : run = [] → previous = some line) :
    walk previous (run ++ rest) = checkLine isFirst run ++ walk (some line) rest := by
  fun_induction checkLine isFirst run generalizing previous
  case case1 => rw [hnil rfl]; rfl
  case case2 isFirst t ts h ih =>
    obtain ⟨rfl, hts⟩ := List.forall_mem_cons.1 hrun
    rw [List.cons_append, walk, if_pos h, ih hts (by simp) fun _ => rfl]
    rfl
  case case3 isFirst t ts h hop ih =>
    obtain ⟨rfl, hts⟩ := List.forall_mem_cons.1 hrun
    rw [List.cons_append, walk, if_neg h, hop, ih hts (by simp) fun _ => rfl]
    rfl
  case case4 isFirst t ts h op hop start taken left ih =>
    obtain ⟨rfl, hts⟩ := List.forall_mem_cons.1 hrun
    have hleft : ∀ s ∈ (take op 0 op.operands ts).2.2, s.line = t.line := by
      obtain ⟨front, he, -⟩ := forall₂_take op 0 op.operands ts
      exact fun s hs => hts s (he ▸ List.mem_append_right front hs)
    have hstart : start = if previous = some t.line then [.instructionNotAtLineStart] else [] := by
      cases isFirst <;> simp_all [start]
    rw [List.cons_append, walk, if_neg h, hop]
    simp only [takeOn_append hts hrest, excessOn_append hleft hrest]
    rw [ih (line_of_mem_excess hleft) (by simp) fun _ => rfl, hstart]
    simp only [List.cons_append, List.append_assoc, taken, left]

theorem line_of_isChain {t : Token} {ts : List Token}
    (h : (t :: ts).IsChain fun s t => (s.line == t.line) = true) :
    ∀ s ∈ t :: ts, s.line = t.line := by
  induction ts generalizing t with
  | nil => simp
  | cons u ts ih =>
    obtain ⟨htu, hts⟩ := List.isChain_cons_cons.1 h
    refine List.forall_mem_cons.2 ⟨rfl, fun s hs => ?_⟩
    rw [ih hts s hs, beq_iff_eq.1 htu]

/-- Among runs of tokens on one line each, of which no two neighbours are on the same, the walk
finds every run where it begins. -/
theorem walk_flatten {runs : List (List Token)} {previous : Option Nat} (hne : [] ∉ runs)
    (hrun : ∀ run ∈ runs, run.IsChain fun s t => (s.line == t.line) = true)
    (hcut : runs.IsChain fun run next => ∃ hr hn,
      ((run.getLast hr).line == (next.head hn).line) = false)
    (hprevious : ∀ t ∈ runs.flatten.head?, previous ≠ some t.line) :
    walk previous runs.flatten = runs.flatMap (checkLine true) := by
  induction runs generalizing previous with
  | nil => simp [walk]
  | cons run runs ih =>
    obtain ⟨hempty, hlater⟩ := not_or.1 (mt List.mem_cons.2 hne)
    obtain ⟨hchain, hlaterRun⟩ := List.forall_mem_cons.1 hrun
    cases run with
    | nil => exact absurd rfl hempty
    | cons t ts =>
      have hline := line_of_isChain hchain
      have hfirst : true = true ↔ previous ≠ some t.line := by simpa using hprevious
      have hnext : ∀ u ∈ runs.flatten.head?, u.line ≠ t.line := by
        cases runs with
        | nil => simp
        | cons next runs =>
          cases next with
          | nil => simp at hlater
          | cons u us =>
            obtain ⟨hr, _, hlast⟩ := (List.isChain_cons_cons.1 hcut).1
            rw [hline _ (List.getLast_mem hr), List.head_cons, beq_eq_false_iff_ne] at hlast
            simpa using hlast.symm
      rw [List.flatten_cons, List.flatMap_cons, walk_append hline hnext hfirst (by simp),
        ih hlater hlaterRun hcut.tail fun u hu h => hnext u hu (Option.some.inj h).symm]

end Operands

/-- Cutting the tokens into lines first or walking over all of them comes to the same. -/
theorem checkOperands_eq_walk (ts : List Token) : checkOperands ts = Operands.walk none ts := by
  let same (s t : Token) : Bool := s.line == t.line
  have h : Operands.walk none (ts.splitBy same).flatten = checkOperands ts :=
    Operands.walk_flatten (List.nil_notMem_splitBy same ts)
      (fun run hr => List.isChain_of_mem_splitBy hr) (List.isChain_getLast_head_splitBy same ts)
      (by simp)
  rw [← h, List.flatten_splitBy]

end Octet
