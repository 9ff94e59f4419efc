import Octet.Assembly.Token

/-! # Operands

An instruction has to be the first token of its line, and its operands, no more and no fewer, have to
follow it there. Tokens are checked line by line: `checkLine` walks the tokens of one line and
`checkOperands` does so for every maximal run of tokens with one line number. What is wrong goes to
the instruction, and also to the token that is of the wrong kind or too many.
-/

namespace Octet

namespace Operands

def fault? (op : Opcode) (position : Nat) (expected : OperandKind) (t : Token) :
    Option CompileError :=
  if t.isErrored then some (.argumentHasError op position)
  else if expected.accepts t.kind then none
  else some (.wrongArgumentType op position expected t.kind)

/-- An operand with what is wrong with it. A token that was errored before gets no further error. -/
def mark (op : Opcode) (position : Nat) (expected : OperandKind) (t : Token) : Token :=
  if t.isErrored || expected.accepts t.kind then t
  else t.error (.wrongArgumentType op position expected t.kind)

/-- Takes the operands of an instruction off the tokens behind it, `given` of them being taken
already: what is wrong, the operands and the tokens behind them. -/
def take (op : Opcode) (given : Nat) :
    List OperandKind → List Token → List CompileError × List Token × List Token
  | [], ts => ([], [], ts)
  | _ :: _, [] => ([.notEnoughArguments op given], [], [])
  | expected :: more, t :: ts =>
    let (faults, operands, rest) := take op (given + 1) more ts
    ((fault? op (given + 1) expected t).toList ++ faults,
      mark op (given + 1) expected t :: operands, rest)

def excess (op : Opcode) : List Token → List CompileError × List Token
  | [] => ([], [])
  | t :: ts => ([.excessArgument op t.text], t.error (.excessArgument op t.text) :: ts)

/-- An instruction with what is wrong with it, or else with the note that nothing is. -/
def conclude (op : Opcode) (t : Token) : List CompileError → Token
  | [] => t.note (.operandsSatisfied op)
  | es => es.foldl Token.error t

theorem length_take_rest (op : Opcode) (given : Nat) (kinds : List OperandKind) (ts : List Token) :
    (take op given kinds ts).2.2.length ≤ ts.length := by
  induction kinds generalizing given ts with
  | nil => simp [take]
  | cons k ks ih =>
    cases ts with
    | nil => simp [take]
    | cons t ts =>
      simp only [take, List.length_cons]
      exact Nat.le_succ_of_le (ih (given + 1) ts)

@[simp] theorem length_excess (op : Opcode) (ts : List Token) :
    (excess op ts).2.length = ts.length := by
  cases ts <;> simp [excess]

def checkLine (isFirst : Bool) : List Token → List Token
  | [] => []
  | t :: ts =>
    if t.kind != .instruction || t.isErrored then t :: checkLine false ts
    else
      match Opcode.ofMnemonic? t.text with
      | none => t.error (.instructionNotFound t.text) :: checkLine false ts
      | some op =>
        let start := if isFirst then [] else [CompileError.instructionNotAtLineStart]
        let taken := take op 0 op.operands ts
        let left := excess op taken.2.2
        conclude op t (start ++ taken.1 ++ left.1) :: (taken.2.1 ++ checkLine false left.2)
termination_by ts => ts.length
decreasing_by
  all_goals simp only [List.length_cons]
  · omega
  · omega
  · have := length_take_rest op 0 op.operands ts
    simp only [length_excess]
    omega

end Operands

def checkOperands (ts : List Token) : List Token :=
  (ts.splitBy fun s t => s.line == t.line).flatMap (Operands.checkLine true)

end Octet
