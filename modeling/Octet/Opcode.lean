import Octet.Word

/-! # Opcodes

The forty-two instructions of the machine, in the order of their numbers. Sixteen to nineteen and
everything above forty-five are no instruction.
-/

namespace Octet

inductive Opcode where
  | hlt | nop | adr | lda | sta | ldb | swp | ldh | ldl | sth | stl | ldq | stq | cla | clb | clq
  | add | addc | sub | subc | shl | shlc | shr | shrc | and | or | xor | nand | nor | xnor | cksm
  | cksmc | incr | decr | jmp | jmpc | jmpz | jmpq | psh | pop | subr | ret
deriving DecidableEq, Repr

namespace Opcode

def all : List Opcode := [
  .hlt, .nop, .adr, .lda, .sta, .ldb, .swp, .ldh, .ldl, .sth, .stl, .ldq, .stq, .cla, .clb, .clq,
  .add, .addc, .sub, .subc, .shl, .shlc, .shr, .shrc, .and, .or, .xor, .nand, .nor, .xnor, .cksm,
  .cksmc, .incr, .decr, .jmp, .jmpc, .jmpz, .jmpq, .psh, .pop, .subr, .ret]

theorem mem_all (op : Opcode) : op ∈ all := by cases op <;> decide

/-- The number under which the instruction stands in memory. -/
def id : Opcode → Byte
  | .hlt => 0
  | .nop => 1
  | .adr => 2
  | .lda => 3
  | .sta => 4
  | .ldb => 5
  | .swp => 6
  | .ldh => 7
  | .ldl => 8
  | .sth => 9
  | .stl => 10
  | .ldq => 11
  | .stq => 12
  | .cla => 13
  | .clb => 14
  | .clq => 15
  | .add => 20
  | .addc => 21
  | .sub => 22
  | .subc => 23
  | .shl => 24
  | .shlc => 25
  | .shr => 26
  | .shrc => 27
  | .and => 28
  | .or => 29
  | .xor => 30
  | .nand => 31
  | .nor => 32
  | .xnor => 33
  | .cksm => 34
  | .cksmc => 35
  | .incr => 36
  | .decr => 37
  | .jmp => 38
  | .jmpc => 39
  | .jmpz => 40
  | .jmpq => 41
  | .psh => 42
  | .pop => 43
  | .subr => 44
  | .ret => 45

def mnemonic : Opcode → String
  | .hlt => "HLT"
  | .nop => "NOP"
  | .adr => "ADR"
  | .lda => "LDA"
  | .sta => "STA"
  | .ldb => "LDB"
  | .swp => "SWP"
  | .ldh => "LDH"
  | .ldl => "LDL"
  | .sth => "STH"
  | .stl => "STL"
  | .ldq => "LDQ"
  | .stq => "STQ"
  | .cla => "CLA"
  | .clb => "CLB"
  | .clq => "CLQ"
  | .add => "ADD"
  | .addc => "ADDC"
  | .sub => "SUB"
  | .subc => "SUBC"
  | .shl => "SHL"
  | .shlc => "SHLC"
  | .shr => "SHR"
  | .shrc => "SHRC"
  | .and => "AND"
  | .or => "OR"
  | .xor => "XOR"
  | .nand => "NAND"
  | .nor => "NOR"
  | .xnor => "XNOR"
  | .cksm => "CKSM"
  | .cksmc => "CKSMC"
  | .incr => "INCR"
  | .decr => "DECR"
  | .jmp => "JMP"
  | .jmpc => "JMPC"
  | .jmpz => "JMPZ"
  | .jmpq => "JMPQ"
  | .psh => "PSH"
  | .pop => "POP"
  | .subr => "SUBR"
  | .ret => "RET"

def ofByte? (n : Byte) : Option Opcode := all.find? (·.id == n)

theorem ofByte?_id (op : Opcode) : ofByte? op.id = some op := by cases op <;> rfl

theorem id_of_ofByte? {n : Byte} {op : Opcode} (h : ofByte? n = some op) : op.id = n := by
  simpa using List.find?_some h

/-- The number of bytes behind the instruction that belong to it. -/
def immediateBytes : Opcode → Nat
  | .adr => 2
  | .cla | .clb | .clq => 1
  | _ => 0

end Opcode

end Octet
