import Octet.Assembly.Half
import Octet.Opcode

/-! # Kinds of tokens, and what instructions take

The kinds into which the pieces of a source text fall, the mnemonics of the instructions, and the
kinds of operand that have to follow each of them. An instruction takes one operand for each byte
that it has behind it in memory (`length_operands`).
-/

namespace Octet

inductive TokenKind where
  | instruction
  | address
  | addressByte (half : Half)
  | label
  | byteLiteral
  | directive
  | invalid
deriving DecidableEq, Repr

def TokenKind.name : TokenKind → String
  | .instruction => "instruction"
  | .address => "address"
  | .addressByte half =>
    let half := half.name
    s!"address byte ({half})"
  | .label => "label"
  | .byteLiteral => "byte"
  | .directive => "macro"
  | .invalid => "invalid"

inductive OperandKind where
  | byteLiteral
  | addressByte
deriving DecidableEq, Repr

namespace OperandKind

def name : OperandKind → String
  | .byteLiteral => "byte"
  | .addressByte => "address byte"

def accepts : OperandKind → TokenKind → Bool
  | .byteLiteral, .byteLiteral => true
  | .addressByte, .addressByte _ => true
  | _, _ => false

end OperandKind

namespace Opcode

/-- The operands that have to follow the mnemonic, in their order. -/
def operands : Opcode → List OperandKind
  | .adr => [.addressByte, .addressByte]
  | .cla | .clb | .clq => [.byteLiteral]
  | _ => []

theorem length_operands (op : Opcode) : op.operands.length = op.immediateBytes := by
  cases op <;> rfl

def ofMnemonic? (t : Text) : Option Opcode := all.find? (·.mnemonic.toList == t)

theorem mnemonic_of_ofMnemonic? {t : Text} {op : Opcode} (h : ofMnemonic? t = some op) :
    op.mnemonic.toList = t := by
  simpa using List.find?_some h

end Opcode

end Octet
