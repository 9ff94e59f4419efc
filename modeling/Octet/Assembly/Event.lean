import Octet.Assembly.TokenKind
import Octet.Text.Numeral

/-! # Events

What an assembler has to say about a token, in the order in which it finds it out: notes, and errors.
Each error is a cause; its category and its message are read off the cause.
-/

namespace Octet

/-- States in which no token should reach its encoding. -/
inductive EncodingFault where
  | uncheckedInstruction
  | unsplitAddress
  | unappliedDirective
  | unreportedInvalid
deriving DecidableEq, Repr

def EncodingFault.message : EncodingFault → String
  | .uncheckedInstruction => "unvalidated instruction reached encoding"
  | .unsplitAddress => "unsplit address reached encoding"
  | .unappliedDirective => "unapplied macro reached encoding"
  | .unreportedInvalid => "invalid token reached encoding without an error"

inductive CompileError where
  | invalidToken (text : Text)
  | instructionNotFound (mnemonic : Text)
  | instructionNotAtLineStart
  | notEnoughArguments (op : Opcode) (given : Nat)
  | argumentHasError (op : Opcode) (position : Nat)
  | wrongArgumentType (op : Opcode) (position : Nat) (expected : OperandKind) (found : TokenKind)
  | excessArgument (op : Opcode) (extra : Text)
  | labelAlreadyDefined (name : Text) (firstLine : Nat)
  | addressOutOfRange (address : Nat)
  | labelNotFound (name : Text)
  | unknownDirective (name : Text)
  | directiveArgumentCount (found : Nat)
  | directiveArgumentInvalid (argument : Text)
  | directiveAddressOutOfRange (argument : Text)
  | directiveMovesBackwards (target : Address) (current : Nat)
  | byteInvalidSyntax (text : Text)
  | byteOutOfRange (text : Text)
  | internal (fault : EncodingFault)
deriving DecidableEq, Repr

namespace CompileError

def category : CompileError → String
  | .invalidToken _ => "invalid token"
  | .instructionNotFound _ => "instruction not found"
  | .instructionNotAtLineStart => "instruction not at start of line"
  | .notEnoughArguments _ _ => "not enough arguments"
  | .argumentHasError _ _ => "argument has error"
  | .wrongArgumentType _ _ _ _ => "wrong argument type"
  | .excessArgument _ _ => "excess argument"
  | .labelAlreadyDefined _ _ => "label already defined"
  | .addressOutOfRange _ => "address out of range"
  | .labelNotFound _ => "label not found"
  | .unknownDirective _ => "unknown macro"
  | .directiveArgumentCount _ => "macro argument count"
  | .directiveArgumentInvalid _ => "macro argument invalid"
  | .directiveAddressOutOfRange _ => "macro address out of range"
  | .directiveMovesBackwards _ _ => "macro moves backwards"
  | .byteInvalidSyntax _ => "byte invalid syntax"
  | .byteOutOfRange _ => "byte out of range"
  | .internal _ => "internal fault"

def message : CompileError → String
  | .invalidToken text =>
    let text := String.ofList text
    s!"`{text}` matches no token pattern; check for a typo or a syntax slip"
  | .instructionNotFound mnemonic =>
    let mnemonic := String.ofList mnemonic
    s!"no instruction is named `{mnemonic}`"
  | .instructionNotAtLineStart => "instructions must be the first token on their line"
  | .notEnoughArguments op given =>
    let mnemonic := op.mnemonic
    let required := op.operands.length
    s!"`{mnemonic}` needs {required} argument(s) on its line, found {given}"
  | .argumentHasError op position =>
    let mnemonic := op.mnemonic
    s!"argument {position} of `{mnemonic}` has an error"
  | .wrongArgumentType op position expected found =>
    let mnemonic := op.mnemonic
    let expected := expected.name
    let found := found.name
    s!"argument {position} of `{mnemonic}` must be a {expected}, found a {found}"
  | .excessArgument op extra =>
    let mnemonic := op.mnemonic
    let required := op.operands.length
    let extra := String.ofList extra
    s!"`{mnemonic}` takes {required} argument(s); `{extra}` is one too many"
  | .labelAlreadyDefined name firstLine =>
    let name := String.ofList name
    s!"label `{name}` was already defined on line {firstLine}"
  | .addressOutOfRange address => s!"address {address} is outside the 16-bit address space"
  | .labelNotFound name =>
    let name := String.ofList name
    s!"no label is named `{name}`; names are case sensitive"
  | .unknownDirective name =>
    let name := String.ofList name
    s!"unknown macro `{name}`; the only macro is #SKIPTO"
  | .directiveArgumentCount found => s!"#SKIPTO takes exactly one argument, found {found}"
  | .directiveArgumentInvalid argument =>
    let argument := String.ofList argument
    s!"#SKIPTO argument `{argument}` is not a decimal address"
  | .directiveAddressOutOfRange argument =>
    let argument := String.ofList argument
    s!"#SKIPTO target {argument} is outside the 16-bit address space"
  | .directiveMovesBackwards target current =>
    s!"#SKIPTO {target} would move backwards from address {current}"
  | .byteInvalidSyntax text =>
    let text := String.ofList text
    s!"`{text}` is not a valid byte for its base"
  | .byteOutOfRange text =>
    let text := String.ofList text
    s!"`{text}` does not fit in an unsigned byte (0..=255)"
  | .internal fault =>
    let detail := fault.message
    s!"internal assembler fault: {detail}"

end CompileError

inductive Note where
  | classified (kind : TokenKind)
  | splitFromAddress (half : Half)
  | operandsSatisfied (op : Opcode)
  | labelBound (address : Address)
  | encoded (byte : Byte)
  | labelEmitsNothing
deriving DecidableEq, Repr

def Note.message : Note → String
  | .classified kind =>
    let kind := kind.name
    s!"classified as {kind}"
  | .splitFromAddress half =>
    let half := half.name
    s!"split from an address; {half} 8 bits"
  | .operandsSatisfied op =>
    let required := op.operands.length
    if required = 0 then "takes no arguments" else s!"has its {required} required argument(s)"
  | .labelBound address => s!"bound to address {address}"
  | .encoded byte =>
    let digits := String.ofList (Numeral.fixed 2 8 byte.toNat)
    s!"encoded as {digits}"
  | .labelEmitsNothing => "labels are not stored in the output"

inductive Event where
  | note (n : Note)
  | error (e : CompileError)
deriving DecidableEq, Repr

namespace Event

def error? : Event → Option CompileError
  | .note _ => none
  | .error e => some e

def message : Event → String
  | .note n => n.message
  | .error e =>
    let category := e.category
    let text := e.message
    s!"error: {category}: {text}"

end Event

end Octet
