import Octet.CommandLine.Arguments
import Octet.MachineConfig
import Octet.Path

/-! # Commands

What can be asked for on the command line: to build an image from a source, or to run a source on a
machine. `Command.parse?` gives nothing for a line that is no command, whatever is wrong with it.
-/

namespace Octet

inductive ConfigSource where
  | given (config : MachineConfig)
  | file (path : Path)
deriving DecidableEq, Repr

inductive Command where
  | build (input : Path) (output : Option Path) (verbose : Bool)
  | run (input : Path) (maxClocks : Nat) (config : ConfigSource)
deriving DecidableEq, Repr

namespace Command

def outputOption : OptionSpec := ⟨.ofText "output".toList, some 'o'.toUInt8, true⟩

def verboseOption : OptionSpec := ⟨.ofText "verbose".toList, some 'v'.toUInt8, false⟩

def clocksOption : OptionSpec := ⟨.ofText "max-clocks".toList, none, true⟩

def configOption : OptionSpec := ⟨.ofText "config".toList, none, true⟩

def bitsOption : OptionSpec := ⟨.ofText "memory-bits".toList, none, true⟩

def rangeOption : OptionSpec := ⟨.ofText "range-prefix".toList, none, true⟩

/-- The clocks after which a run ends if nothing else is said. -/
def standardClocks : Nat := 100000

/-- A decimal number below `bound`. A sign is allowed, but only zero can have a minus. -/
def number? (bound : Nat) (value : Bytes) : Option Nat := do
  match ← value.text? with
  | '+' :: digits => (Numeral.ofDecimal? digits).filter (· < bound)
  | '-' :: digits => (Numeral.ofDecimal? digits).filter (· = 0)
  | digits => (Numeral.ofDecimal? digits).filter (· < bound)

def path? (bs : Bytes) : Option Path := if bs.isEmpty then none else some bs

def optional {α : Type} (args : Arguments) (spec : OptionSpec) (read : Bytes → Option α) :
    Option (Option α) :=
  match args.value? spec.long with
  | none => some none
  | some value => (read value).map some

def input? (args : Arguments) : Option Path :=
  match args.operands with
  | [input] => path? input
  | _ => none

def build? (args : Arguments) : Option Command := do
  return .build (← input? args) (← optional args outputOption path?)
    (args.isSet verboseOption.long)

/-- A configuration file excludes the options for a single memory, and a range needs a width. -/
def run? (args : Arguments) : Option Command := do
  let input ← input? args
  let maxClocks ← optional args clocksOption (number? UInt32.size)
  let maxClocks := maxClocks.getD standardClocks
  let file ← optional args configOption path?
  let bits ← optional args bitsOption (number? 256)
  let range ← optional args rangeOption (·.text?)
  match file, bits, range with
  | some path, none, none => return .run input maxClocks (.file path)
  | none, none, none => return .run input maxClocks (.given .standard)
  | none, some bits, range => return .run input maxClocks (.given ⟨[⟨bits, range⟩]⟩)
  | _, _, _ => none

def parse? : List Bytes → Option Command
  | name :: rest =>
    if name = .ofText "build".toList then Arguments.parse? [outputOption, verboseOption] rest >>= build?
    else if name = .ofText "run".toList then
      Arguments.parse? [clocksOption, configOption, bitsOption, rangeOption] rest >>= run?
    else none
  | [] => none

end Command

end Octet
