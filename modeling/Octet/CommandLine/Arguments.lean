import Octet.Text.Bytes

/-! # Arguments

The arguments of a command are options and the rest. An option has a long name and perhaps a letter;
its value stands behind an equals sign, directly behind the letter, or in the next argument. Letters
may be joined, `--` ends the options, and no option is given twice.
-/

namespace Octet

open Bytes (dash equals)

structure OptionSpec where
  long : Bytes
  letter : Option Byte
  takesValue : Bool
deriving DecidableEq, Repr

/-- What was given: options by their long names, with a value if they take one, and the rest. -/
structure Arguments where
  options : List (Bytes × Option Bytes)
  operands : List Bytes
deriving DecidableEq, Repr

namespace Arguments

def empty : Arguments := ⟨[], []⟩

def isSet (args : Arguments) (long : Bytes) : Bool := (args.options.lookup long).isSome

def value? (args : Arguments) (long : Bytes) : Option Bytes := (args.options.lookup long).join

def give (args : Arguments) (long : Bytes) (value : Option Bytes) : Option Arguments :=
  if args.isSet long then none else some { args with options := args.options ++ [(long, value)] }

/-- The arguments read so far, and what the next one is taken for. -/
structure Reading where
  args : Arguments
  /-- The option whose value the next argument has to be. -/
  awaiting : Option Bytes
  /-- Whether the options have ended. -/
  ended : Bool

namespace Reading

def start : Reading := ⟨.empty, none, false⟩

def operand (r : Reading) (arg : Bytes) : Reading :=
  { r with args := { r.args with operands := r.args.operands ++ [arg] } }

def give (r : Reading) (long : Bytes) (value : Option Bytes) : Option Reading :=
  (r.args.give long value).map fun args => { r with args, awaiting := none }

/-- Reads joined letters, the last of which may be followed by its value. -/
def letters (specs : List OptionSpec) (r : Reading) : Bytes → Option Reading
  | [] => some r
  | c :: rest =>
    match specs.find? (·.letter == some c) with
    | none => none
    | some spec =>
      if spec.takesValue then
        match rest with
        | [] => some { r with awaiting := some spec.long }
        | equals :: value => r.give spec.long (some value)
        | value => r.give spec.long (some value)
      else do (← r.give spec.long none).letters specs rest

/-- Reads the name of an option, and its value if there is an equals sign. -/
def long (specs : List OptionSpec) (r : Reading) (arg : Bytes) : Option Reading :=
  match specs.find? (·.long == arg.takeWhile (· != equals)), arg.dropWhile (· != equals) with
  | none, _ => none
  | some spec, [] =>
    if spec.takesValue then some { r with awaiting := some spec.long } else r.give spec.long none
  | some spec, _ :: value => if spec.takesValue then r.give spec.long (some value) else none

def step (specs : List OptionSpec) (r : Reading) (arg : Bytes) : Option Reading :=
  if r.ended then some (r.operand arg)
  else match r.awaiting, arg with
  | some name, [dash] => r.give name (some [dash])
  | some _, dash :: _ => none
  | some name, _ => r.give name (some arg)
  | none, [dash] => some (r.operand arg)
  | none, [dash, dash] => some { r with ended := true }
  | none, dash :: dash :: rest => r.long specs rest
  | none, dash :: rest => r.letters specs rest
  | none, _ => some (r.operand arg)

end Reading

/-- Reads the arguments of a command; an option that still waits for its value is an error. -/
def parse? (specs : List OptionSpec) (args : List Bytes) : Option Arguments := do
  let r ← args.foldlM (Reading.step specs) .start
  match r.awaiting with
  | some _ => none
  | none => some r.args

end Arguments

end Octet
