import Octet.Json.Parser
import Octet.Json.Printer
import Octet.Machine.Basic
import Octet.Memory
import Octet.RangeLimiter

/-! # Machine configurations

A configuration lists memories, each with its width and perhaps the range of addresses that it
answers. The machine that it describes has those memories in that order, each behind a range limiter;
without a range the limiter lets everything pass. In the JSON form every field may be missing.
-/

namespace Octet

structure MemoryConfig where
  addressBits : Nat
  range : Option Text
deriving DecidableEq, Repr

structure MachineConfig where
  memories : List MemoryConfig
deriving DecidableEq, Repr

namespace MemoryConfig

/-- A memory with a cell for every address, with no range. -/
def standard : MemoryConfig := ⟨16, none⟩

def device (config : MemoryConfig) : Except ConfigError (RangeLimiter Memory) := do
  let memory ← Memory.zeroed config.addressBits
  match config.range with
  | none => return .unlimited memory
  | some range => return .limited memory (← AddressRange.ofText range)

def fieldNames : List Text := ["address_bits".toList, "range_prefix".toList]

def toJson (config : MemoryConfig) : Json :=
  let range := match config.range with
    | some range => .ofText range
    | none => .null
  .object [("address_bits".toList.map .char, .ofNat config.addressBits),
    ("range_prefix".toList.map .char, range)]

def ofJson? (v : Json) : Option MemoryConfig := do
  match ← v.fields? fieldNames with
  | [bits, range] =>
    let bits ← match bits with
      | some bits => bits.natBelow? 256
      | none => some standard.addressBits
    let range ← match range with
      | none | some .null => some none
      | some range => range.textValue?.map some
    return ⟨bits, range⟩
  | _ => none

end MemoryConfig

namespace MachineConfig

def standard : MachineConfig := ⟨[.standard]⟩

/-- The devices of the machine; the first memory that cannot be made decides the error. -/
def devices (config : MachineConfig) : Except ConfigError (List (RangeLimiter Memory)) :=
  config.memories.mapM (·.device)

def machine (config : MachineConfig) : Except ConfigError (Machine (RangeLimiter Memory)) :=
  config.devices.map .ofDevices

def fieldNames : List Text := ["memories".toList]

def toJson (config : MachineConfig) : Json :=
  .object [("memories".toList.map .char, .array (config.memories.map (·.toJson)))]

def ofJson? (v : Json) : Option MachineConfig := do
  match ← v.fields? fieldNames with
  | [some memories] => return ⟨← (← memories.array?).mapM MemoryConfig.ofJson?⟩
  | [none] => some standard
  | _ => none

def parse? (t : Text) : Option MachineConfig := do ofJson? (← Json.parse? t)

end MachineConfig

end Octet
