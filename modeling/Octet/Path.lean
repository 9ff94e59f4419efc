import Octet.Text.Bytes

/-! # Paths

A path is a string of bytes in which slashes separate names. `directory` and `name` cut it behind its
last slash, so they join to the path (`directory_append_name`). What a path says at its end of the
directory itself does not count for the name of its file, and the stem of a name ends before its last
dot.
-/

namespace Octet

abbrev Path := Bytes

namespace Path

open Bytes (dot slash)

def directory (path : Path) : Path := (path.reverse.dropWhile (· != slash)).reverse

def name (path : Path) : Bytes := (path.reverse.takeWhile (· != slash)).reverse

theorem directory_append_name (path : Path) : directory path ++ name path = path := by
  rw [directory, name, ← List.reverse_append, List.takeWhile_append_dropWhile, List.reverse_reverse]

/-- A name up to its last dot; a dot at its beginning does not count. -/
def stem (name : Bytes) : Bytes :=
  match (name.reverse.dropWhile (· != dot)).tail.reverse with
  | [] => name
  | stem => stem

/-- Takes away, from the end of a reversed path, slashes and names that stand for the directory
itself. -/
def trimReversed : Path → Path
  | [] => []
  | b :: rest =>
    if b = slash ∨ b = dot ∧ rest.head? = some slash then trimReversed rest else b :: rest

def core (path : Path) : Path := (trimReversed path.reverse).reverse

/-- A directory as it is written before a name: with one slash, and none if it is empty. -/
def tidy (directory : Path) : Path :=
  match directory with
  | [] => []
  | _ => core directory ++ [slash]

/-- The name of the file that the path leads to. There is none if it ends in a step upwards, or in the
directory that it begins in. -/
def fileName? (path : Path) : Option Bytes :=
  let last := name (core path)
  if last = [] ∨ last = [dot] ∨ last = [dot, dot] then none else some last

def endsInSlash (path : Path) : Bool := path.getLast? == some slash

def join (path : Path) (newName : Bytes) : Path :=
  if path.isEmpty || endsInSlash path then path ++ newName else path ++ slash :: newName

def withName (path : Path) (newName : Bytes) : Path :=
  match fileName? path with
  | some _ => tidy (directory (core path)) ++ newName
  | none => join path newName

/-- Where the image of a source goes if nothing else is said. A stem that is no text does not count. -/
def defaultOutput (input : Path) : Path :=
  let stem := ((fileName? input).bind fun name => (stem name).text?).getD "out".toList
  withName input (.ofText (stem ++ ".json".toList))

def names (path : Path) : List Bytes := (path.splitOn slash).filter (!·.isEmpty)

def isAbsolute (path : Path) : Bool := path.head? == some slash

end Path

end Octet
