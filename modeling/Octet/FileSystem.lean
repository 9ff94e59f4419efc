import Octet.Path

/-! # Files

What a program needs of files is to read one and to write one whole (`FileAccess`). A `FileSystem` is
a world in which it can do so: files by their locations, with a directory wherever a file has one
above it. A path is walked name by name from the working directory, or from the root if it is
absolute.
-/

namespace Octet

inductive FileError where
  | notFound
  | notDirectory
  | isDirectory
  | other (message : String)
deriving DecidableEq, Repr

def FileError.message : FileError → String
  | .notFound => "No such file or directory (os error 2)"
  | .notDirectory => "Not a directory (os error 20)"
  | .isDirectory => "Is a directory (os error 21)"
  | .other message => message

/-- The two operations on files, each of which may fail. -/
structure FileAccess (m : Type → Type) where
  read : Path → m (Except FileError ByteArray)
  write : Path → ByteArray → m (Except FileError Unit)

/-- The names that lead to a file or a directory from the working directory. Above this are the
locations of `..` only, and the root has a location of its own. -/
abbrev Location := List Bytes

abbrev FileSystem := List (Location × ByteArray)

namespace FileSystem

open Bytes (dot slash)

inductive Node where
  | file (content : ByteArray)
  | directory

def rootLocation : Location := [[slash]]

/-- Whether the location is that of a directory which is there without any file in it. -/
def isFixed (l : Location) : Bool := l == rootLocation || l.all (· == [dot, dot])

def node? (fs : FileSystem) (l : Location) : Option Node :=
  match fs.lookup l with
  | some content => some (.file content)
  | none =>
    if isFixed l || fs.any fun f => l.isPrefixOf f.1 then some .directory else none

def parent (l : Location) : Location :=
  if l == rootLocation then l else if isFixed l then l ++ [[dot, dot]] else l.dropLast

def enter (l : Location) (name : Bytes) : Location :=
  if name = [dot] then l else if name = [dot, dot] then parent l else l ++ [name]

def walk (fs : FileSystem) (l : Location) : List Bytes → Except FileError Location
  | [] => .ok l
  | name :: rest =>
    match fs.node? (enter l name) with
    | some .directory => walk fs (enter l name) rest
    | some (.file _) => .error .notDirectory
    | none => .error .notFound

/-- The location that a path leads to, whose last name need not be there. -/
def locate (fs : FileSystem) (path : Path) : Except FileError Location := do
  let start : Location := if Path.isAbsolute path then rootLocation else []
  match (Path.names path).reverse with
  | [] => return start
  | last :: before => return enter (← fs.walk start before.reverse) last

def read (fs : FileSystem) (path : Path) : Except FileError ByteArray := do
  match fs.node? (← fs.locate path) with
  | none => .error .notFound
  | some .directory => .error .isDirectory
  | some (.file content) => if Path.endsInSlash path then .error .notDirectory else .ok content

/-- Puts a content at a location, in place of the one that was there. -/
def put : FileSystem → Location → ByteArray → FileSystem
  | [], l, content => [(l, content)]
  | f :: fs, l, content => if f.1 = l then (l, content) :: fs else f :: put fs l content

def write (fs : FileSystem) (path : Path) (content : ByteArray) : Except FileError FileSystem := do
  let l ← fs.locate path
  match fs.node? l with
  | some .directory => .error .isDirectory
  | _ => if Path.endsInSlash path then .error .isDirectory else .ok (fs.put l content)

theorem lookup_put (fs : FileSystem) (l k : Location) (content : ByteArray) :
    (fs.put l content).lookup k = if k = l then some content else fs.lookup k := by
  induction fs with
  | nil =>
    by_cases h : k = l
    · simp [put, h]
    · simp [put, h]
  | cons f fs ih =>
    obtain ⟨l', c⟩ := f
    by_cases hl : l' = l
    · subst hl
      by_cases hk : k = l'
      · simp [put, hk]
      · simp [put, List.lookup_cons, hk, beq_eq_false_iff_ne.2 hk]
    · by_cases hk : k = l'
      · subst hk
        simp [put, hl]
      · simp [put, List.lookup_cons, hl, beq_eq_false_iff_ne.2 hk, ih]

def access : FileAccess (StateM FileSystem) where
  read path := do return (← get).read path
  write path content := do
    match (← get).write path content with
    | .ok fs => set fs; return .ok ()
    | .error e => return .error e

end FileSystem

end Octet
