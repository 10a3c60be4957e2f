import MiniScheme.Text.Bytes

/-! Files named on the command line. -/
namespace MiniScheme.Cli

inductive FileError where
  | notFound
  | notDirectory
  | isDirectory
deriving DecidableEq, Repr

def FileError.message (path : Bytes) : FileError → Bytes
  | notFound => ascii "open " ++ path ++ ascii ": no such file or directory"
  | notDirectory => ascii "open " ++ path ++ ascii ": not a directory"
  | isDirectory => ascii "read " ++ path ++ ascii ": is a directory"

def slash : UInt8 := 0x2F

/-- The parts of a path between slashes. -/
def components (path : Bytes) : List Bytes :=
  path.foldr
    (fun b parts =>
      if b = slash then [] :: parts
      else
        match parts with
        | [] => [[b]]
        | part :: rest => (b :: part) :: rest)
    [[]]

/-- The last part of a path that is not empty; a path of slashes alone is one slash, and the empty
path a dot. -/
def baseName (path : Bytes) : Bytes :=
  if path = [] then ascii "."
  else ((components path).filter (· ≠ [])).getLast?.getD [slash]

/-- A working directory: the files in it, by path. -/
abbrev Directory := List (Bytes × Bytes)

namespace Directory

/-- Where a path leads: to a place below the working directory, or out of it. -/
inductive Place where
  | inside (parts : List Bytes)
  | outside
deriving DecidableEq, Repr

inductive Node where
  | file (content : Bytes)
  | directory
deriving DecidableEq, Repr

/-- The node at a place. A place above a file is a directory. -/
def node? (d : Directory) : Place → Option Node
  | .outside => some .directory
  | .inside parts =>
    match d.find? fun (path, _) => components path = parts with
    | some (_, content) => some (.file content)
    | none =>
      if parts = [] ∨ d.any (fun (path, _) => parts.isPrefixOf (components path)) then
        some .directory
      else none

/-- Follows one part of a path. -/
def follow (d : Directory) (place : Place) (part : Bytes) : Except FileError Place :=
  match d.node? place with
  | none => .error .notFound
  | some (.file _) => .error .notDirectory
  | some .directory =>
    if part = [] ∨ part = ascii "." then .ok place
    else
      match place with
      | .outside => if part = ascii ".." then .ok .outside else .error .notFound
      | .inside parts =>
        if part = ascii ".." then .ok (if parts = [] then .outside else .inside parts.dropLast)
        else .ok (.inside (parts ++ [part]))

/-- The content of the file that a path leads to. -/
def read (d : Directory) (path : Bytes) : Except FileError Bytes :=
  if path = [] then .error .notFound
  else do
    let start : Place := if path.head? = some slash then .outside else .inside []
    let place ← (components path).foldlM d.follow start
    match d.node? place with
    | none => .error .notFound
    | some .directory => .error .isDirectory
    | some (.file content) => .ok content

end Directory

end MiniScheme.Cli
