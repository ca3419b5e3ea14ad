import Stencil.Files.Basic

/-! # Directories

A directory tree held in memory: the bytes of its files by path.  A path is the list of names from
the root, and a directory exists if a file stands below it or it is the root.  Reading and writing
answer as a file system would.  It is one system of files among others, and a small one: there are no
empty directories, permissions, links or devices.
-/

namespace Stencil

/-- A file with the names that lead to it. -/
structure FileEntry where
  names : List String
  bytes : ByteArray

/-- A directory tree. -/
structure Directory where
  files : List FileEntry

namespace Directory

/-- What a path leads to.  A path that ends in a slash but leads to no directory is `closed`:
reading it fails with the given error, and nothing can be created there. -/
inductive Place where
  | file (names : List String)
  | directory
  | missing (names : List String)
  | closed (cause : FileError)
  | error (cause : FileError)

/-- The names of a path.  Empty names come from doubled slashes. -/
def pathNames (path : String) : List String := path.splitOn "/"

/-- The bytes of the file that the names lead to. -/
def find? (d : Directory) (names : List String) : Option ByteArray :=
  (d.files.find? fun entry => entry.names == names).map FileEntry.bytes

/-- Whether the names lead to a directory. -/
def isDirectory (d : Directory) (names : List String) : Bool :=
  names.isEmpty || d.files.any fun entry => names.isPrefixOf entry.names && entry.names != names

/-- Why the names do not lead to a directory. -/
def refusal (d : Directory) (names : List String) : FileError :=
  if names.any fun name => 255 < name.utf8ByteSize then .nameTooLong
  else if (d.find? names).isSome then .notDirectory
  else .notFound

/-- What the names lead to as the end of a path. -/
def target (d : Directory) (names : List String) : Place :=
  match d.refusal names with
  | .notDirectory => .file names
  | .notFound => .missing names
  | cause => .error cause

/-- Follows names from a directory.  All but the last have to lead to directories. -/
def follow (d : Directory) (here : List String) : List String → Place
  | [] => .directory
  | name :: rest =>
    if name = "" ∨ name = "." then d.follow here rest
    else if name = ".." then d.follow here.dropLast rest
    else
      let there := here ++ [name]
      if d.isDirectory there then d.follow there rest
      else if rest.isEmpty then d.target there
      else if rest.all (· = "") then .closed (d.refusal there)
      else .error (d.refusal there)

/-- What a path leads to. -/
def locate (d : Directory) (path : String) : Place :=
  if path.contains '\x00' then .error .nulInPath
  else if path = "" then .error .notFound
  else if 4096 ≤ path.utf8ByteSize then .error .nameTooLong
  else d.follow [] (pathNames path)

/-- The text of a file. -/
def read (d : Directory) (path : String) : Except FileError String :=
  match d.locate path with
  | .file names =>
    match (d.find? names).bind String.fromUTF8? with
    | some text => .ok text
    | none => .error .notText
  | .directory => .error .isDirectory
  | .missing _ => .error .notFound
  | .closed cause => .error cause
  | .error cause => .error cause

/-- Replaces the file that the names lead to. -/
def put (d : Directory) (names : List String) (text : String) : Directory :=
  ⟨d.files.filter (fun entry => entry.names != names) ++ [⟨names, text.toUTF8⟩]⟩

/-- Replaces a file by a text. -/
def write (d : Directory) (path text : String) : Except FileError Directory :=
  match d.locate path with
  | .file names => .ok (d.put names text)
  | .missing names => .ok (d.put names text)
  | .directory => .error .isDirectory
  | .closed _ => .error .isDirectory
  | .error cause => .error cause

/-- The operations on files, carried out on a directory tree. -/
def access : FileAccess (StateM Directory) where
  read path := do return (← get).read path
  write path text := do
    match (← get).write path text with
    | .ok changed =>
      set changed
      return .ok ()
    | .error cause => return .error cause

end Directory

end Stencil
