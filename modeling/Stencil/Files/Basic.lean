/-! # Files

What the program asks of a file system: the text of a file, and to replace a file by a text.  The
two operations are the fields of `FileAccess`, so the program runs in any monad that has them.
-/

namespace Stencil

/-- Why a file cannot be read or written. -/
inductive FileError where
  | notFound
  | isDirectory
  | notDirectory
  | nameTooLong
  | permissionDenied
  /-- The path holds the character that ends paths. -/
  | nulInPath
  /-- The bytes are no text. -/
  | notText
  | other (message : String)
deriving DecidableEq, Repr

/-- The wording of a file error; those of the system carry its error number. -/
def FileError.message : FileError → String
  | .notFound => "No such file or directory (os error 2)"
  | .isDirectory => "Is a directory (os error 21)"
  | .notDirectory => "Not a directory (os error 20)"
  | .nameTooLong => "File name too long (os error 36)"
  | .permissionDenied => "Permission denied (os error 13)"
  | .nulInPath => "file name contained an unexpected NUL byte"
  | .notText => "stream did not contain valid UTF-8"
  | .other message => message

/-- The operations on files, by path. -/
structure FileAccess (m : Type → Type) where
  /-- The text of a file. -/
  read : String → m (Except FileError String)
  /-- Replaces a file by a text. -/
  write : String → String → m (Except FileError Unit)

end Stencil
