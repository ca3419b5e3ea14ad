import Stencil.Cli.Run

/-! # The program

Runs the command line on the operating system.
-/

namespace Stencil

/-- The file error with an error number of the system. -/
def FileError.ofCode (code : UInt32) (message : String) : FileError :=
  match code.toNat with
  | 2 => .notFound
  | 13 => .permissionDenied
  | 20 => .notDirectory
  | 21 => .isDirectory
  | 36 => .nameTooLong
  | _ => .other message

/-- The file error that a failed operation of the system amounts to. -/
def FileError.ofSystem (e : IO.Error) : FileError :=
  match e with
  | .noFileOrDirectory _ code _ => .ofCode code (toString e)
  | .inappropriateType _ code _ => .ofCode code (toString e)
  | .invalidArgument _ code _ => .ofCode code (toString e)
  | .permissionDenied _ code _ => .ofCode code (toString e)
  | .otherError code _ => .ofCode code (toString e)
  | _ => .other (toString e)

/-- The text of a file of the system. -/
def readSystemFile (path : String) : IO (Except FileError String) := do
  try
    let bytes ← IO.FS.readBinFile path
    match String.fromUTF8? bytes with
    | some text => return .ok text
    | none => return .error .notText
  catch e => return .error (.ofSystem e)

/-- Replaces a file of the system. -/
def writeSystemFile (path text : String) : IO (Except FileError Unit) := do
  try
    IO.FS.writeFile path text
    return .ok ()
  catch e => return .error (.ofSystem e)

/-- The operations of the system. -/
def operatingSystem : System IO where
  read := readSystemFile
  write := writeSystemFile
  print := IO.print

end Stencil

/-- Runs the program with the given arguments. -/
def main (arguments : List String) : IO UInt32 := do
  let status ← Stencil.Cli.program .standard Stencil.operatingSystem arguments
  IO.eprint status.errors
  return UInt32.ofNat status.exitCode
