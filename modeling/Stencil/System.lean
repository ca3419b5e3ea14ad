import Stencil.Files.Basic

/-! # Systems

What the program asks of the system that it runs on: its files, and a standard output.  The operations
are the fields of records, so the program runs in any monad that has them.  A text that is printed
stays printed, whatever happens after it.

A `Session` is a system in memory: the state of some files, and what has been printed so far.
-/

namespace Stencil

/-- A standard output. -/
structure Console (m : Type → Type) where
  /-- Prints a text behind what has been printed before. -/
  print : String → m Unit

/-- Keeps what is printed. -/
def Console.transcript : Console (StateM String) := ⟨fun text => modify (· ++ text)⟩

/-- The operations of a system: those on files, and a standard output. -/
structure System (m : Type → Type) extends FileAccess m, Console m

/-- Files in some state, and what has been printed. -/
structure Session (σ : Type) where
  files : σ
  printed : String

namespace Session

variable {σ α : Type}

/-- An operation on the files of a session. -/
def onFiles (x : StateM σ α) : StateM (Session σ) α := fun s =>
  let (a, files) := StateT.run x s.files
  (a, { s with files })

/-- An operation on what has been printed in a session. -/
def onPrinted (x : StateM String α) : StateM (Session σ) α := fun s =>
  let (a, printed) := StateT.run x s.printed
  (a, { s with printed })

end Session

/-- The operations on files, with a standard output that keeps what is printed. -/
def FileAccess.session {σ : Type} (files : FileAccess (StateM σ)) : System (StateM (Session σ)) where
  read path := Session.onFiles (files.read path)
  write path text := Session.onFiles (files.write path text)
  print text := Session.onPrinted (Console.transcript.print text)

end Stencil
