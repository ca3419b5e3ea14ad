import Stencil.Proofs.Files.Directory
import Stencil.System

/-!
# Laws of systems

The program runs on any system.  What is proved about its runs rests on a few laws, stated about what
can be observed of the states of a system: the text that has been printed, the file that a path leads
to, and the bytes of a file.  Nothing else is said about states, so they may hold directories,
permissions and times as well.  A file can be reached by several paths, as links allow.

A device is something that a path leads to and that need not keep what is written to it.  Nothing is
assumed about writing to one, and reading from one may use up what is read.

## Key results

- `System.IsLawful`: the laws
- `System.IsLawful.afterReading`: reading files is not observed
- `Directory.isLawful`: a directory in memory, with what has been printed, obeys the laws
-/

namespace Stencil

variable {σ ι ρ : Type}

/-! ## Answers -/

namespace FileAccess

/-- What reading a path gives in a state. -/
def answer (files : FileAccess (StateM σ)) (s : σ) (path : String) : Except FileError String :=
  (StateT.run (files.read path) s).1

/-- The state in which a file has been read, if there is one to be read. -/
def afterReading (files : FileAccess (StateM σ)) (s : σ) : Option String → σ
  | none => s
  | some path => (StateT.run (files.read path) s).2

/-- What writing a text to a path gives in a state. -/
def reply (files : FileAccess (StateM σ)) (s : σ) (path text : String) : Except FileError Unit :=
  (StateT.run (files.write path text) s).1

/-- The state in which a text has been written to a path, or could not be. -/
def afterWriting (files : FileAccess (StateM σ)) (s : σ) (path text : String) : σ :=
  (StateT.run (files.write path text) s).2

end FileAccess

/-- The state in which a text has been printed. -/
def Console.afterPrinting (console : Console (StateM σ)) (s : σ) (text : String) : σ :=
  (StateT.run (console.print text) s).2

/-! ## Observations -/

/-- The files of a system. -/
structure FileView (ι : Type) where
  /-- The file that a path leads to. -/
  file? : String → Option ι
  /-- The bytes of a file. -/
  bytes? : ι → Option ByteArray
  /-- Whether a path leads to a device. -/
  IsDevice : String → Prop

/-- What can be observed of the states of a system. -/
structure View (σ ι : Type) where
  printed : σ → String
  files : σ → FileView ι

namespace View

/-- Nothing was printed, and no file was created or changed, between two states. -/
structure Unchanged (view : View σ ι) (before after : σ) : Prop where
  printed : view.printed after = view.printed before
  files : view.files after = view.files before

/-- Between two states a text was printed, and no file was created or changed. -/
structure Printed (view : View σ ι) (text : String) (before after : σ) : Prop where
  printed : view.printed after = view.printed before ++ text
  files : view.files after = view.files before

/-- Between two states a text was stored: the path leads to a file that holds exactly this text,
    nothing was printed, and no other file was changed. -/
structure Stored (view : View σ ι) (path text : String) (before after : σ) : Prop where
  printed : view.printed after = view.printed before
  files : ∃ file, (view.files after).file? path = some file ∧
    (view.files after).bytes? file = some text.toUTF8 ∧
    ∀ other, other ≠ file → (view.files after).bytes? other = (view.files before).bytes? other

variable {view : View σ ι} {s t u : σ}

theorem Unchanged.refl (view : View σ ι) (s : σ) : view.Unchanged s s := ⟨rfl, rfl⟩

theorem Unchanged.trans (h : view.Unchanged s t) (h' : view.Unchanged t u) : view.Unchanged s u :=
  ⟨h'.printed.trans h.printed, h'.files.trans h.files⟩

end View

/-! ## The laws -/

/-- A standard output behaves as one: what is printed comes behind what has been printed before, and
    `rest` does not change. -/
structure Console.IsLawful (console : Console (StateM σ)) (printed : σ → String) (rest : σ → ρ) :
    Prop where
  printed : ∀ text s, printed (console.afterPrinting s text) = printed s ++ text
  rest : ∀ text s, rest (console.afterPrinting s text) = rest s

/-- A system behaves as one. -/
structure System.IsLawful (system : System (StateM σ)) (view : View σ ι) : Prop where
  /-- Reading prints nothing, and neither creates nor changes a file. -/
  read : ∀ path s, view.Unchanged s (system.afterReading s (some path))
  /-- A write that fails changes nothing. -/
  refused : ∀ path text s cause, system.reply s path text = .error cause →
    view.Unchanged s (system.afterWriting s path text)
  /-- A write that succeeds stores the text, unless the path leads to a device. -/
  stored : ∀ path text s, system.reply s path text = .ok () → ¬ (view.files s).IsDevice path →
    view.Stored path text s (system.afterWriting s path text)
  /-- Printing adds to what has been printed, and neither creates nor changes a file. -/
  print : system.toConsole.IsLawful view.printed view.files

/-- A transcript is a standard output. -/
theorem Console.transcript_isLawful : Console.transcript.IsLawful id fun _ => () :=
  ⟨fun _ _ => rfl, fun _ _ => rfl⟩

namespace System.IsLawful

variable {system : System (StateM σ)} {view : View σ ι}

/-- Reading a file, if there is one to be read, changes nothing. -/
theorem afterReading (h : system.IsLawful view) (s : σ) (path? : Option String) :
    view.Unchanged s (system.afterReading s path?) := by
  cases path? with
  | none => exact View.Unchanged.refl view s
  | some path => exact h.read path s

/-- A text is printed. -/
theorem afterPrinting (h : system.IsLawful view) (s : σ) (text : String) :
    view.Printed text s (system.afterPrinting s text) :=
  ⟨h.print.printed text s, h.print.rest text s⟩

end System.IsLawful

/-! ## Directories in memory -/

namespace Directory

/-- The file that a path leads to, by its names. -/
def file? (d : Directory) (path : String) : Option (List String) :=
  match d.locate path with
  | .file names => some names
  | _ => none

/-- What can be observed of a directory and what has been printed.  There are no devices. -/
def view : View (Session Directory) (List String) where
  printed := Session.printed
  files s := ⟨s.files.file?, s.files.find?, fun _ => False⟩

end Directory

end Stencil
