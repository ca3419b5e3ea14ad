import Stencil.Settings

/-! # Scene descriptors

A scene descriptor is a line of pairs `key=value` separated by colons, such as
`effect2d:matrix=1,1;1,1:normalize=true`.  Its first piece may name the scene instead of giving a
pair.  The pairs are applied from left to right; the first piece that cannot be applied ends this,
and the pairs before it stay applied.
-/

namespace Stencil.Scene

open Text

/-- The name that usually heads a descriptor. -/
def name : String := "effect2d"

/-- The pieces of a descriptor without the blanks around them. -/
def pieces (descriptor : String) : List (List Char) := (split ':' descriptor.toList).map trim

/-- Applies one piece.  A blank piece changes nothing, and neither does a name at the head. -/
def applyPiece (s : Settings) (isHead : Bool) (piece : List Char) :
    Except Settings.Error Settings :=
  if piece.isEmpty then .ok s
  else match splitFirst? '=' piece with
    | some (key, value) => s.set (String.ofList key) (String.ofList value)
    | none => if isHead then .ok s else .error (.invalidOption (String.ofList piece) "")

/-- Applies pieces from left to right: the settings after it, and the error that ended it. -/
def applyPieces (s : Settings) (isHead : Bool) :
    List (List Char) → Settings × Option Settings.Error
  | [] => (s, none)
  | piece :: rest =>
    match applyPiece s isHead piece with
    | .ok changed => applyPieces changed false rest
    | .error e => (s, some e)

/-- Applies a descriptor to settings. -/
def apply (descriptor : String) (s : Settings) : Settings × Option Settings.Error :=
  applyPieces s true (pieces descriptor)

/-- The settings that a descriptor gives. -/
def parse (descriptor : String) : Except Settings.Error Settings :=
  match apply descriptor .standard with
  | (s, none) => .ok s
  | (_, some e) => .error e

end Stencil.Scene
