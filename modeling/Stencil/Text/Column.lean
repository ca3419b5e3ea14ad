/-! # Columns

Texts filled up with spaces to the width of a column; a longer text is left as it is.
-/

namespace Stencil.Text

/-- A text at the right end of its column. -/
def alignRight (width : Nat) (s : String) : String :=
  String.ofList (List.replicate (width - s.length) ' ' ++ s.toList)

/-- A text at the left end of its column. -/
def alignLeft (width : Nat) (s : String) : String :=
  String.ofList (s.toList ++ List.replicate (width - s.length) ' ')

end Stencil.Text
