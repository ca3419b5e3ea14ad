import Stencil.Text.Escaped

/-! # Quoted texts

A text inside a message stands in double quotes.  Quotes, backslashes and the usual control
characters are written with a backslash, and characters without a form of their own by number.
-/

namespace Stencil.Text

/-- A character as it stands between double quotes. -/
def quotedChar (c : Char) : List Char :=
  match c.toNat with
  | 0x0 => ['\x5c', '0']
  | 0x9 => ['\x5c', 't']
  | 0xa => ['\x5c', 'n']
  | 0xd => ['\x5c', 'r']
  | 0x22 => ['\x5c', '\x22']
  | 0x5c => ['\x5c', '\x5c']
  | n => if isEscaped c then "\\u\x7b".toList ++ Nat.toDigits 16 n ++ ['\x7d'] else [c]

/-- A text in double quotes. -/
def quoted (s : String) : String :=
  String.ofList ('\x22' :: s.toList.flatMap quotedChar ++ ['\x22'])

end Stencil.Text
