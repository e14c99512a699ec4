/-
Quoted literals: text between two delimiters, with escapes.

A backslash, the delimiter and four control characters are written with a
backslash before them; everything else stands for itself.
-/
namespace ApiSurface.Text

/-- The text that stands for one character between delimiters. -/
def escapeChar (delimiter c : Char) : List Char :=
  if c = '\\' then ['\\', '\\']
  else if c = Char.ofNat 0 then ['\\', '0']
  else if c = '\n' then ['\\', 'n']
  else if c = '\r' then ['\\', 'r']
  else if c = '\t' then ['\\', 't']
  else if c = delimiter then ['\\', c]
  else [c]

/-- The text with every character escaped that needs it. -/
def escape (delimiter : Char) (text : List Char) : List Char :=
  text.flatMap (escapeChar delimiter)

/-- A literal: the escaped text between two delimiters. -/
def quote (delimiter : Char) (text : String) : String :=
  String.ofList (delimiter :: escape delimiter text.toList ++ [delimiter])

end ApiSurface.Text
