/-
Trimming text and collapsing its white space.
-/
import ApiSurface.Text.CharClass
import ApiSurface.Text.Basic

namespace ApiSurface.Text

/-- The text without the blanks at both ends. -/
def trim (text : List Char) : List Char :=
  ((text.dropWhile isBlank).reverse.dropWhile isBlank).reverse

/-- The words of a text, `current` being the reversed word read so far. -/
def wordsFrom (current : List Char) : List Char → List (List Char)
  | [] => if current.isEmpty then [] else [current.reverse]
  | c :: rest =>
    if isBlank c then
      if current.isEmpty then wordsFrom [] rest else current.reverse :: wordsFrom [] rest
    else wordsFrom (c :: current) rest

/-- The maximal runs of characters that are not blank. -/
def words (text : List Char) : List (List Char) := wordsFrom [] text

/-- The words of a text with one space between neighbours. -/
def collapse (text : List Char) : String := join " " ((words text).map String.ofList)

/-- The trimmed text as a `String`. -/
def trimmed (text : String) : String := String.ofList (trim text.toList)

theorem length_trim_le (text : List Char) : (trim text).length ≤ text.length := by
  have h (l : List Char) : (l.dropWhile isBlank).length ≤ l.length :=
    (List.dropWhile_sublist isBlank).length_le
  have h₁ := h (text.dropWhile isBlank).reverse
  have h₂ := h text
  simp only [trim, List.length_reverse] at *
  omega

end ApiSurface.Text
