/-
Names as they are displayed.

A displayed name has no namespaces, writes framework types by their keywords and
puts a space after the comma between two arguments.
-/
import ApiSurface.Name.Arity

namespace ApiSurface.Name

/-! ### Keywords -/

/-- The framework types that have a keyword. -/
def keywords : List (String × String) :=
  [("System.Boolean", "bool"), ("System.Char", "char"), ("System.Byte", "byte"),
    ("System.SByte", "sbyte"), ("System.UInt16", "ushort"), ("System.Int16", "short"),
    ("System.UInt32", "uint"), ("System.Int32", "int"), ("System.UInt64", "ulong"),
    ("System.Int64", "long"), ("System.Single", "float"), ("System.Double", "double"),
    ("System.Decimal", "decimal"), ("System.String", "string"), ("System.Object", "object"),
    ("System.ValueType", "struct"), ("System.Enum", "enum"), ("System.Void", "void")]

/-- The keyword of a framework type. -/
def keyword? (fullName : String) : Option String := keywords.lookup fullName

/-- A letter, digit or underscore of ASCII. -/
def isWordChar (c : Char) : Bool := c.isAlphanum || c = '_'

/-- A character of a dotted, mangled name. -/
def isTokenChar (c : Char) : Bool := isWordChar c || c = '.' || c = arityMark

/-- The keyword of a token that is the full name of a framework type, and any other token as it
is. -/
def friendlyToken (token : List Char) : List Char :=
  match keyword? (String.ofList token) with
  | some keyword => keyword.toList
  | none => token

/-- Replaces the tokens of a text, `current` being the reversed token read so far. -/
def friendlyFrom (current : List Char) : List Char → List Char
  | [] => friendlyToken current.reverse
  | c :: rest =>
    if isTokenChar c then friendlyFrom (c :: current) rest
    else friendlyToken current.reverse ++ c :: friendlyFrom [] rest

/-- The text with every maximal token that is the full name of a framework type replaced by its
keyword. -/
def friendlyChars (text : List Char) : List Char := friendlyFrom [] text

/-! ### Namespaces -/

/-- Drops qualifiers, `current` being the reversed word read so far: a word is a qualifier if a
dot follows it, and the dot goes with it. -/
def unqualifyFrom (current : List Char) : List Char → List Char
  | [] => current.reverse
  | c :: rest =>
    if isWordChar c then unqualifyFrom (c :: current) rest
    else if c = '.' ∧ ¬current.isEmpty then unqualifyFrom [] rest
    else current.reverse ++ c :: unqualifyFrom [] rest

/-- The text with a space after every comma that a word character follows. -/
def spaceArguments : List Char → List Char
  | [] => []
  | [c] => [c]
  | c :: d :: rest =>
    if c = ',' ∧ Text.isWordCharacter d then ',' :: ' ' :: spaceArguments (d :: rest)
    else c :: spaceArguments (d :: rest)

/-- The text without qualifiers, its arguments spaced out. -/
def unqualifyChars (text : List Char) : List Char := spaceArguments (unqualifyFrom [] text)

/-- The last line of a text loses what follows its last dot and the dot; a text whose last line
has no dot stays as it is. -/
def dropLastName (text : List Char) : List Char :=
  let lines := Text.cutLast '\n' text
  let last := (lines.map Prod.snd).getD text
  let earlier := (lines.map fun cut => cut.1 ++ ['\n']).getD []
  match Text.cutLast '.' last with
  | some (space, _) => earlier ++ space
  | none => text

/-! ### On text -/

/-- The name with keywords for framework types. -/
def friendly (name : String) : String := String.ofList (friendlyChars name.toList)

/-- The name without namespaces, its arguments spaced out. -/
def unqualified (name : String) : String := String.ofList (unqualifyChars name.toList)

/-- The namespace of a mangled name: what stands before the last dot. -/
def spaceOf (name : String) : String :=
  if '.' ∈ name.toList then String.ofList (dropLastName name.toList) else ""

/-- The displayed form of a localized full name. -/
def display (fullName : String) : String :=
  Text.swap '/' '.' (unqualified (friendly fullName))

end ApiSurface.Name
