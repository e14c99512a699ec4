/-
The names of types.

A type stands at the top of a namespace or inside another type.  Its full name
separates nested types by `/`, and each segment may end in an arity mark, as in
``Game.Body`1/Part``.  A name may say which assembly defines the type: its scope.
-/
import ApiSurface.Text.Basic
import ApiSurface.Text.Size

namespace ApiSurface

/-- The mark between the plain name of a type and its arity. -/
def arityMark : Char := '\x60'

/-- The name of a type definition or of a reference to one. -/
inductive TypeName where
  /-- A type of a namespace; the namespace may be empty. -/
  | top (space name : String) (scope : Option String)
  /-- A type declared inside another one. -/
  | nested (outer : TypeName) (name : String) (scope : Option String)
  deriving DecidableEq, Repr

namespace TypeName

/-- The name of the innermost segment, arity mark included. -/
def name : TypeName → String
  | top _ name _ => name
  | nested _ name _ => name

/-- The assembly that defines the type, if the name says so. -/
def scope : TypeName → Option String
  | top _ _ scope => scope
  | nested _ _ scope => scope

/-- The enclosing type of a nested one. -/
def outer? : TypeName → Option TypeName
  | top .. => none
  | nested outer _ _ => some outer

/-- The namespace that the segment states itself: none for a nested type. -/
def space : TypeName → String
  | top space _ _ => space
  | nested .. => ""

/-- The same name, defined by the given assembly. -/
def withScope (assembly : String) : TypeName → TypeName
  | top space name _ => top space name (some assembly)
  | nested outer name _ => nested outer name (some assembly)

/-- A type inside `outer`, defined by the same assembly. -/
def inside (outer : TypeName) (name : String) : TypeName := nested outer name outer.scope

/-- The outermost segment of a written name: the namespace ends at the last dot. -/
def parseTop (segment : List Char) : TypeName :=
  match Text.cutLast '.' segment with
  | some (space, name) => top (String.ofList space) (String.ofList name) none
  | none => top "" (String.ofList segment) none

/-- Reads a full name; segments after the first are nested types. -/
def parse (fullName : String) : TypeName :=
  match Text.pieces '/' fullName.toList with
  | [] => parseTop []
  | first :: others =>
    others.foldl (fun outer segment => outer.inside (String.ofList segment)) (parseTop first)

/-- The full name, `/` before each nested type. -/
def fullName : TypeName → String
  | top space name _ => if space.isEmpty then name else space ++ "." ++ name
  | nested outer name _ => outer.fullName ++ "/" ++ name

theorem toList_fullName_nested (outer : TypeName) (name : String) (scope : Option String) :
    (nested outer name scope).fullName.toList = outer.fullName.toList ++ '/' :: name.toList := by
  rw [fullName, String.toList_append, String.toList_append, List.append_assoc]
  rfl

/-- The full name with a dot before each nested type. -/
def dottedName (t : TypeName) : String := Text.swap '/' '.' t.fullName

/-- The namespace of the outermost segment. -/
def rootSpace : TypeName → String
  | top space _ _ => space
  | nested outer _ _ => outer.rootSpace

/-- How many generic parameters the innermost segment declares: the number after its last arity
mark, or zero. -/
def ownArity (t : TypeName) : Nat :=
  match Text.cutLast arityMark t.name.toList with
  | some (_, digits) => (Text.readSize digits).getD 0
  | none => 0

/-- The name of the innermost segment without its arity mark. -/
def plainName (t : TypeName) : String :=
  match Text.cutLast arityMark t.name.toList with
  | some (plain, _) => String.ofList plain
  | none => t.name

/-- The names from the outermost segment down to this one. -/
def chain : TypeName → List TypeName
  | t@(top ..) => [t]
  | t@(nested outer _ _) => outer.chain ++ [t]

end TypeName

end ApiSurface
