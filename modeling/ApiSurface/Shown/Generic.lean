/-
Generic parameters and type definitions as they are shown.
-/
import ApiSurface.Declaration
import ApiSurface.Shown.Reference

namespace ApiSurface

/-- A declared generic parameter as it is shown. -/
structure ShownGeneric where
  /-- The position, behind one mark for parameters of types and two for those of methods. -/
  placeholder : String
  name : String
  constraints : List ShownType
  /-- The bits of the attribute word that have a meaning. -/
  word : AttributeWord
  deriving DecidableEq, Repr

/-- The marks before the position of a generic parameter. -/
def ParameterOwner.marks : ParameterOwner → String
  | type => "`"
  | method => "``"

namespace ShownGeneric

/-- The shown form of a generic parameter. -/
def of (param : GenericDecl) : ShownGeneric where
  placeholder := param.owner.marks ++ naturalText param.index
  name := Name.friendly param.name
  constraints := param.constraints.map ShownType.of
  word := GenericWord.known param.word

/-- The variance keyword with a space after it, or nothing. -/
def variance (param : ShownGeneric) : String :=
  if param.word.has GenericWord.covariant then "out "
  else if param.word.has GenericWord.contravariant then "in "
  else ""

/-- What a parameter must satisfy, in source order.  A value type is one by saying `struct`, and
needs no `new()`. -/
def constraintList (param : ShownGeneric) : List String :=
  let isStruct := param.word.has GenericWord.valueType
  (if param.word.has GenericWord.referenceType then ["class"] else [])
    ++ (if isStruct then ["struct"] else [])
    ++ (param.constraints.filter fun constraint =>
        !(isStruct && constraint.signature.isNamed "System.ValueType")).map ShownType.name
    ++ (if !isStruct && param.word.has GenericWord.defaultConstructor then ["new()"] else [])

/-- The parameter list in angle brackets, or nothing if there are no parameters. -/
def listText (withVariance : Bool) (params : List ShownGeneric) : String :=
  if params.isEmpty then ""
  else
    let item (param : ShownGeneric) : String :=
      if withVariance then param.variance ++ param.name else param.name
    "<" ++ Text.join ", " (params.map item) ++ ">"

/-- The `where` clause of one parameter, or nothing if it has no constraints. -/
def whereClause (param : ShownGeneric) : String :=
  let list := param.constraintList
  if list.isEmpty then "" else " where " ++ param.name ++ " : " ++ Text.join ", " list

/-- The `where` clauses of all parameters. -/
def whereClauses (params : List ShownGeneric) : String :=
  Text.join "" (params.map whereClause)

end ShownGeneric

/-- A type definition as it is shown. -/
structure ShownOwner where
  /-- The arity-mangled name, with dots between nested types. -/
  mangledName : String
  /-- The displayed name, its parameters in angle brackets. -/
  name : String
  /-- The localized full name. -/
  fullName : String
  space : String
  generics : List ShownGeneric
  /-- The reference by which members of the type name it. -/
  signature : Signature
  deriving DecidableEq, Repr

/-- The localized full name of a definition, `/` between nested types: the declared parameters
fill the placeholders. -/
def TypeDecl.localizedName (decl : TypeDecl) : String :=
  Name.stripArity (Name.localizedOr decl.fullName (decl.generics.map GenericDecl.name))

/-- The shown form of a definition. -/
def ShownOwner.of (decl : TypeDecl) : ShownOwner where
  mangledName := decl.name.dottedName
  name := Name.display decl.localizedName
  fullName := Text.swap '/' '.' decl.localizedName
  space := decl.name.rootSpace
  generics := decl.generics.map ShownGeneric.of
  signature := decl.selfReference

end ApiSurface
