/-
Custom attributes and parameters as they are shown.
-/
import ApiSurface.Shown.Generic

namespace ApiSurface

/-! ### Attributes -/

mutual

/-- An attribute argument as a source literal. -/
def AttributeValue.literal : AttributeValue → String
  | .constant value => value.literal
  | .type sig => "typeof(" ++ sig.shownName ++ ")"
  | .enumeration sig value => "(" ++ sig.shownName ++ ")" ++ value.literal
  | .array items => "new[] \x7b " ++ Text.join ", " (AttributeValue.literals items) ++ " \x7d"

/-- The source literals of a list of attribute arguments. -/
def AttributeValue.literals : List AttributeValue → List String
  | [] => []
  | item :: rest => item.literal :: AttributeValue.literals rest

end

/-- One argument of an attribute as it is shown. -/
structure ShownAttributeArgument where
  /-- The constructor's parameter, or the field or property that is assigned. -/
  name : String
  value : String
  type : ShownType
  isField : Bool
  deriving DecidableEq, Repr

/-- A custom attribute as it is shown. -/
structure ShownAttribute where
  type : ShownType
  positional : List ShownAttributeArgument
  assignments : List ShownAttributeArgument
  deriving DecidableEq, Repr

namespace ShownAttribute

/-- The positional arguments, named after the constructor's parameters; one whose parameter is
not known is named by its position. -/
def positionalFrom (index : Nat) :
    List String → List AttributeValue → List ShownAttributeArgument
  | _, [] => []
  | [], value :: rest =>
    ⟨"arg" ++ naturalText index, value.literal, ShownType.of value.storedType, false⟩
      :: positionalFrom (index + 1) [] rest
  | name :: names, value :: rest =>
    ⟨name, value.literal, ShownType.of value.storedType, false⟩
      :: positionalFrom (index + 1) names rest

/-- The shown form of an attribute. -/
def of (attr : CustomAttribute) : ShownAttribute where
  type := ShownType.of attr.type
  positional := positionalFrom 0 attr.parameterNames attr.positional
  assignments := attr.assignments.map fun named =>
    ⟨named.name, named.value.literal, ShownType.of named.value.storedType, named.isField⟩

/-- The arguments as they are written between the parentheses. -/
def argumentText (attr : ShownAttribute) : String :=
  Text.join ", " (attr.positional.map ShownAttributeArgument.value
    ++ attr.assignments.map fun arg => arg.name ++ " = " ++ arg.value)

/-- The attribute in square brackets; there are no parentheses without arguments. -/
def declaration (attr : ShownAttribute) : String :=
  let arguments := attr.argumentText
  if arguments.isEmpty then "[" ++ attr.type.fullName ++ "]"
  else "[" ++ attr.type.fullName ++ "(" ++ arguments ++ ")]"

end ShownAttribute

/-! ### Parameters -/

/-- A parameter as it is shown. -/
structure ShownParameter where
  name : String
  /-- The type, seen through the binding and without the by-reference. -/
  type : ShownType
  passing : Passing
  isByRef : Bool
  isOptional : Bool
  /-- The default as a source literal. -/
  default? : Option String
  attributes : List ShownAttribute
  deriving DecidableEq, Repr

namespace ShownParameter

/-- The shown form of a parameter, seen through a binding. -/
def of (binding : Binding) (param : ParameterDecl) : ShownParameter where
  name := param.name
  type := ShownType.through binding param.type
  passing := param.passing
  isByRef := param.type.isByRef
  isOptional := param.word.has ParameterWord.optional || param.default?.isSome
  default? := param.default?.map Constant.literal
  attributes := param.attributes.map ShownAttribute.of

/-- The parameter as it is written in a parameter list. -/
def declaration (param : ShownParameter) : String :=
  Text.spaced param.passing.keyword ++ param.type.name ++ " " ++ param.name
    ++ match param.default? with
      | some value => " = " ++ value
      | none => ""

/-- The parameters with commas between them. -/
def listText (params : List ShownParameter) : String :=
  Text.join ", " (params.map declaration)

end ShownParameter

end ApiSurface
