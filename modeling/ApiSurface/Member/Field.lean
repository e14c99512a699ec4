/-
Fields as members.
-/
import ApiSurface.DocId

namespace ApiSurface

/-- How a field is declared, access apart. -/
inductive FieldModifier where
  | plain
  | const
  | staticReadonly
  | static
  | readonly
  deriving DecidableEq, Repr

/-- The keywords of a field modifier. -/
def FieldModifier.keyword : FieldModifier → String
  | plain => ""
  | const => "const"
  | staticReadonly => "static readonly"
  | static => "static"
  | readonly => "readonly"

namespace FieldDecl

/-- The field belongs to the type and not to an instance. -/
def isStatic (field : FieldDecl) : Bool :=
  (FieldWord.modifiers field.word).has FieldWord.staticBit

/-- The field cannot be written after construction. -/
def isReadonly (field : FieldDecl) : Bool :=
  (FieldWord.modifiers field.word).has FieldWord.initOnly

/-- The field is a compile-time constant. -/
def isConstant (field : FieldDecl) : Bool :=
  field.constant?.isSome || (FieldWord.modifiers field.word).has FieldWord.literal

/-- The compiler made the field: it holds the value of an enumeration or is marked so. -/
def isGenerated (field : FieldDecl) : Bool :=
  field.name = enumValueField || hasAttribute compilerGeneratedAttribute field.attributes

/-- How the field is declared, access apart. -/
def modifier (field : FieldDecl) : FieldModifier :=
  if field.isConstant then .const
  else if field.isStatic ∧ field.isReadonly then .staticReadonly
  else if field.isStatic then .static
  else if field.isReadonly then .readonly
  else .plain

/-- The bare text of the constant, or the initial bytes read as ASCII, `?` for any other byte. -/
def valueText (field : FieldDecl) : String :=
  match field.constant? with
  | some constant => constant.text
  | none =>
    String.ofList (field.initialData.map fun byte =>
      if byte < 128 then Char.ofNat byte.toNat else '?')

end FieldDecl

/-- A field as it is shown. -/
structure ShownField where
  name : String
  type : ShownType
  access : Access
  modifier : FieldModifier
  isStatic : Bool
  isConstant : Bool
  isReadonly : Bool
  isGenerated : Bool
  /-- The constant as a source literal. -/
  literal? : Option String
  /-- The constant or the initial data as bare text. -/
  value : String
  attributes : List ShownAttribute
  owner : ShownOwner
  isHidden : Bool
  deriving DecidableEq, Repr

namespace ShownField

/-- The shown form of a field of `owner`, seen through a binding. -/
def of (owner : ShownOwner) (binding : Binding) (ignorePrivate : Bool) (field : FieldDecl) :
    ShownField :=
  let access := Access.ofFieldWord field.word
  { name := field.name
    type := ShownType.through binding field.type
    access
    modifier := field.modifier
    isStatic := field.isStatic
    isConstant := field.isConstant
    isReadonly := field.isReadonly
    isGenerated := field.isGenerated
    literal? := field.constant?.map Constant.literal
    value := field.valueText
    attributes := field.attributes.map ShownAttribute.of
    owner
    isHidden := access.isHidden ignorePrivate }

/-- The field as it is declared in source. -/
def declaration (field : ShownField) : String :=
  field.access.keyword ++ " " ++ Text.spaced field.modifier.keyword ++ field.type.name ++ " "
    ++ field.name
    ++ match field.literal? with
      | some literal => " = " ++ literal
      | none => ""

/-- The key under which a field hides inherited ones. -/
def identityKey (field : ShownField) : String := field.name

/-- The documentation identifier of a field. -/
def docId (field : ShownField) : String := DocId.ofMember .field field.owner field.name

end ShownField

end ApiSurface
