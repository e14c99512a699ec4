/-
The surface of a type: its declaration and everything it lists.

The declaration is composed from the definition and from the interfaces that are
to be shown; which of them are is decided by the source of definitions.  The
members come from the chain of the type, in ten sections.
-/
import ApiSurface.Chain
import ApiSurface.Options

namespace ApiSurface

/-! ### Kinds of types -/

/-- What a type is declared as. -/
inductive TypeKind where
  | referenceType
  | valueType
  | interface
  | enumeration
  | delegate
  deriving DecidableEq, Repr

/-- The keyword of a kind of types. -/
def TypeKind.keyword : TypeKind → String
  | referenceType => "class"
  | valueType => "struct"
  | interface => "interface"
  | enumeration => "enum"
  | delegate => "delegate"

/-- How a class is declared, access apart. -/
inductive ClassModifier where
  | plain
  | static
  | sealed
  | abstract
  deriving DecidableEq, Repr

/-- The keyword of a class modifier. -/
def ClassModifier.keyword : ClassModifier → String
  | plain => ""
  | static => "static"
  | sealed => "sealed"
  | abstract => "abstract"

namespace TypeDecl

/-- What the type is declared as: its base tells, then its word. -/
def kind (decl : TypeDecl) : TypeKind :=
  if decl.derivesFrom "System.MulticastDelegate" then .delegate
  else if decl.derivesFrom "System.Enum" then .enumeration
  else if decl.derivesFrom "System.ValueType" then .valueType
  else if decl.isInterface then .interface
  else .referenceType

/-- Who can see the type. -/
def access (decl : TypeDecl) : Access := Access.ofTypeWord decl.word

/-- How the type is declared, access apart; only classes have a modifier. -/
def modifier (decl : TypeDecl) : ClassModifier :=
  match decl.kind with
  | .referenceType =>
    let attributes := TypeWord.attributes decl.word
    match attributes.has TypeWord.sealedBit, attributes.has TypeWord.abstractBit with
    | true, true => .static
    | true, false => .sealed
    | false, true => .abstract
    | false, false => .plain
  | _ => .plain

/-- The base types that are not worth mentioning. -/
def rootNames : List String := ["System.Object", "System.ValueType", "System.Enum"]

/-- The base type, unless it is one of the roots. -/
def mentionedBase? (decl : TypeDecl) : Option Signature :=
  decl.base?.filter fun base => !rootNames.any fun root => base.isNamed root

/-- The method that gives a delegate its return type and parameters. -/
def invoke? (decl : TypeDecl) : Option MethodDecl :=
  match decl.kind with
  | .delegate => decl.methods.find? fun method => method.name = "Invoke"
  | _ => none

/-- The type of an enumeration's values, unless it is the usual one. -/
def underlying? (decl : TypeDecl) : Option Signature :=
  match decl.kind, decl.fields.find? fun field => field.name = enumValueField with
  | .enumeration, some field =>
    match field.type with
    | .primitive .int32 => none
    | type => some type
  | _, _ => none

/-! ### The declaration -/

/-- The declaration up to the name and its parameters. -/
def head (decl : TypeDecl) : String :=
  decl.access.keyword ++ " " ++ Text.spaced decl.modifier.keyword ++ decl.kind.keyword ++ " "
    ++ (match decl.invoke? with
      | some invoke => invoke.returnType.shownName ++ " "
      | none => "")
    ++ (ShownOwner.of decl).name

/-- The head with variance keywords before the parameters of the innermost segment.  These are
the last ones, and their list is the last one of the head. -/
def variantHead (decl : TypeDecl) : String :=
  let generics := (ShownOwner.of decl).generics
  let own := min decl.name.ownArity generics.length
  let head := decl.head.toList
  match Text.cutLast '<' head with
  | some (before, _) =>
    if generics.any (fun param => !param.variance.isEmpty) ∧ 0 < own ∧ head.getLast? = some '>' then
      String.ofList before ++ ShownGeneric.listText true (generics.drop (generics.length - own))
    else decl.head
  | none => decl.head

/-- What the type derives from: its base, the type of its values, and the shown interfaces. -/
def inheritance (decl : TypeDecl) (interfaces : List Signature) : List String :=
  (decl.mentionedBase?.map Signature.shownName).toList
    ++ (decl.underlying?.map Signature.shownName).toList
    ++ interfaces.map Signature.shownName

/-- The complete declaration with the given interfaces.  A delegate shows its parameters instead
of what it derives from. -/
def declaration (decl : TypeDecl) (interfaces : List Signature) : String :=
  let clauses := ShownGeneric.whereClauses (ShownOwner.of decl).generics
  match decl.invoke? with
  | some invoke =>
    decl.variantHead ++ "("
      ++ ShownParameter.listText (invoke.parameters.map (ShownParameter.of .empty)) ++ ")"
      ++ clauses
  | none =>
    let head := match decl.kind with
      | .interface | .delegate => decl.variantHead
      | _ => decl.head
    let inherits := decl.inheritance interfaces
    head ++ (if inherits.isEmpty then "" else " : " ++ Text.join ", " inherits) ++ clauses

end TypeDecl

/-! ### Sections and surfaces -/

/-- The members of one kind, static or not. -/
structure Section where
  kind : MemberKind
  isStatic : Bool
  members : List Member
  deriving DecidableEq, Repr

/-- The sections of a surface in the order in which they are listed. -/
def Section.order : List (MemberKind × Bool) :=
  [(.constructor, false), (.field, false), (.field, true), (.property, false), (.property, true),
    (.event, false), (.event, true), (.method, false), (.method, true), (.operator, true)]

/-- Everything that is shown of a type. -/
structure Surface where
  info : ShownOwner
  assembly : String
  kind : TypeKind
  access : Access
  modifier : ClassModifier
  /-- The enclosing type of a nested one. -/
  outer? : Option ShownType
  /-- The base type, unless it is one of the roots. -/
  base? : Option ShownType
  interfaces : List ShownType
  attributes : List ShownAttribute
  /-- The declaration up to the name and its parameters. -/
  head : String
  /-- The complete declaration. -/
  declaration : String
  /-- The type itself is hidden; then its sections are empty. -/
  isHidden : Bool
  sections : List Section
  deriving DecidableEq, Repr

namespace Surface

/-- The surface of a type with the given interfaces and, in each section, the given members. -/
def of (decl : TypeDecl) (ignorePrivate : Bool) (interfaces : List Signature)
    (members : MemberKind → Bool → List Member) : Surface where
  info := ShownOwner.of decl
  assembly := decl.assembly
  kind := decl.kind
  access := decl.access
  modifier := decl.modifier
  outer? := decl.name.outer?.map fun outer => ShownType.of (.named outer)
  base? := decl.mentionedBase?.map ShownType.of
  interfaces := interfaces.map ShownType.of
  attributes := decl.attributes.map ShownAttribute.of
  head := decl.head
  declaration := decl.declaration interfaces
  isHidden := decl.access.isHidden ignorePrivate
  sections := Section.order.map fun part =>
    ⟨part.1, part.2, members part.1 part.2⟩

/-- The type is declared inside another one. -/
def isNested (surface : Surface) : Bool := surface.outer?.isSome

/-- The documentation identifier of the type. -/
def docId (surface : Surface) : String := DocId.ofType surface.info

/-- How many members the surface lists. -/
def memberCount (surface : Surface) : Nat :=
  (surface.sections.flatMap fun part => part.members).length

end Surface

end ApiSurface
