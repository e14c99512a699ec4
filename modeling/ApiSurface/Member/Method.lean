/-
Methods, constructors and operators as members.
-/
import ApiSurface.DocId

namespace ApiSurface

/-- How a method is declared, access apart. -/
inductive MethodModifier where
  | plain
  | static
  | operator
  | implicitOperator
  | explicitOperator
  | abstract
  | virtual
  | override
  | sealedOverride
  deriving DecidableEq, Repr

/-- The keywords of a method modifier. -/
def MethodModifier.keyword : MethodModifier → String
  | plain => ""
  | static => "static"
  | operator => "static operator"
  | implicitOperator => "static implicit operator"
  | explicitOperator => "static explicit operator"
  | abstract => "abstract"
  | virtual => "virtual"
  | override => "override"
  | sealedOverride => "sealed override"

/-- What every operator's metadata name starts with. -/
def operatorMark : String := "op_"

namespace MethodDecl

/-- The method converts implicitly. -/
def isImplicit (method : MethodDecl) : Bool := method.name = "op_Implicit"

/-- The method converts explicitly. -/
def isExplicit (method : MethodDecl) : Bool := method.name = "op_Explicit"

/-- The method is a conversion operator. -/
def isConversion (method : MethodDecl) : Bool := method.isImplicit || method.isExplicit

/-- The name of an operator after its mark. -/
def operatorName? (method : MethodDecl) : Option String :=
  (Text.afterStart operatorMark.toList method.name.toList).map String.ofList

/-- The method is an operator, conversions included. -/
def isOperator (method : MethodDecl) : Bool := method.operatorName?.isSome

/-- The method has no body. -/
def isAbstract (method : MethodDecl) : Bool :=
  (MethodWord.modifiers method.word).has MethodWord.abstractBit

/-- The method can be overridden. -/
def isVirtual (method : MethodDecl) : Bool :=
  (MethodWord.modifiers method.word).has MethodWord.virtualBit

/-- The method cannot be overridden further. -/
def isFinal (method : MethodDecl) : Bool :=
  (MethodWord.modifiers method.word).has MethodWord.finalBit

/-- The method takes over an inherited slot. -/
def isOverride (method : MethodDecl) : Bool :=
  method.isVirtual && MethodWord.layout method.word = MethodWord.reuseSlot

/-- The method extends the type of its first parameter. -/
def isExtension (method : MethodDecl) : Bool := hasAttribute extensionAttribute method.attributes

/-- How the method is declared, access apart.  Members of interfaces are implicitly abstract, and
a method that is final in a new slot implements an interface. -/
def modifier (inInterface : Bool) (method : MethodDecl) : MethodModifier :=
  if method.isImplicit then .implicitOperator
  else if method.isExplicit then .explicitOperator
  else if method.isOperator then .operator
  else if method.isStatic then .static
  else if inInterface then .plain
  else if method.isAbstract then .abstract
  else if method.isOverride ∧ method.isFinal then .sealedOverride
  else if method.isOverride then .override
  else if method.isVirtual ∧ method.isFinal then .plain
  else if method.isVirtual then .virtual
  else .plain

end MethodDecl

/-- The name that constructors are written with: the displayed name up to its first angle
bracket, and of that what follows the last dot. -/
def ShownOwner.constructorName (owner : ShownOwner) : String :=
  let chars := owner.name.toList
  let head := ((Text.cutFirst '<' chars).map Prod.fst).getD chars
  String.ofList (((Text.cutLast '.' head).map Prod.snd).getD head)

/-- A method as it is shown. -/
structure ShownMethod where
  /-- The displayed name: that of the type for constructors, the target type for conversions, and
  for other operators the name without its mark. -/
  name : String
  metadataName : String
  access : Access
  modifier : MethodModifier
  isStatic : Bool
  isAbstract : Bool
  isVirtual : Bool
  isOverride : Bool
  isConstructor : Bool
  isOperator : Bool
  isConversion : Bool
  isExtension : Bool
  /-- The method gets or sets a property or belongs to an event. -/
  isAccessor : Bool
  returnType : ShownType
  parameters : List ShownParameter
  generics : List ShownGeneric
  attributes : List ShownAttribute
  owner : ShownOwner
  isHidden : Bool
  deriving DecidableEq, Repr

namespace ShownMethod

/-- The displayed name of a method with the given shown return type. -/
def displayedName (owner : ShownOwner) (returnType : ShownType) (method : MethodDecl) : String :=
  if method.isConstructor then owner.constructorName
  else if method.isConversion then returnType.name
  else method.operatorName?.getD method.name

/-- The shown form of a method of `owner`, seen through a binding. -/
def of (owner : ShownOwner) (inInterface : Bool) (binding : Binding) (ignorePrivate : Bool)
    (method : MethodDecl) : ShownMethod :=
  let access := Access.ofMethodWord method.word
  let returnType := ShownType.through binding method.returnType
  { name := displayedName owner returnType method
    metadataName := method.name
    access
    modifier := method.modifier inInterface
    isStatic := method.isStatic
    isAbstract := method.isAbstract
    isVirtual := method.isVirtual
    isOverride := method.isOverride
    isConstructor := method.isConstructor
    isOperator := method.isOperator
    isConversion := method.isConversion
    isExtension := method.isExtension
    isAccessor := method.isAccessor
    returnType
    parameters := method.parameters.map (ShownParameter.of binding)
    generics := method.generics.map ShownGeneric.of
    attributes := method.attributes.map ShownAttribute.of
    owner
    isHidden := access.isHidden ignorePrivate }

/-- The declaration up to the name.  Constructors and conversions show no return type. -/
def head (method : ShownMethod) : String :=
  method.access.keyword ++ " " ++ Text.spaced method.modifier.keyword
    ++ (if method.isConstructor || method.isConversion then "" else method.returnType.name ++ " ")
    ++ method.name

/-- The parameters as they are written between the parentheses. -/
def parameterText (method : ShownMethod) : String :=
  (if method.isExtension && !method.parameters.isEmpty then "this " else "")
    ++ ShownParameter.listText method.parameters

/-- The generic parameters in angle brackets. -/
def genericText (method : ShownMethod) : String := ShownGeneric.listText false method.generics

/-- The method as it is declared in source. -/
def declaration (method : ShownMethod) : String :=
  method.head ++ method.genericText ++ "(" ++ method.parameterText ++ ")"
    ++ ShownGeneric.whereClauses method.generics

/-- The method is no member of its own: it initializes the type or is an accessor. -/
def isUnlisted (method : ShownMethod) : Bool :=
  method.metadataName = MethodDecl.initializerName || method.isAccessor

/-- Two marks and the number of generic parameters, or nothing if there are none. -/
def arityText (method : ShownMethod) : String :=
  if method.generics.isEmpty then "" else "``" ++ naturalText method.generics.length

/-- The key under which a method hides inherited ones: the metadata name, the number of generic
parameters, the bound parameter types and, for conversions, the bound target type. -/
def identityKey (method : ShownMethod) : String :=
  method.metadataName ++ method.arityText ++ DocId.boundParameters method.parameters
    ++ if method.isConversion then "~" ++ DocId.reference method.returnType.signature else ""

/-- The metadata name as identifiers write it. -/
def documentedName (method : ShownMethod) : String :=
  if method.metadataName = MethodDecl.constructorName then "#ctor"
  else Text.swap '>' '\x7d' (Text.swap '<' '\x7b' (Text.swap '.' '#' method.metadataName))

/-- The documentation identifier of a method. -/
def docId (method : ShownMethod) : String :=
  DocId.ofMember .method method.owner (method.documentedName ++ method.arityText)
    ++ DocId.declaredParameters method.parameters
    ++ if method.isConversion then "~" ++ DocId.reference method.returnType.declared else ""

end ShownMethod

end ApiSurface
