/-
Type definitions and what is declared on them.

These are the rows of a metadata reader, joined: each carries its attribute word
and decoded signatures.  Properties and events point at their accessor methods by
index into the methods of the type.
-/
import ApiSurface.Access
import ApiSurface.Literal

namespace ApiSurface

/-- The attribute that marks an open parameter list. -/
def parameterArrayAttribute : String := "System.ParamArrayAttribute"

/-- The attribute that marks extension methods. -/
def extensionAttribute : String := "System.Runtime.CompilerServices.ExtensionAttribute"

/-- The attribute that compilers put on members they generate. -/
def compilerGeneratedAttribute : String :=
  "System.Runtime.CompilerServices.CompilerGeneratedAttribute"

/-- The instance field that holds the value of an enumeration. -/
def enumValueField : String := "value__"

/-- An assignment to a field or a property of an attribute. -/
structure NamedArgument where
  name : String
  value : AttributeValue
  isField : Bool
  deriving Repr

/-- A custom attribute on a type, a member or a parameter. -/
structure CustomAttribute where
  type : Signature
  /-- The names of the constructor's parameters, as far as they are known. -/
  parameterNames : List String
  positional : List AttributeValue
  assignments : List NamedArgument
  deriving Repr

/-- One of the attributes is of the class with that full name. -/
def hasAttribute (fullName : String) (attributes : List CustomAttribute) : Bool :=
  attributes.any fun attr => attr.type.isNamed fullName

/-- A parameter of a method, an indexer or a delegate. -/
structure ParameterDecl where
  name : String
  word : AttributeWord
  type : Signature
  default? : Option Constant
  attributes : List CustomAttribute
  deriving Repr

/-- The parameter takes the rest of the arguments. -/
def ParameterDecl.takesRest (param : ParameterDecl) : Bool :=
  hasAttribute parameterArrayAttribute param.attributes

/-- How a parameter is passed. -/
inductive Passing where
  | plain
  | output
  | input
  | reference
  | rest
  deriving DecidableEq, Repr

/-- The keyword of a way to pass a parameter; a plain one has none. -/
def Passing.keyword : Passing → String
  | plain => ""
  | output => "out"
  | input => "in"
  | reference => "ref"
  | rest => "params"

/-- How a declared parameter is passed: the word tells the kinds of by-reference apart. -/
def ParameterDecl.passing (param : ParameterDecl) : Passing :=
  if param.type.isByRef then
    if param.word.has ParameterWord.outBit then .output
    else if param.word.has ParameterWord.inBit then .input
    else .reference
  else if param.takesRest then .rest
  else .plain

/-- A generic parameter of a type or a method. -/
structure GenericDecl where
  owner : ParameterOwner
  index : Nat
  name : String
  word : AttributeWord
  constraints : List Signature
  deriving Repr

/-- The open reference to a generic parameter. -/
def GenericDecl.reference (param : GenericDecl) : Signature :=
  .parameter param.owner param.index param.name

/-- A method, constructor, operator or accessor. -/
structure MethodDecl where
  name : String
  word : AttributeWord
  /-- The part that the method plays in a property or an event. -/
  role : AttributeWord
  returnType : Signature
  parameters : List ParameterDecl
  generics : List GenericDecl
  attributes : List CustomAttribute
  deriving Repr

namespace MethodDecl

/-- The name of instance constructors. -/
def constructorName : String := ".ctor"

/-- The name of the type initializer. -/
def initializerName : String := ".cctor"

/-- A public method of an instance, without parameters and result. -/
def bare (name : String) : MethodDecl where
  name
  word := MethodWord.publicAccess
  role := 0
  returnType := .primitive .void
  parameters := []
  generics := []
  attributes := []

/-- The method belongs to the type and not to an instance. -/
def isStatic (method : MethodDecl) : Bool :=
  (MethodWord.modifiers method.word).has MethodWord.staticBit

/-- The method initializes an instance or the type. -/
def isConstructor (method : MethodDecl) : Bool :=
  method.name = constructorName ∨ method.name = initializerName

/-- The method gets or sets a property or belongs to an event. -/
def isAccessor (method : MethodDecl) : Bool :=
  RoleWord.ofProperty method.role || RoleWord.ofEvent method.role

end MethodDecl

/-- A field. -/
structure FieldDecl where
  name : String
  word : AttributeWord
  type : Signature
  constant? : Option Constant
  /-- The bytes that the field starts with. -/
  initialData : List UInt8
  attributes : List CustomAttribute
  deriving Repr

/-- A property; its accessors are methods of the type, by index. -/
structure PropertyDecl where
  name : String
  type : Signature
  /-- The index parameters: none for a plain property. -/
  parameters : List ParameterDecl
  getter? : Option Nat
  setter? : Option Nat
  attributes : List CustomAttribute
  deriving Repr

/-- An event; its accessors are methods of the type, by index. -/
structure EventDecl where
  name : String
  type : Signature
  adder? : Option Nat
  remover? : Option Nat
  raiser? : Option Nat
  attributes : List CustomAttribute
  deriving Repr

/-- A type and everything declared on it. -/
structure TypeDecl where
  name : TypeName
  word : AttributeWord
  base? : Option Signature
  interfaces : List Signature
  generics : List GenericDecl
  fields : List FieldDecl
  methods : List MethodDecl
  properties : List PropertyDecl
  events : List EventDecl
  attributes : List CustomAttribute
  assembly : String
  deriving Repr

namespace TypeDecl

/-- A public type without a base and with nothing declared on it. -/
def bare (name : TypeName) : TypeDecl where
  name
  word := TypeWord.publicTop
  base? := none
  interfaces := []
  generics := []
  fields := []
  methods := []
  properties := []
  events := []
  attributes := []
  assembly := ""

/-- The full name of the type. -/
def fullName (decl : TypeDecl) : String := decl.name.fullName

/-- The type is an interface. -/
def isInterface (decl : TypeDecl) : Bool :=
  (TypeWord.attributes decl.word).has TypeWord.interfaceBit

/-- The type is declared inside another one. -/
def isNested (decl : TypeDecl) : Bool := decl.name.outer?.isSome

/-- The type can be named outside its assembly. -/
def isPublic (decl : TypeDecl) : Bool :=
  let visibility := TypeWord.visibility decl.word
  visibility = TypeWord.publicTop ∨ visibility = TypeWord.nestedPublic

/-- The base of the type is exactly the type of that full name. -/
def derivesFrom (fullName : String) (decl : TypeDecl) : Bool :=
  decl.base?.any (Signature.isNamed fullName)

/-- The method that an accessor index points at, if there is one. -/
def method? (decl : TypeDecl) (index? : Option Nat) : Option MethodDecl :=
  index?.bind fun index => decl.methods[index]?

/-- The reference by which a member of the type names it. -/
def selfReference (decl : TypeDecl) : Signature :=
  if decl.generics.isEmpty then .named decl.name
  else .instantiation (.named decl.name) (decl.generics.map GenericDecl.reference)

end TypeDecl

end ApiSurface
