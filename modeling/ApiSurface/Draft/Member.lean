/-
Drafts of members.

A draft is a definition in the making: names may still be missing, positions of
generic parameters are not given out, and accessors are not yet methods of the
type.  Finishing a draft checks the names and fills in the rest.
-/
import ApiSurface.Declaration
import ApiSurface.Error

namespace ApiSurface

/-- A custom attribute without arguments. -/
def CustomAttribute.bare (fullName : String) : CustomAttribute :=
  ⟨.ofFullName fullName, [], [], []⟩

/-! ### Generic parameters -/

/-- A generic parameter without its position and owner. -/
structure GenericDraft where
  name : String
  word : AttributeWord
  constraints : List Signature

/-- The first position that is too large. -/
def GenericDraft.indexLimit : Nat := UInt32.size

/-- The generic parameter at a position. -/
def GenericDraft.finish (owner : ParameterOwner) (index : Nat) (draft : GenericDraft) :
    Except Malformation GenericDecl :=
  if draft.name.isEmpty then .error (.unnamedGeneric index)
  else if index < indexLimit then
    .ok ⟨owner, index, draft.name, draft.word, draft.constraints⟩
  else .error (.genericIndexTooLarge index)

/-- The generic parameters from a position on. -/
def GenericDraft.finishFrom (owner : ParameterOwner) (index : Nat) :
    List GenericDraft → Except Malformation (List GenericDecl)
  | [] => .ok []
  | draft :: rest => do
    let param ← draft.finish owner index
    return param :: (← finishFrom owner (index + 1) rest)

/-! ### Parameters -/

/-- A parameter in the making. -/
structure ParameterDraft where
  name : String
  word : AttributeWord
  type : Signature
  default? : Option Constant
  attributes : List CustomAttribute

namespace ParameterDraft

/-- A plain parameter. -/
def plain (name : String) (type : Signature) : ParameterDraft := ⟨name, 0, type, none, []⟩

/-- Adds bits to the attribute word. -/
def addBits (bits : AttributeWord) (draft : ParameterDraft) : ParameterDraft :=
  { draft with word := draft.word ||| bits }

/-- Adds an attribute. -/
def addAttribute (attr : CustomAttribute) (draft : ParameterDraft) : ParameterDraft :=
  { draft with attributes := draft.attributes ++ [attr] }

/-- Passes the parameter by reference, if it is not already. -/
def byReference (draft : ParameterDraft) : ParameterDraft :=
  if draft.type.isByRef then draft else { draft with type := .byRef draft.type }

/-- Passes the parameter in the given way. -/
def passedAs (draft : ParameterDraft) : Passing → ParameterDraft
  | .plain => draft
  | .reference => draft.byReference
  | .output => draft.byReference.addBits ParameterWord.outBit
  | .input => draft.byReference.addBits ParameterWord.inBit
  | .rest => draft.addAttribute (.bare parameterArrayAttribute)

/-- Gives the parameter a default, which makes it optional. -/
def withDefault (value : Constant) (draft : ParameterDraft) : ParameterDraft :=
  { draft with
    default? := some value
    word := draft.word ||| ParameterWord.optional ||| ParameterWord.hasDefault }

/-- The finished parameter. -/
def finish (draft : ParameterDraft) : Except Malformation ParameterDecl :=
  if draft.name.isEmpty then .error (.unnamedParameter draft.type)
  else .ok ⟨draft.name, draft.word, draft.type, draft.default?, draft.attributes⟩

end ParameterDraft

/-! ### Methods -/

/-- A method in the making. -/
structure MethodDraft where
  name : String
  word : AttributeWord
  role : AttributeWord
  returnType : Signature
  parameters : List ParameterDraft
  generics : List GenericDraft
  attributes : List CustomAttribute

namespace MethodDraft

/-- A public instance method without parameters and result. -/
def plain (name : String) : MethodDraft :=
  ⟨name, MethodWord.publicAccess ||| MethodWord.hideBySignature, 0, .primitive .void, [], [], []⟩

/-- Adds modifier bits. -/
def addBits (bits : AttributeWord) (draft : MethodDraft) : MethodDraft :=
  { draft with word := draft.word ||| bits }

/-- Replaces the access. -/
def withAccess (access : AttributeWord) (draft : MethodDraft) : MethodDraft :=
  { draft with word := draft.word.replace MethodWord.accessMask access }

/-- Replaces the slot layout. -/
def withLayout (layout : AttributeWord) (draft : MethodDraft) : MethodDraft :=
  { draft with word := draft.word.replace MethodWord.layoutMask layout }

/-- Adds an attribute. -/
def addAttribute (attr : CustomAttribute) (draft : MethodDraft) : MethodDraft :=
  { draft with attributes := draft.attributes ++ [attr] }

/-- Makes the method an extension method. -/
def asExtension (draft : MethodDraft) : MethodDraft :=
  draft.addAttribute (.bare extensionAttribute)

/-- A public instance constructor. -/
def constructor : MethodDraft :=
  (plain MethodDecl.constructorName).addBits
    (MethodWord.specialName ||| MethodWord.runtimeSpecialName)

/-- The type initializer. -/
def initializer : MethodDraft :=
  ((plain MethodDecl.initializerName).withAccess MethodWord.privateAccess).addBits
    (MethodWord.staticBit ||| MethodWord.specialName ||| MethodWord.runtimeSpecialName)

/-- An operator of the given metadata name. -/
def operator (name : String) : MethodDraft :=
  (plain name).addBits (MethodWord.staticBit ||| MethodWord.specialName)

/-- The draft as an accessor: name, role, result and parameters are given by the property or
event it belongs to. -/
def asAccessor (name : String) (role : AttributeWord) (returnType : Signature)
    (parameters : List ParameterDraft) (draft : MethodDraft) : MethodDraft :=
  { draft with
    name, role, returnType, parameters
    word := draft.word ||| MethodWord.specialName }

/-- The finished method. -/
def finish (draft : MethodDraft) : Except Malformation MethodDecl :=
  if draft.name.isEmpty then .error .unnamedMethod
  else do
    let parameters ← draft.parameters.mapM ParameterDraft.finish
    let generics ← GenericDraft.finishFrom .method 0 draft.generics
    return ⟨draft.name, draft.word, draft.role, draft.returnType, parameters, generics,
      draft.attributes⟩

end MethodDraft

/-! ### Fields -/

/-- A field in the making. -/
structure FieldDraft where
  name : String
  word : AttributeWord
  type : Signature
  constant? : Option Constant
  initialData : List UInt8
  attributes : List CustomAttribute

namespace FieldDraft

/-- A public instance field. -/
def plain (name : String) (type : Signature) : FieldDraft :=
  ⟨name, MethodWord.publicAccess, type, none, [], []⟩

/-- Adds modifier bits. -/
def addBits (bits : AttributeWord) (draft : FieldDraft) : FieldDraft :=
  { draft with word := draft.word ||| bits }

/-- Replaces the access. -/
def withAccess (access : AttributeWord) (draft : FieldDraft) : FieldDraft :=
  { draft with word := draft.word.replace FieldWord.accessMask access }

/-- Makes the field a constant. -/
def withConstant (value : Constant) (draft : FieldDraft) : FieldDraft :=
  { draft with constant? := some value }.addBits
    (FieldWord.staticBit ||| FieldWord.literal ||| FieldWord.hasDefault)

/-- Gives the field the bytes it starts with. -/
def withInitialData (data : List UInt8) (draft : FieldDraft) : FieldDraft :=
  { draft with initialData := data }.addBits FieldWord.hasInitialData

/-- Adds an attribute. -/
def addAttribute (attr : CustomAttribute) (draft : FieldDraft) : FieldDraft :=
  { draft with attributes := draft.attributes ++ [attr] }

/-- Marks the field as made by the compiler. -/
def asGenerated (draft : FieldDraft) : FieldDraft :=
  draft.addAttribute (.bare compilerGeneratedAttribute)

/-- The finished field. -/
def finish (draft : FieldDraft) : Except Malformation FieldDecl :=
  if draft.name.isEmpty then .error (.unnamedField draft.type)
  else .ok ⟨draft.name, draft.word, draft.type, draft.constant?, draft.initialData,
    draft.attributes⟩

end FieldDraft

/-! ### Properties and events -/

/-- Appends the accessor, if there is one, to the methods and gives its index. -/
def linkAccessor (methods : List MethodDecl) (accessor? : Option MethodDraft) :
    Except Malformation (List MethodDecl × Option Nat) :=
  match accessor? with
  | none => .ok (methods, none)
  | some draft => do
    let method ← draft.finish
    return (methods ++ [method], some methods.length)

/-- A property in the making, with the drafts of its accessors. -/
structure PropertyDraft where
  name : String
  type : Signature
  parameters : List ParameterDraft
  getter? : Option MethodDraft
  setter? : Option MethodDraft
  attributes : List CustomAttribute

namespace PropertyDraft

/-- The getter takes the index parameters and gives the type of the property. -/
def getterDraft (draft : PropertyDraft) : Option MethodDraft :=
  draft.getter?.map
    (MethodDraft.asAccessor ("get_" ++ draft.name) RoleWord.getter draft.type draft.parameters)

/-- The setter takes the index parameters and the new value. -/
def setterDraft (draft : PropertyDraft) : Option MethodDraft :=
  draft.setter?.map
    (MethodDraft.asAccessor ("set_" ++ draft.name) RoleWord.setter (.primitive .void)
      (draft.parameters ++ [.plain "value" draft.type]))

/-- The finished property and the methods with its accessors appended. -/
def finish (methods : List MethodDecl) (draft : PropertyDraft) :
    Except Malformation (List MethodDecl × PropertyDecl) :=
  if draft.name.isEmpty then .error (.unnamedProperty draft.type)
  else do
    let (methods, getter?) ← linkAccessor methods draft.getterDraft
    let (methods, setter?) ← linkAccessor methods draft.setterDraft
    let parameters ← draft.parameters.mapM ParameterDraft.finish
    return (methods, ⟨draft.name, draft.type, parameters, getter?, setter?, draft.attributes⟩)

/-- The finished properties and the methods with all their accessors appended. -/
def finishAll (methods : List MethodDecl) :
    List PropertyDraft → Except Malformation (List MethodDecl × List PropertyDecl)
  | [] => .ok (methods, [])
  | draft :: rest => do
    let (methods, property) ← draft.finish methods
    let (methods, properties) ← finishAll methods rest
    return (methods, property :: properties)

end PropertyDraft

/-- An event in the making, with the drafts of its accessors. -/
structure EventDraft where
  name : String
  type : Signature
  adder? : Option MethodDraft
  remover? : Option MethodDraft
  raiser? : Option MethodDraft
  attributes : List CustomAttribute

namespace EventDraft

/-- An accessor of an event takes the handler. -/
def accessorDraft (draft : EventDraft) (verb : String) (role : AttributeWord)
    (accessor? : Option MethodDraft) : Option MethodDraft :=
  accessor?.map
    (MethodDraft.asAccessor (verb ++ "_" ++ draft.name) role (.primitive .void)
      [.plain "value" draft.type])

/-- The finished event and the methods with its accessors appended. -/
def finish (methods : List MethodDecl) (draft : EventDraft) :
    Except Malformation (List MethodDecl × EventDecl) :=
  if draft.name.isEmpty then .error (.unnamedEvent draft.type)
  else do
    let (methods, adder?) ←
      linkAccessor methods (draft.accessorDraft "add" RoleWord.adder draft.adder?)
    let (methods, remover?) ←
      linkAccessor methods (draft.accessorDraft "remove" RoleWord.remover draft.remover?)
    let (methods, raiser?) ←
      linkAccessor methods (draft.accessorDraft "raise" RoleWord.raiser draft.raiser?)
    return (methods, ⟨draft.name, draft.type, adder?, remover?, raiser?, draft.attributes⟩)

/-- The finished events and the methods with all their accessors appended. -/
def finishAll (methods : List MethodDecl) :
    List EventDraft → Except Malformation (List MethodDecl × List EventDecl)
  | [] => .ok (methods, [])
  | draft :: rest => do
    let (methods, event) ← draft.finish methods
    let (methods, events) ← finishAll methods rest
    return (methods, event :: events)

end EventDraft

end ApiSurface
