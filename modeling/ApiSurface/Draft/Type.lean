/-
Drafts of types.

Each kind of type starts with the attributes, the base and the members that a
compiler gives it, and is public.  Finishing a draft puts the type into its
namespace or its enclosing type, finishes its members, and links properties and
events to their accessors.
-/
import ApiSurface.Draft.Member

namespace ApiSurface

/-- A type in the making. -/
structure TypeDraft where
  space : String
  name : String
  outer? : Option TypeName
  visibility : AttributeWord
  bits : AttributeWord
  base? : Option Signature
  interfaces : List Signature
  generics : List GenericDraft
  fields : List FieldDraft
  methods : List MethodDraft
  properties : List PropertyDraft
  events : List EventDraft
  attributes : List CustomAttribute
  assembly : String

namespace TypeDraft

/-- A public type with the given base and further attribute bits. -/
def start (space name : String) (base? : Option Signature) (bits : AttributeWord) : TypeDraft where
  space
  name
  outer? := none
  visibility := TypeWord.publicTop
  bits := TypeWord.beforeFieldInit ||| bits
  base?
  interfaces := []
  generics := []
  fields := []
  methods := []
  properties := []
  events := []
  attributes := []
  assembly := ""

/-- A class. -/
def referenceType (space name : String) : TypeDraft :=
  start space name (some (.primitive .object)) 0

/-- An interface. -/
def interface (space name : String) : TypeDraft :=
  start space name none (TypeWord.interfaceBit ||| TypeWord.abstractBit)

/-- A value type. -/
def valueType (space name : String) : TypeDraft :=
  start space name (some (.inSpace "System" "ValueType")) TypeWord.sealedBit

/-- An enumeration with the field that holds its value. -/
def enumeration (space name : String) (underlying : Primitive) : TypeDraft :=
  { start space name (some (.inSpace "System" "Enum")) TypeWord.sealedBit with
    fields := [(FieldDraft.plain enumValueField (.primitive underlying)).addBits
      (FieldWord.specialName ||| FieldWord.runtimeSpecialName)] }

/-- A delegate with its constructor and the method that runs it. -/
def delegate (space name : String) (returnType : Signature) (parameters : List ParameterDraft) :
    TypeDraft :=
  let constructor :=
    { MethodDraft.constructor with
      parameters := [.plain "object" (.primitive .object), .plain "method" (.primitive .intPtr)] }
  let invoke :=
    (({ MethodDraft.plain "Invoke" with returnType, parameters }).addBits
      MethodWord.virtualBit).withLayout MethodWord.newSlot
  { start space name (some (.inSpace "System" "MulticastDelegate")) TypeWord.sealedBit with
    methods := [constructor, invoke] }

/-- The visibility of the finished type.  Nested types have visibilities of their own, and a type
of a namespace is public or not. -/
def finishedVisibility (draft : TypeDraft) : Except Malformation AttributeWord :=
  match draft.outer? with
  | some _ =>
    if draft.visibility = TypeWord.publicTop then .ok TypeWord.nestedPublic
    else if draft.visibility = TypeWord.notPublic then .ok TypeWord.nestedAssembly
    else .ok draft.visibility
  | none =>
    if draft.visibility = TypeWord.publicTop ∨ draft.visibility = TypeWord.notPublic then
      .ok draft.visibility
    else .error (.nestedVisibility draft.name draft.visibility)

/-- The name of the finished type; the assembly becomes its scope. -/
def typeName (draft : TypeDraft) : TypeName :=
  let name := match draft.outer? with
    | some outer => outer.inside draft.name
    | none => .top draft.space draft.name none
  if draft.assembly.isEmpty then name else name.withScope draft.assembly

/-- The finished type, or the first thing that is wrong with the draft: its name, its visibility,
then its methods, properties, events, generic parameters and fields. -/
def finish (draft : TypeDraft) : Except Malformation TypeDecl :=
  if draft.name.isEmpty then .error (.unnamedType draft.space)
  else do
    let visibility ← draft.finishedVisibility
    let methods ← draft.methods.mapM MethodDraft.finish
    let (methods, properties) ← PropertyDraft.finishAll methods draft.properties
    let (methods, events) ← EventDraft.finishAll methods draft.events
    let generics ← GenericDraft.finishFrom .type 0 draft.generics
    let fields ← draft.fields.mapM FieldDraft.finish
    return {
      name := draft.typeName
      word := draft.bits.replace TypeWord.visibilityMask visibility
      base? := draft.base?
      interfaces := draft.interfaces
      generics
      fields
      methods
      properties
      events
      attributes := draft.attributes
      assembly := draft.assembly }

end TypeDraft

end ApiSurface
