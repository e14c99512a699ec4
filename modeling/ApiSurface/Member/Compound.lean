/-
Properties and events as members.

Both are made of accessor methods of the declaring type, from which they take
their access, their modifier and whether they are static.
-/
import ApiSurface.Member.Method

namespace ApiSurface

/-- The shown form of the accessor at an index of the methods of a type. -/
def TypeDecl.shownAccessor (decl : TypeDecl) (owner : ShownOwner) (binding : Binding)
    (ignorePrivate : Bool) (index? : Option Nat) : Option ShownMethod :=
  (decl.method? index?).map (ShownMethod.of owner decl.isInterface binding ignorePrivate)

/-! ### Properties -/

/-- A property as it is shown. -/
structure ShownProperty where
  name : String
  type : ShownType
  getter? : Option ShownMethod
  setter? : Option ShownMethod
  /-- The index parameters: none for a plain property. -/
  parameters : List ShownParameter
  attributes : List ShownAttribute
  owner : ShownOwner
  deriving DecidableEq, Repr

namespace ShownProperty

/-- The shown form of a property of a type, seen through a binding. -/
def of (decl : TypeDecl) (owner : ShownOwner) (binding : Binding) (ignorePrivate : Bool)
    (property : PropertyDecl) : ShownProperty where
  name := property.name
  type := ShownType.through binding property.type
  getter? := decl.shownAccessor owner binding ignorePrivate property.getter?
  setter? := decl.shownAccessor owner binding ignorePrivate property.setter?
  parameters := property.parameters.map (ShownParameter.of binding)
  attributes := property.attributes.map ShownAttribute.of
  owner

/-- The getter, unless it is hidden. -/
def visibleGetter? (property : ShownProperty) : Option ShownMethod :=
  property.getter?.filter fun method => !method.isHidden

/-- The setter, unless it is hidden. -/
def visibleSetter? (property : ShownProperty) : Option ShownMethod :=
  property.setter?.filter fun method => !method.isHidden

/-- The accessor that speaks for the property: the more visible of the two, the getter if they
are equally visible. -/
def primary? (property : ShownProperty) : Option ShownMethod :=
  match property.visibleGetter?, property.visibleSetter? with
  | some getter, some setter =>
    if getter.access.level < setter.access.level then some setter else some getter
  | some getter, none => some getter
  | none, setter? => setter?

/-- The access of the property: that of the accessor that speaks for it. -/
def access (property : ShownProperty) : Access :=
  (property.primary?.map ShownMethod.access).getD .declarer

/-- The modifier of the accessor that speaks for the property. -/
def modifier (property : ShownProperty) : MethodModifier :=
  (property.primary?.map ShownMethod.modifier).getD .plain

/-- The accessor that speaks for the property is static. -/
def isStatic (property : ShownProperty) : Bool := property.primary?.any ShownMethod.isStatic

/-- The property takes index parameters. -/
def isIndexer (property : ShownProperty) : Bool := !property.parameters.isEmpty

/-- The property has no visible accessor. -/
def isHidden (property : ShownProperty) : Bool := property.primary?.isNone

/-- The keyword of an accessor, after its access if that is not the property's. -/
def accessorText (property : ShownProperty) (keyword : String) (method : ShownMethod) : String :=
  if method.access = property.access then keyword else method.access.keyword ++ " " ++ keyword

/-- The visible accessors. -/
def accessorList (property : ShownProperty) : String :=
  Text.join " " ((property.visibleGetter?.map (property.accessorText "get;")).toList
    ++ (property.visibleSetter?.map (property.accessorText "set;")).toList)

/-- The declaration up to the accessors. -/
def head (property : ShownProperty) : String :=
  property.access.keyword ++ " " ++ Text.spaced property.modifier.keyword ++ property.type.name
    ++ " "
    ++ if property.isIndexer then "this[" ++ ShownParameter.listText property.parameters ++ "]"
      else property.name

/-- The property as it is declared in source. -/
def declaration (property : ShownProperty) : String :=
  property.head ++ " \x7b " ++ property.accessorList ++ " \x7d"

/-- The key under which a property hides inherited ones; indexers add their bound parameter
types. -/
def identityKey (property : ShownProperty) : String :=
  if property.isIndexer then property.name ++ DocId.boundParameters property.parameters
  else property.name

/-- The documentation identifier of a property. -/
def docId (property : ShownProperty) : String :=
  DocId.ofMember .property property.owner property.name
    ++ DocId.declaredParameters property.parameters

end ShownProperty

/-! ### Events -/

/-- An event as it is shown. -/
structure ShownEvent where
  name : String
  type : ShownType
  adder? : Option ShownMethod
  remover? : Option ShownMethod
  raiser? : Option ShownMethod
  attributes : List ShownAttribute
  owner : ShownOwner
  deriving DecidableEq, Repr

namespace ShownEvent

/-- The shown form of an event of a type, seen through a binding. -/
def of (decl : TypeDecl) (owner : ShownOwner) (binding : Binding) (ignorePrivate : Bool)
    (event : EventDecl) : ShownEvent where
  name := event.name
  type := ShownType.through binding event.type
  adder? := decl.shownAccessor owner binding ignorePrivate event.adder?
  remover? := decl.shownAccessor owner binding ignorePrivate event.remover?
  raiser? := decl.shownAccessor owner binding ignorePrivate event.raiser?
  attributes := event.attributes.map ShownAttribute.of
  owner

/-- The access of the event: that of its adder. -/
def access (event : ShownEvent) : Access := (event.adder?.map ShownMethod.access).getD .declarer

/-- The modifier of the adder. -/
def modifier (event : ShownEvent) : MethodModifier :=
  (event.adder?.map ShownMethod.modifier).getD .plain

/-- The adder is static. -/
def isStatic (event : ShownEvent) : Bool := event.adder?.any ShownMethod.isStatic

/-- The event has both an adder and a remover. -/
def isComplete (event : ShownEvent) : Bool := event.adder?.isSome && event.remover?.isSome

/-- The event lacks an adder or a remover, or its adder is hidden. -/
def isHidden (event : ShownEvent) : Bool :=
  !event.isComplete || event.adder?.any ShownMethod.isHidden

/-- The event as it is declared in source. -/
def declaration (event : ShownEvent) : String :=
  event.access.keyword ++ " " ++ Text.spaced event.modifier.keyword ++ "event " ++ event.type.name
    ++ " " ++ event.name

/-- The key under which an event hides inherited ones. -/
def identityKey (event : ShownEvent) : String := event.name

/-- The documentation identifier of an event. -/
def docId (event : ShownEvent) : String := DocId.ofMember .event event.owner event.name

end ShownEvent

end ApiSurface
