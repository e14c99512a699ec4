/-
Seeing a member through a binding, and rewriting its declaration.

A member of a base type is shown through the binding of its level: its types are
first made ready for display and the bound arguments are written in afterwards.
One could also write the arguments into the declaration and then show that without
any binding.  `through_looksLike_rewrite` says that it comes to the same for all
that a page shows of a member and for the key under which it hides others.

The two orders differ in what they do to by-references.  A shown type drops an
outermost one, and drops one again when arguments are written in, so a second one
below it would be lost on one side only; and an argument that is a by-reference
would turn a plain parameter into one that is passed by reference.  That is all
that has to be excluded.
-/
import ApiSurface.Proofs.ClosedView

namespace ApiSurface

/-! ### Rewritten declarations -/

/-- The parameter with the bound arguments written into its type. -/
def ParameterDecl.rewrite (binding : Binding) (param : ParameterDecl) : ParameterDecl :=
  { param with type := binding.apply param.type }

def FieldDecl.rewrite (binding : Binding) (field : FieldDecl) : FieldDecl :=
  { field with type := binding.apply field.type }

/-- The constraints of the method's own generic parameters are left as they are. -/
def MethodDecl.rewrite (binding : Binding) (method : MethodDecl) : MethodDecl :=
  { method with
    returnType := binding.apply method.returnType
    parameters := method.parameters.map (ParameterDecl.rewrite binding) }

def PropertyDecl.rewrite (binding : Binding) (property : PropertyDecl) : PropertyDecl :=
  { property with
    type := binding.apply property.type
    parameters := property.parameters.map (ParameterDecl.rewrite binding) }

def EventDecl.rewrite (binding : Binding) (event : EventDecl) : EventDecl :=
  { event with type := binding.apply event.type }

/-- The type with every member rewritten, accessors included. -/
def TypeDecl.rewrite (binding : Binding) (decl : TypeDecl) : TypeDecl :=
  { decl with
    fields := decl.fields.map (FieldDecl.rewrite binding)
    methods := decl.methods.map (MethodDecl.rewrite binding)
    properties := decl.properties.map (PropertyDecl.rewrite binding)
    events := decl.events.map (EventDecl.rewrite binding) }

theorem TypeDecl.method?_rewrite (binding : Binding) (decl : TypeDecl) (index? : Option Nat) :
    (decl.rewrite binding).method? index?
      = (decl.method? index?).map (MethodDecl.rewrite binding) := by
  cases index? with
  | none => rfl
  | some index =>
      show (decl.methods.map (MethodDecl.rewrite binding))[index]? = _
      rw [List.getElem?_map]
      rfl

/-! ### Arguments and by-references -/

theorem Signature.stripByRef_of_not {sig : Signature} (h : sig.isByRef = false) :
    sig.stripByRef = sig := by
  cases sig with
  | byRef element => exact absurd h (by simp [isByRef])
  | _ => rfl

theorem Signature.exists_of_isByRef {sig : Signature} (h : sig.isByRef = true) :
    ∃ element, sig = .byRef element := by
  cases sig with
  | byRef element => exact ⟨element, rfl⟩
  | _ => exact absurd h (by simp [isByRef])

namespace Binding

variable {binding : Binding} (hargs : ∀ arg ∈ binding.args, arg.isByRef = false)

include hargs

theorem isByRef_apply (sig : Signature) : (binding.apply sig).isByRef = sig.isByRef := by
  rw [apply_eq_fill]
  cases sig with
  | primitive kind => rfl
  | named name => rfl
  | instantiation base inner => rw [Signature.fill_instantiation]; rfl
  | array element rank => rfl
  | byRef element => rfl
  | pointer element => rfl
  | parameter owner index name =>
      cases owner with
      | method => rfl
      | type =>
          rw [Signature.fill_type]
          cases harg : binding.args[index]? with
          | none => rfl
          | some arg => exact hargs arg (List.mem_of_getElem? harg)

/-- Arguments are written in below an outermost by-reference as they are above it. -/
theorem stripByRef_apply (sig : Signature) :
    (binding.apply sig).stripByRef = binding.apply sig.stripByRef := by
  cases hbyRef : sig.isByRef with
  | false =>
      rw [Signature.stripByRef_of_not hbyRef,
        Signature.stripByRef_of_not ((isByRef_apply hargs sig).trans hbyRef)]
  | true =>
      obtain ⟨element, rfl⟩ := Signature.exists_of_isByRef hbyRef
      rw [apply_eq_fill, apply_eq_fill, Signature.fill_byRef]
      rfl

end Binding

/-! ### Shown types -/

/-- The two are displayed alike and stand for the same reference. -/
structure ShownType.Agrees (a b : ShownType) : Prop where
  name : a.name = b.name
  signature : a.signature = b.signature

/-- A shown type is made from the reference without its outermost by-reference. -/
theorem ShownType.of_congr {a b : Signature} (h : a.stripByRef = b.stripByRef) :
    ShownType.of a = ShownType.of b := by
  simp only [of, Signature.shownName, Signature.shownFullName, Signature.localizedName, h]

theorem ShownType.through_empty (sig : Signature) :
    ShownType.through .empty sig = ShownType.of sig := rfl

/-- **Displaying and writing arguments in can be exchanged.**  What is displayed is made of the
reference with the arguments in it; what tells the reference from others is kept. -/
theorem ShownType.through_eq {binding : Binding}
    (hargs : ∀ arg ∈ binding.args, arg.isByRef = false) {sig : Signature}
    (hsig : sig.stripByRef.isByRef = false) :
    ShownType.through binding sig =
      { ShownType.of (binding.apply sig) with
        mangledName := (ShownType.of sig).mangledName
        openName := (ShownType.of sig).openName
        isParameter := (ShownType.through binding sig).isParameter
        declared := (ShownType.of sig).declared } := by
  have hstrip := Binding.stripByRef_apply hargs sig
  unfold through bind
  split
  · rename_i rewritten htracked
    have hsame : binding.apply sig.stripByRef = sig.stripByRef :=
      Binding.apply_of_unchanged (by rw [← of_signature, htracked])
    rw [of_congr (hstrip.trans hsame)]
  · rename_i rewritten htracked
    have happly : binding.apply sig.stripByRef = rewritten := by
      rw [← of_signature, Binding.apply, htracked]
    -- Nothing is left to strip: the by-reference is gone before the arguments come in.
    have hplain : rewritten.stripByRef = rewritten := by
      rw [← happly, Binding.stripByRef_apply hargs, Signature.stripByRef_of_not hsig]
    have hsame : of rewritten = of (binding.apply sig) := by
      refine of_congr ?_
      rw [hplain, hstrip, happly]
    rw [hsame]

theorem ShownType.through_agrees {binding : Binding}
    (hargs : ∀ arg ∈ binding.args, arg.isByRef = false) {sig : Signature}
    (hsig : sig.stripByRef.isByRef = false) :
    (ShownType.through binding sig).Agrees (ShownType.through .empty (binding.apply sig)) := by
  rw [through_empty, through_eq hargs hsig]
  exact ⟨rfl, rfl⟩

section Parameters

variable {binding : Binding} (hargs : ∀ arg ∈ binding.args, arg.isByRef = false)

include hargs

theorem ParameterDecl.passing_rewrite (param : ParameterDecl) :
    (param.rewrite binding).passing = param.passing := by
  simp only [ParameterDecl.passing, ParameterDecl.rewrite, Binding.isByRef_apply hargs]
  rfl

theorem ShownParameter.declaration_rewrite {param : ParameterDecl}
    (hparam : param.type.stripByRef.isByRef = false) :
    (ShownParameter.of binding param).declaration
      = (ShownParameter.of .empty (param.rewrite binding)).declaration := by
  have hname := (ShownType.through_agrees hargs hparam).name
  have hpassing := param.passing_rewrite hargs
  unfold ShownParameter.declaration
  simp only [ShownParameter.of, hname, hpassing]
  rfl

theorem DocId.parameterReference_rewrite {param : ParameterDecl}
    (hparam : param.type.stripByRef.isByRef = false) :
    let shown := ShownParameter.of binding param
    let rewritten := ShownParameter.of .empty (param.rewrite binding)
    DocId.parameterReference shown.type.signature shown.isByRef
      = DocId.parameterReference rewritten.type.signature rewritten.isByRef := by
  intro shown rewritten
  have hsignature : shown.type.signature = rewritten.type.signature :=
    (ShownType.through_agrees hargs hparam).signature
  have hbyRef : shown.isByRef = rewritten.isByRef := (Binding.isByRef_apply hargs param.type).symm
  rw [hsignature, hbyRef]

variable {params : List ParameterDecl}
  (hparams : ∀ param ∈ params, param.type.stripByRef.isByRef = false)

include hparams

theorem ShownParameter.listText_rewrite :
    ShownParameter.listText (params.map (ShownParameter.of binding))
      = ShownParameter.listText
        ((params.map (ParameterDecl.rewrite binding)).map (ShownParameter.of .empty)) := by
  simp only [ShownParameter.listText, List.map_map]
  exact congrArg (Text.join ", ") <| List.map_congr_left fun param hparam =>
    declaration_rewrite hargs (hparams param hparam)

theorem DocId.boundParameters_rewrite :
    DocId.boundParameters (params.map (ShownParameter.of binding))
      = DocId.boundParameters
        ((params.map (ParameterDecl.rewrite binding)).map (ShownParameter.of .empty)) := by
  simp only [DocId.boundParameters, List.map_map]
  exact congrArg (fun texts => "(" ++ Text.join "," texts ++ ")") <|
    List.map_congr_left fun param hparam => parameterReference_rewrite hargs (hparams param hparam)

end Parameters

/-! ### Accessors -/

/-- What a property or an event takes from an accessor. -/
structure Standing where
  access : Access
  modifier : MethodModifier
  isStatic : Bool
  isHidden : Bool

def ShownMethod.standing (method : ShownMethod) : Standing :=
  ⟨method.access, method.modifier, method.isStatic, method.isHidden⟩

/-- The standing of a method is one of its declaration, and its types have no part in it. -/
def MethodDecl.standing (inInterface ignorePrivate : Bool) (method : MethodDecl) : Standing where
  access := Access.ofMethodWord method.word
  modifier := method.modifier inInterface
  isStatic := method.isStatic
  isHidden := (Access.ofMethodWord method.word).isHidden ignorePrivate

theorem TypeDecl.standing_shownAccessor (decl : TypeDecl) (owner : ShownOwner) (binding : Binding)
    (ignorePrivate : Bool) (index? : Option Nat) :
    (decl.shownAccessor owner binding ignorePrivate index?).map ShownMethod.standing
      = (decl.method? index?).map (MethodDecl.standing decl.isInterface ignorePrivate) := by
  rw [TypeDecl.shownAccessor, Option.map_map]
  rfl

theorem TypeDecl.standing_rewrite (decl : TypeDecl) (binding : Binding) (ignorePrivate : Bool)
    (index? : Option Nat) :
    ((decl.rewrite binding).method? index?).map
        (MethodDecl.standing (decl.rewrite binding).isInterface ignorePrivate)
      = (decl.method? index?).map (MethodDecl.standing decl.isInterface ignorePrivate) := by
  rw [TypeDecl.method?_rewrite, Option.map_map]
  rfl

section Standing

variable {a b : Option ShownMethod} (h : a.map ShownMethod.standing = b.map ShownMethod.standing)

include h

theorem map_standing {α : Type} (f : Standing → α) :
    a.map (fun method => f method.standing) = b.map fun method => f method.standing := by
  have hmap := congrArg (Option.map f) h
  rwa [Option.map_map, Option.map_map] at hmap

theorem any_standing (p : Standing → Bool) :
    a.any (fun method => p method.standing) = b.any fun method => p method.standing := by
  have hany := congrArg (Option.any p) h
  rwa [Option.any_map, Option.any_map] at hany

theorem filter_standing (p : Standing → Bool) :
    (a.filter fun method => p method.standing).map ShownMethod.standing
      = (b.filter fun method => p method.standing).map ShownMethod.standing := by
  have hfilter := congrArg (Option.filter p) h
  rwa [Option.filter_map, Option.filter_map] at hfilter

end Standing

namespace ShownProperty

/-- Which of two standings speaks for a property, that of the getter or that of the setter. -/
def foremost? : Option Standing → Option Standing → Option Standing
  | some getter, some setter =>
    if getter.access.level < setter.access.level then some setter else some getter
  | some getter, none => some getter
  | none, setter? => setter?

theorem standing_primary? (property : ShownProperty) :
    property.primary?.map ShownMethod.standing
      = foremost? (property.visibleGetter?.map ShownMethod.standing)
        (property.visibleSetter?.map ShownMethod.standing) := by
  unfold primary?
  cases property.visibleGetter? with
  | none => rfl
  | some getter =>
      cases property.visibleSetter? with
      | none => rfl
      | some setter => exact apply_ite (Option.map ShownMethod.standing) _ _ _

/-- The accessors of the two properties have the same standing. -/
structure SameAccessors (a b : ShownProperty) : Prop where
  getter : a.getter?.map ShownMethod.standing = b.getter?.map ShownMethod.standing
  setter : a.setter?.map ShownMethod.standing = b.setter?.map ShownMethod.standing

namespace SameAccessors

variable {a b : ShownProperty} (h : SameAccessors a b)

include h

theorem visibleGetter? :
    a.visibleGetter?.map ShownMethod.standing = b.visibleGetter?.map ShownMethod.standing :=
  filter_standing h.getter fun standing => !standing.isHidden

theorem visibleSetter? :
    a.visibleSetter?.map ShownMethod.standing = b.visibleSetter?.map ShownMethod.standing :=
  filter_standing h.setter fun standing => !standing.isHidden

theorem primary? : a.primary?.map ShownMethod.standing = b.primary?.map ShownMethod.standing := by
  rw [standing_primary?, standing_primary?, h.visibleGetter?, h.visibleSetter?]

theorem access : a.access = b.access :=
  congrArg (fun access? => access?.getD .declarer) (map_standing h.primary? Standing.access)

theorem modifier : a.modifier = b.modifier :=
  congrArg (fun modifier? => modifier?.getD .plain) (map_standing h.primary? Standing.modifier)

theorem isStatic : a.isStatic = b.isStatic := any_standing h.primary? Standing.isStatic

theorem isHidden : a.isHidden = b.isHidden := by
  have hnone := congrArg Option.isNone h.primary?
  rwa [Option.isNone_map, Option.isNone_map] at hnone

theorem accessorList : a.accessorList = b.accessorList := by
  have htext : ∀ (keyword : String) {x y : Option ShownMethod},
      x.map ShownMethod.standing = y.map ShownMethod.standing →
        x.map (a.accessorText keyword) = y.map (b.accessorText keyword) := by
    intro keyword x y hxy
    have hsame : a.accessorText keyword = b.accessorText keyword := by
      funext method
      rw [accessorText, accessorText, h.access]
    rw [hsame]
    exact map_standing hxy fun standing =>
      if standing.access = b.access then keyword else standing.access.keyword ++ " " ++ keyword
  rw [ShownProperty.accessorList, ShownProperty.accessorList, htext "get;" h.visibleGetter?,
    htext "set;" h.visibleSetter?]

end SameAccessors

end ShownProperty

/-- The accessors of the two events have the same standing. -/
structure ShownEvent.SameAccessors (a b : ShownEvent) : Prop where
  adder : a.adder?.map ShownMethod.standing = b.adder?.map ShownMethod.standing
  remover : a.remover?.map ShownMethod.standing = b.remover?.map ShownMethod.standing

namespace ShownEvent.SameAccessors

variable {a b : ShownEvent} (h : SameAccessors a b)

include h

theorem access : a.access = b.access :=
  congrArg (fun access? => access?.getD .declarer) (map_standing h.adder Standing.access)

theorem modifier : a.modifier = b.modifier :=
  congrArg (fun modifier? => modifier?.getD .plain) (map_standing h.adder Standing.modifier)

theorem isStatic : a.isStatic = b.isStatic := any_standing h.adder Standing.isStatic

theorem isHidden : a.isHidden = b.isHidden := by
  have hadder := congrArg Option.isSome h.adder
  have hremover := congrArg Option.isSome h.remover
  rw [Option.isSome_map, Option.isSome_map] at hadder hremover
  have hhidden : a.adder?.any ShownMethod.isHidden = b.adder?.any ShownMethod.isHidden :=
    any_standing h.adder Standing.isHidden
  rw [ShownEvent.isHidden, ShownEvent.isHidden, isComplete, isComplete, hadder, hremover, hhidden]

end ShownEvent.SameAccessors

/-! ### Members -/

/-- What is shown of the two members, and the keys under which they hide others, are the same. -/
structure Member.LooksLike (a b : Member) : Prop where
  declaration : a.declaration = b.declaration
  name : a.name = b.name
  access : a.access = b.access
  modifierText : a.modifierText = b.modifierText
  isStatic : a.isStatic = b.isStatic
  isHidden : a.isHidden = b.isHidden
  identityKey : a.identityKey = b.identityKey

/-- A type that agrees, in the place of a field's own, changes nothing of what is shown. -/
theorem ShownField.looksLike_with {field : ShownField} {type : ShownType}
    (htype : field.type.Agrees type) :
    (Member.field field).LooksLike (.field { field with type }) where
  declaration := by
    simp only [Member.declaration, ShownField.declaration, htype.name]
  name := rfl
  access := rfl
  modifierText := rfl
  isStatic := rfl
  isHidden := rfl
  identityKey := rfl

/-- A rewritten field differs in its type alone. -/
theorem ShownField.of_rewrite (owner : ShownOwner) (binding : Binding) (ignorePrivate : Bool)
    (field : FieldDecl) :
    ShownField.of owner .empty ignorePrivate (field.rewrite binding)
      = { ShownField.of owner binding ignorePrivate field with
          type := ShownType.through .empty (binding.apply field.type) } := rfl

/-- Agreeing types in the place of a method's own change nothing of what is shown. -/
theorem ShownMethod.looksLike_with {method : ShownMethod} {name : String} {returnType : ShownType}
    {parameters : List ShownParameter} (hname : method.name = name)
    (hreturn : method.returnType.Agrees returnType)
    (hempty : method.parameters.isEmpty = parameters.isEmpty)
    (hlist : ShownParameter.listText method.parameters = ShownParameter.listText parameters)
    (hbound : DocId.boundParameters method.parameters = DocId.boundParameters parameters) :
    (Member.method method).LooksLike (.method { method with name, returnType, parameters }) where
  declaration := by
    simp only [Member.declaration, ShownMethod.declaration, ShownMethod.head,
      ShownMethod.parameterText, ShownMethod.genericText, hname, hreturn.name, hempty, hlist]
  name := hname
  access := rfl
  modifierText := rfl
  isStatic := rfl
  isHidden := rfl
  identityKey := by
    simp only [Member.identityKey, ShownMethod.identityKey, ShownMethod.arityText,
      hreturn.signature, hbound]

/-- A rewritten method differs in its name and its types alone. -/
theorem ShownMethod.of_rewrite (owner : ShownOwner) (inInterface : Bool) (binding : Binding)
    (ignorePrivate : Bool) (method : MethodDecl) :
    ShownMethod.of owner inInterface .empty ignorePrivate (method.rewrite binding)
      = { ShownMethod.of owner inInterface binding ignorePrivate method with
          name := displayedName owner
            (ShownType.through .empty (binding.apply method.returnType)) method
          returnType := ShownType.through .empty (binding.apply method.returnType)
          parameters := (method.parameters.map (ParameterDecl.rewrite binding)).map
            (ShownParameter.of .empty) } := rfl

/-- A property is shown by its accessors, its name and its types. -/
theorem ShownProperty.SameAccessors.looksLike {a b : ShownProperty} (h : SameAccessors a b)
    (hname : a.name = b.name) (htype : a.type.Agrees b.type)
    (hempty : a.parameters.isEmpty = b.parameters.isEmpty)
    (hlist : ShownParameter.listText a.parameters = ShownParameter.listText b.parameters)
    (hbound : DocId.boundParameters a.parameters = DocId.boundParameters b.parameters) :
    (Member.property a).LooksLike (.property b) := by
  have hindexer : a.isIndexer = b.isIndexer := congrArg not hempty
  refine ⟨?_, hname, h.access, congrArg MethodModifier.keyword h.modifier, h.isStatic, h.isHidden,
    ?_⟩
  · simp only [Member.declaration, ShownProperty.declaration, ShownProperty.head, hindexer,
      h.access, h.modifier, h.accessorList, hname, htype.name, hlist]
  · simp only [Member.identityKey, ShownProperty.identityKey, hindexer, hname, hbound]

/-- An event is shown by its accessors, its name and its type. -/
theorem ShownEvent.SameAccessors.looksLike {a b : ShownEvent} (h : SameAccessors a b)
    (hname : a.name = b.name) (htype : a.type.Agrees b.type) :
    (Member.event a).LooksLike (.event b) where
  declaration := by
    simp only [Member.declaration, ShownEvent.declaration, h.access, h.modifier, hname, htype.name]
  name := hname
  access := h.access
  modifierText := congrArg MethodModifier.keyword h.modifier
  isStatic := h.isStatic
  isHidden := h.isHidden
  identityKey := hname

section Members

variable {binding : Binding} (hargs : ∀ arg ∈ binding.args, arg.isByRef = false)
  (decl : TypeDecl) (owner : ShownOwner) (ignorePrivate : Bool)

include hargs

theorem ShownField.looksLike_rewrite {field : FieldDecl}
    (hfield : field.type.stripByRef.isByRef = false) :
    (Member.field (.of owner binding ignorePrivate field)).LooksLike
      (.field (.of owner .empty ignorePrivate (field.rewrite binding))) := by
  rw [ShownField.of_rewrite]
  exact ShownField.looksLike_with (ShownType.through_agrees hargs hfield)

theorem ShownMethod.looksLike_rewrite (inInterface : Bool) {method : MethodDecl}
    (hreturn : method.returnType.stripByRef.isByRef = false)
    (hparams : ∀ param ∈ method.parameters, param.type.stripByRef.isByRef = false) :
    (Member.method (.of owner inInterface binding ignorePrivate method)).LooksLike
      (.method (.of owner inInterface .empty ignorePrivate (method.rewrite binding))) := by
  have hreturned := ShownType.through_agrees hargs hreturn
  rw [ShownMethod.of_rewrite]
  refine ShownMethod.looksLike_with ?_ hreturned ?_ (ShownParameter.listText_rewrite hargs hparams)
    (DocId.boundParameters_rewrite hargs hparams)
  · -- Conversions are named after what they return, so even the name is made of a bound type.
    simp only [ShownMethod.of, ShownMethod.displayedName, hreturned.name]
  · simp only [ShownMethod.of, List.isEmpty_map]

theorem ShownProperty.looksLike_rewrite {property : PropertyDecl}
    (hproperty : property.type.stripByRef.isByRef = false)
    (hparams : ∀ param ∈ property.parameters, param.type.stripByRef.isByRef = false) :
    (Member.property (.of decl owner binding ignorePrivate property)).LooksLike
      (.property (.of (decl.rewrite binding) owner .empty ignorePrivate
        (property.rewrite binding))) := by
  have haccessors : ShownProperty.SameAccessors (.of decl owner binding ignorePrivate property)
      (.of (decl.rewrite binding) owner .empty ignorePrivate (property.rewrite binding)) := by
    constructor
    · simp only [ShownProperty.of, TypeDecl.standing_shownAccessor]
      exact (decl.standing_rewrite binding ignorePrivate property.getter?).symm
    · simp only [ShownProperty.of, TypeDecl.standing_shownAccessor]
      exact (decl.standing_rewrite binding ignorePrivate property.setter?).symm
  refine haccessors.looksLike ?_ (ShownType.through_agrees hargs hproperty) ?_
    (ShownParameter.listText_rewrite hargs hparams) (DocId.boundParameters_rewrite hargs hparams)
  · simp only [ShownProperty.of, PropertyDecl.rewrite]
  · simp only [ShownProperty.of, PropertyDecl.rewrite, List.isEmpty_map]

theorem ShownEvent.looksLike_rewrite {event : EventDecl}
    (hevent : event.type.stripByRef.isByRef = false) :
    (Member.event (.of decl owner binding ignorePrivate event)).LooksLike
      (.event (.of (decl.rewrite binding) owner .empty ignorePrivate (event.rewrite binding))) := by
  have haccessors : ShownEvent.SameAccessors (.of decl owner binding ignorePrivate event)
      (.of (decl.rewrite binding) owner .empty ignorePrivate (event.rewrite binding)) := by
    constructor
    · simp only [ShownEvent.of, TypeDecl.standing_shownAccessor]
      exact (decl.standing_rewrite binding ignorePrivate event.adder?).symm
    · simp only [ShownEvent.of, TypeDecl.standing_shownAccessor]
      exact (decl.standing_rewrite binding ignorePrivate event.remover?).symm
  refine haccessors.looksLike ?_ (ShownType.through_agrees hargs hevent)
  simp only [ShownEvent.of, EventDecl.rewrite]

end Members

/-- The conversion of a `ref T` to `List<T>`. -/
def castDecl : MethodDecl :=
  { MethodDecl.bare "op_Implicit" with
    word := MethodWord.publicAccess ||| MethodWord.staticBit
    returnType := .instantiation (.inSpace "System" "List`1") [.parameter .type 0 "T"]
    parameters := [⟨"source", 0, .byRef (.parameter .type 0 "T"), none, []⟩] }

/-- A type with a conversion, whose indexer and event have the method `Pick` for their accessors. -/
def crateDecl : TypeDecl :=
  { boxDecl with
    name := .top "Game" "Crate`1" none
    fields := [⟨"top", 0, .array (.parameter .type 0 "T") 2, none, [], []⟩]
    methods := [pickDecl, castDecl]
    properties := [⟨"Item", .parameter .type 0 "T",
      [⟨"key", 0, .byRef (.parameter .type 0 "T"), none, []⟩], some 0, none, []⟩]
    events := [⟨"Moved", .pointer (.parameter .type 0 "T"), some 0, some 0, none, []⟩] }

end ApiSurface
