/-
The accessors of a finished type.

Properties and events point at their accessors by index into the methods of the
type.  A draft still has the accessors apart.  Finishing it appends them to the
methods one after the other, and the index handed out is the number of methods so
far.  So the indexes of all accessors, in the order in which they were asked for,
are the numbers from the number of declared methods on, without a gap: `Links`
says that of any part of the way.  Methods are only ever appended, so what stands
at an index stays there, and in the finished type each accessor is where its
property or event points: `TypeDraft.finish_links_accessors`.

Finishing checks names and changes nothing else.  What a draft says is therefore
written down without the checks, as `MethodDraft.decl` and the like, and every
draft that can be finished is finished as that.
-/
import ApiSurface.Draft.Type
import Mathlib.Data.List.Forall2

namespace ApiSurface

theorem exists_of_bind_eq_ok {ε α β : Type} {first : Except ε α} {next : α → Except ε β} {b : β}
    (h : (first >>= next) = .ok b) : ∃ a, first = .ok a ∧ next a = .ok b := by
  cases first with
  | error error => cases h
  | ok a => exact ⟨a, rfl, h⟩

/-! ### What drafts say -/

/-- The parameter, its name unchecked. -/
def ParameterDraft.decl (draft : ParameterDraft) : ParameterDecl :=
  ⟨draft.name, draft.word, draft.type, draft.default?, draft.attributes⟩

/-- The generic parameter at a position, its name unchecked. -/
def GenericDraft.decl (owner : ParameterOwner) (index : Nat) (draft : GenericDraft) :
    GenericDecl :=
  ⟨owner, index, draft.name, draft.word, draft.constraints⟩

/-- The method, its names unchecked. -/
def MethodDraft.decl (draft : MethodDraft) : MethodDecl :=
  ⟨draft.name, draft.word, draft.role, draft.returnType, draft.parameters.map ParameterDraft.decl,
    draft.generics.mapIdx (GenericDraft.decl .method), draft.attributes⟩

theorem eq_map_of_mapM_eq_ok {ε α β : Type} {f : α → Except ε β} {g : α → β}
    (hf : ∀ a b, f a = .ok b → b = g a) {items : List α} :
    ∀ {results : List β}, items.mapM f = .ok results → results = items.map g := by
  induction items with
  | nil =>
      intro results h
      cases h
      rfl
  | cons item rest ih =>
      intro results h
      rw [List.mapM_cons] at h
      obtain ⟨first, hfirst, h⟩ := exists_of_bind_eq_ok h
      obtain ⟨others, hothers, h⟩ := exists_of_bind_eq_ok h
      cases h
      rw [hf item first hfirst, ih hothers, List.map_cons]

theorem ParameterDraft.eq_decl_of_finish {draft : ParameterDraft} {param : ParameterDecl}
    (h : draft.finish = .ok param) : param = draft.decl := by
  unfold finish at h
  split at h
  · cases h
  · cases h
    rfl

theorem GenericDraft.eq_decl_of_finish {owner : ParameterOwner} {index : Nat}
    {draft : GenericDraft} {param : GenericDecl} (h : draft.finish owner index = .ok param) :
    param = draft.decl owner index := by
  unfold finish at h
  split at h
  · cases h
  · split at h
    · cases h
      rfl
    · cases h

theorem GenericDraft.eq_mapIdx_of_finishFrom {owner : ParameterOwner} {drafts : List GenericDraft} :
    ∀ {index : Nat} {params : List GenericDecl}, finishFrom owner index drafts = .ok params →
      params = drafts.mapIdx fun offset draft => draft.decl owner (index + offset) := by
  induction drafts with
  | nil =>
      intro index params h
      cases h
      rfl
  | cons draft rest ih =>
      intro index params h
      obtain ⟨param, hparam, h⟩ := exists_of_bind_eq_ok h
      obtain ⟨others, hothers, h⟩ := exists_of_bind_eq_ok h
      cases h
      rw [List.mapIdx_cons, eq_decl_of_finish hparam, ih hothers]
      simp only [Nat.add_zero, Nat.add_assoc, Nat.add_comm 1]

theorem MethodDraft.eq_decl_of_finish {draft : MethodDraft} {method : MethodDecl}
    (h : draft.finish = .ok method) : method = draft.decl := by
  unfold finish at h
  split at h
  · cases h
  · obtain ⟨parameters, hparameters, h⟩ := exists_of_bind_eq_ok h
    obtain ⟨generics, hgenerics, h⟩ := exists_of_bind_eq_ok h
    cases h
    rw [eq_map_of_mapM_eq_ok (fun _ _ => ParameterDraft.eq_decl_of_finish) hparameters,
      GenericDraft.eq_mapIdx_of_finishFrom hgenerics]
    simp only [decl, Nat.zero_add]

/-! ### Indexes in range -/

/-- The indexes of the accessors of a property. -/
def PropertyDecl.indexes (property : PropertyDecl) : List Nat :=
  property.getter?.toList ++ property.setter?.toList

/-- The indexes of the accessors of an event. -/
def EventDecl.indexes (event : EventDecl) : List Nat :=
  event.adder?.toList ++ event.remover?.toList ++ event.raiser?.toList

/-- All accessors of the properties and events are methods of the type. -/
structure TypeDecl.Linked (decl : TypeDecl) : Prop where
  properties : ∀ property ∈ decl.properties, ∀ index ∈ property.indexes,
    index < decl.methods.length
  events : ∀ event ∈ decl.events, ∀ index ∈ event.indexes, index < decl.methods.length

namespace TypeDecl.Linked

variable {decl : TypeDecl} (hlinked : decl.Linked)

include hlinked

theorem getter_lt {property : PropertyDecl} (hproperty : property ∈ decl.properties) {index : Nat}
    (hindex : index ∈ property.getter?) : index < decl.methods.length :=
  hlinked.properties property hproperty index
    (List.mem_append_left _ (Option.mem_toList.mpr hindex))

theorem setter_lt {property : PropertyDecl} (hproperty : property ∈ decl.properties) {index : Nat}
    (hindex : index ∈ property.setter?) : index < decl.methods.length :=
  hlinked.properties property hproperty index
    (List.mem_append_right _ (Option.mem_toList.mpr hindex))

theorem adder_lt {event : EventDecl} (hevent : event ∈ decl.events) {index : Nat}
    (hindex : index ∈ event.adder?) : index < decl.methods.length :=
  hlinked.events event hevent index
    (List.mem_append_left _ (List.mem_append_left _ (Option.mem_toList.mpr hindex)))

theorem remover_lt {event : EventDecl} (hevent : event ∈ decl.events) {index : Nat}
    (hindex : index ∈ event.remover?) : index < decl.methods.length :=
  hlinked.events event hevent index
    (List.mem_append_left _ (List.mem_append_right _ (Option.mem_toList.mpr hindex)))

theorem raiser_lt {event : EventDecl} (hevent : event ∈ decl.events) {index : Nat}
    (hindex : index ∈ event.raiser?) : index < decl.methods.length :=
  hlinked.events event hevent index (List.mem_append_right _ (Option.mem_toList.mpr hindex))

end TypeDecl.Linked

/-! ### Linking -/

/-- The methods of the drafts were appended, and the indexes are their places. -/
structure Links (methods methods' : List MethodDecl) (drafts : List MethodDraft)
    (indexes : List Nat) : Prop where
  methods_eq : methods' = methods ++ drafts.map MethodDraft.decl
  indexes_eq : indexes = List.range' methods.length drafts.length

theorem Links.refl (methods : List MethodDecl) : Links methods methods [] [] :=
  ⟨(List.append_nil methods).symm, rfl⟩

theorem Links.trans {methods methods' methods'' : List MethodDecl}
    {drafts drafts' : List MethodDraft} {indexes indexes' : List Nat}
    (h : Links methods methods' drafts indexes)
    (h' : Links methods' methods'' drafts' indexes') :
    Links methods methods'' (drafts ++ drafts') (indexes ++ indexes') where
  methods_eq := by
    rw [h'.methods_eq, h.methods_eq, List.map_append, List.append_assoc]
  indexes_eq := by
    rw [h'.indexes_eq, h.indexes_eq, h.methods_eq, List.length_append, List.length_map,
      List.length_append, List.range'_append_1]

theorem Links.isPrefix {methods methods' : List MethodDecl} {drafts : List MethodDraft}
    {indexes : List Nat} (h : Links methods methods' drafts indexes) : methods <+: methods' :=
  ⟨drafts.map MethodDraft.decl, h.methods_eq.symm⟩

theorem linkAccessor_links {methods methods' : List MethodDecl} {accessor? : Option MethodDraft}
    {index? : Option Nat} (h : linkAccessor methods accessor? = .ok (methods', index?)) :
    Links methods methods' accessor?.toList index?.toList := by
  cases accessor? with
  | none =>
      cases h
      exact .refl methods
  | some draft =>
      obtain ⟨method, hmethod, h⟩ := exists_of_bind_eq_ok h
      cases h
      rw [MethodDraft.eq_decl_of_finish hmethod]
      exact ⟨rfl, rfl⟩

/-! ### Accessors in their places -/

theorem AttributeWord.has_or_self (word bits : AttributeWord) :
    has (word ||| bits) bits = true := by
  refine decide_eq_true (UInt32.eq_of_toBitVec_eq ?_)
  rw [UInt32.toBitVec_and, UInt32.toBitVec_or]
  ext i
  simpa using Or.inr

/-- The method plays that part in a property or an event. -/
structure MethodDecl.Plays (method : MethodDecl) (name : String) (role : AttributeWord)
    (returnType : Signature) (parameters : List ParameterDecl) : Prop where
  name_eq : method.name = name
  role_eq : method.role = role
  special : method.word.has MethodWord.specialName = true
  returnType_eq : method.returnType = returnType
  parameters_eq : method.parameters = parameters

/-- There is an accessor exactly if one was asked for, and it is at its index. -/
structure AccessorAt (methods : List MethodDecl) (requested? : Option MethodDraft)
    (index? : Option Nat) (name : String) (role : AttributeWord) (returnType : Signature)
    (parameters : List ParameterDecl) : Prop where
  isSome_eq : index?.isSome = requested?.isSome
  plays : ∀ index ∈ index?, ∃ method, methods[index]? = some method
    ∧ method.Plays name role returnType parameters

theorem AccessorAt.mono {methods methods' : List MethodDecl} {requested? : Option MethodDraft}
    {index? : Option Nat} {name : String} {role : AttributeWord} {returnType : Signature}
    {parameters : List ParameterDecl} (hstart : methods <+: methods')
    (h : AccessorAt methods requested? index? name role returnType parameters) :
    AccessorAt methods' requested? index? name role returnType parameters where
  isSome_eq := h.isSome_eq
  plays := by
    intro index hindex
    obtain ⟨method, hmethod, hplays⟩ := h.plays index hindex
    obtain ⟨hlt, rfl⟩ := List.getElem?_eq_some_iff.mp hmethod
    exact ⟨_, List.prefix_iff_getElem?.mp hstart index hlt, hplays⟩

theorem linkAccessor_accessorAt {methods methods' : List MethodDecl}
    {requested? : Option MethodDraft} {index? : Option Nat} {name : String} {role : AttributeWord}
    {returnType : Signature} {parameters : List ParameterDraft}
    (h : linkAccessor methods (requested?.map
      (MethodDraft.asAccessor name role returnType parameters)) = .ok (methods', index?)) :
    AccessorAt methods' requested? index? name role returnType
      (parameters.map ParameterDraft.decl) := by
  cases requested? with
  | none =>
      cases h
      exact ⟨rfl, fun index hindex => absurd hindex (Option.not_mem_none index)⟩
  | some draft =>
      obtain ⟨method, hmethod, h⟩ := exists_of_bind_eq_ok h
      cases h
      refine ⟨rfl, fun index hindex => ⟨method, ?_, ?_⟩⟩
      · rw [← Option.some.inj hindex, List.getElem?_concat_length]
      · rw [MethodDraft.eq_decl_of_finish hmethod]
        exact ⟨rfl, rfl, AttributeWord.has_or_self _ _, rfl, rfl⟩

/-- The accessors of a property, as they are asked for: getter, setter. -/
def PropertyDraft.accessors (draft : PropertyDraft) : List MethodDraft :=
  draft.getterDraft.toList ++ draft.setterDraft.toList

/-- The finished property has the accessors that were asked for: a getter that takes the index
parameters and gives the type of the property, and a setter that takes the new value as well. -/
structure PropertyDraft.FinishedAs (methods : List MethodDecl) (draft : PropertyDraft)
    (property : PropertyDecl) : Prop where
  name_eq : property.name = draft.name
  type_eq : property.type = draft.type
  parameters_eq : property.parameters = draft.parameters.map ParameterDraft.decl
  getter : AccessorAt methods draft.getter? property.getter? ("get_" ++ property.name)
    RoleWord.getter property.type property.parameters
  setter : AccessorAt methods draft.setter? property.setter? ("set_" ++ property.name)
    RoleWord.setter (.primitive .void)
    (property.parameters ++ [⟨"value", 0, property.type, none, []⟩])

theorem PropertyDraft.FinishedAs.mono {methods methods' : List MethodDecl} {draft : PropertyDraft}
    {property : PropertyDecl} (hstart : methods <+: methods')
    (h : draft.FinishedAs methods property) : draft.FinishedAs methods' property :=
  { h with getter := h.getter.mono hstart, setter := h.setter.mono hstart }

theorem PropertyDraft.finish_spec {methods methods' : List MethodDecl} {draft : PropertyDraft}
    {property : PropertyDecl} (h : draft.finish methods = .ok (methods', property)) :
    Links methods methods' draft.accessors property.indexes
      ∧ draft.FinishedAs methods' property := by
  unfold finish at h
  split at h
  · cases h
  · obtain ⟨⟨middle, getter?⟩, hgetter, h⟩ := exists_of_bind_eq_ok h
    obtain ⟨⟨last, setter?⟩, hsetter, h⟩ := exists_of_bind_eq_ok h
    obtain ⟨parameters, hparameters, h⟩ := exists_of_bind_eq_ok h
    cases h
    have hsetterLinks := linkAccessor_links hsetter
    refine ⟨(linkAccessor_links hgetter).trans hsetterLinks, ?_⟩
    have hdecls : parameters = draft.parameters.map ParameterDraft.decl :=
      eq_map_of_mapM_eq_ok (fun _ _ => ParameterDraft.eq_decl_of_finish) hparameters
    subst hdecls
    refine ⟨rfl, rfl, rfl, (linkAccessor_accessorAt hgetter).mono hsetterLinks.isPrefix, ?_⟩
    simpa [ParameterDraft.decl, ParameterDraft.plain] using linkAccessor_accessorAt hsetter

/-- The accessors of an event, as they are asked for: adder, remover, raiser. -/
def EventDraft.accessors (draft : EventDraft) : List MethodDraft :=
  (draft.accessorDraft "add" RoleWord.adder draft.adder?).toList
    ++ (draft.accessorDraft "remove" RoleWord.remover draft.remover?).toList
    ++ (draft.accessorDraft "raise" RoleWord.raiser draft.raiser?).toList

/-- The finished event has the accessors that were asked for; each of them takes the handler. -/
structure EventDraft.FinishedAs (methods : List MethodDecl) (draft : EventDraft)
    (event : EventDecl) : Prop where
  name_eq : event.name = draft.name
  type_eq : event.type = draft.type
  adder : AccessorAt methods draft.adder? event.adder? ("add_" ++ event.name) RoleWord.adder
    (.primitive .void) [⟨"value", 0, event.type, none, []⟩]
  remover : AccessorAt methods draft.remover? event.remover? ("remove_" ++ event.name)
    RoleWord.remover (.primitive .void) [⟨"value", 0, event.type, none, []⟩]
  raiser : AccessorAt methods draft.raiser? event.raiser? ("raise_" ++ event.name) RoleWord.raiser
    (.primitive .void) [⟨"value", 0, event.type, none, []⟩]

theorem EventDraft.FinishedAs.mono {methods methods' : List MethodDecl} {draft : EventDraft}
    {event : EventDecl} (hstart : methods <+: methods') (h : draft.FinishedAs methods event) :
    draft.FinishedAs methods' event :=
  { h with
    adder := h.adder.mono hstart
    remover := h.remover.mono hstart
    raiser := h.raiser.mono hstart }

theorem EventDraft.finish_spec {methods methods' : List MethodDecl} {draft : EventDraft}
    {event : EventDecl} (h : draft.finish methods = .ok (methods', event)) :
    Links methods methods' draft.accessors event.indexes ∧ draft.FinishedAs methods' event := by
  unfold finish at h
  split at h
  · cases h
  · obtain ⟨⟨second, adder?⟩, hadder, h⟩ := exists_of_bind_eq_ok h
    obtain ⟨⟨third, remover?⟩, hremover, h⟩ := exists_of_bind_eq_ok h
    obtain ⟨⟨last, raiser?⟩, hraiser, h⟩ := exists_of_bind_eq_ok h
    cases h
    have hremoverLinks := linkAccessor_links hremover
    have hraiserLinks := linkAccessor_links hraiser
    refine ⟨((linkAccessor_links hadder).trans hremoverLinks).trans hraiserLinks, rfl, rfl,
      ?_, ?_, ?_⟩
    · exact (linkAccessor_accessorAt hadder).mono
        (hremoverLinks.isPrefix.trans hraiserLinks.isPrefix)
    · exact (linkAccessor_accessorAt hremover).mono hraiserLinks.isPrefix
    · exact linkAccessor_accessorAt hraiser

/-! ### The whole type -/

/-- What holds of one draft holds of a list of them, since each is finished with the methods that
the ones before it have left, and stays so when others are appended. -/
theorem links_of_finishAll {δ ι : Type} {accessors : δ → List MethodDraft} {indexes : ι → List Nat}
    (FinishedAs : List MethodDecl → δ → ι → Prop)
    {finish : List MethodDecl → δ → Except Malformation (List MethodDecl × ι)}
    {finishAll : List MethodDecl → List δ → Except Malformation (List MethodDecl × List ι)}
    (hnil : ∀ methods, finishAll methods [] = .ok (methods, []))
    (hcons : ∀ methods draft rest, finishAll methods (draft :: rest) = (do
      let (methods, item) ← finish methods draft
      let (methods, items) ← finishAll methods rest
      return (methods, item :: items)))
    (hmono : ∀ {methods methods' draft item}, methods <+: methods' →
      FinishedAs methods draft item → FinishedAs methods' draft item)
    (hspec : ∀ {methods methods' draft item}, finish methods draft = .ok (methods', item) →
      Links methods methods' (accessors draft) (indexes item) ∧ FinishedAs methods' draft item)
    {drafts : List δ} :
    ∀ {methods methods' : List MethodDecl} {items : List ι},
      finishAll methods drafts = .ok (methods', items) →
        Links methods methods' (drafts.flatMap accessors) (items.flatMap indexes)
          ∧ List.Forall₂ (FinishedAs methods') drafts items := by
  induction drafts with
  | nil =>
      intro methods methods' items h
      cases (hnil methods).symm.trans h
      exact ⟨.refl methods, .nil⟩
  | cons draft rest ih =>
      intro methods methods' items h
      rw [hcons] at h
      obtain ⟨⟨middle, item⟩, hitem, h⟩ := exists_of_bind_eq_ok h
      obtain ⟨⟨last, others⟩, hothers, h⟩ := exists_of_bind_eq_ok h
      cases h
      obtain ⟨hlinks, hfinished⟩ := hspec hitem
      obtain ⟨hlinks', hfinished'⟩ := ih hothers
      rw [List.flatMap_cons, List.flatMap_cons]
      exact ⟨hlinks.trans hlinks', .cons (hmono hlinks'.isPrefix hfinished) hfinished'⟩

/-- The accessors of a type, as they are asked for: those of its properties and then those of its
events. -/
def TypeDraft.accessors (draft : TypeDraft) : List MethodDraft :=
  draft.properties.flatMap PropertyDraft.accessors ++ draft.events.flatMap EventDraft.accessors

/-- The indexes of all accessors of the type. -/
def TypeDecl.indexes (decl : TypeDecl) : List Nat :=
  decl.properties.flatMap PropertyDecl.indexes ++ decl.events.flatMap EventDecl.indexes

/-- What a draft of a type is finished as, apart from what is copied. -/
structure TypeDraft.FinishedAs (draft : TypeDraft) (decl : TypeDecl) : Prop where
  links : Links (draft.methods.map MethodDraft.decl) decl.methods draft.accessors decl.indexes
  properties : List.Forall₂ (PropertyDraft.FinishedAs decl.methods) draft.properties decl.properties
  events : List.Forall₂ (EventDraft.FinishedAs decl.methods) draft.events decl.events
  generics : decl.generics = draft.generics.mapIdx (GenericDraft.decl .type)

theorem TypeDraft.finish_spec {draft : TypeDraft} {decl : TypeDecl} (h : draft.finish = .ok decl) :
    draft.FinishedAs decl := by
  unfold finish at h
  split at h
  · cases h
  · obtain ⟨visibility, -, h⟩ := exists_of_bind_eq_ok h
    obtain ⟨declared, hdeclared, h⟩ := exists_of_bind_eq_ok h
    obtain ⟨⟨middle, properties⟩, hproperties, h⟩ := exists_of_bind_eq_ok h
    obtain ⟨⟨methods, events⟩, hevents, h⟩ := exists_of_bind_eq_ok h
    obtain ⟨generics, hgenerics, h⟩ := exists_of_bind_eq_ok h
    obtain ⟨fields, -, h⟩ := exists_of_bind_eq_ok h
    cases h
    have hdecls : declared = draft.methods.map MethodDraft.decl :=
      eq_map_of_mapM_eq_ok (fun _ _ => MethodDraft.eq_decl_of_finish) hdeclared
    subst hdecls
    obtain ⟨hlinks, hlinked⟩ := links_of_finishAll PropertyDraft.FinishedAs (fun _ => rfl)
      (fun _ _ _ => rfl) PropertyDraft.FinishedAs.mono PropertyDraft.finish_spec hproperties
    obtain ⟨hlinks', hlinked'⟩ := links_of_finishAll EventDraft.FinishedAs (fun _ => rfl)
      (fun _ _ _ => rfl) EventDraft.FinishedAs.mono EventDraft.finish_spec hevents
    refine ⟨hlinks.trans hlinks', ?_, hlinked', ?_⟩
    · exact hlinked.imp fun _ _ => PropertyDraft.FinishedAs.mono hlinks'.isPrefix
    · simpa only [Nat.zero_add] using GenericDraft.eq_mapIdx_of_finishFrom hgenerics

namespace TypeDraft.FinishedAs

variable {draft : TypeDraft} {decl : TypeDecl} (h : draft.FinishedAs decl)

include h

theorem methods_eq : decl.methods = (draft.methods ++ draft.accessors).map MethodDraft.decl := by
  rw [h.links.methods_eq, List.map_append]

theorem indexes_eq : decl.indexes = List.range' draft.methods.length draft.accessors.length := by
  rw [h.links.indexes_eq, List.length_map]

theorem mem_indexes {index : Nat} : index ∈ decl.indexes ↔
    draft.methods.length ≤ index ∧ index < decl.methods.length := by
  rw [h.indexes_eq, List.mem_range'_1, h.methods_eq, List.length_map, List.length_append]

end TypeDraft.FinishedAs

/-- **A finished type has all its accessors among its methods.** -/
theorem TypeDraft.finish_linked {draft : TypeDraft} {decl : TypeDecl}
    (h : draft.finish = .ok decl) : decl.Linked where
  properties property hproperty _ hindex :=
    ((finish_spec h).mem_indexes.mp
      (List.mem_append_left _ (List.mem_flatMap.mpr ⟨property, hproperty, hindex⟩))).2
  events event hevent _ hindex :=
    ((finish_spec h).mem_indexes.mp
      (List.mem_append_right _ (List.mem_flatMap.mpr ⟨event, hevent, hindex⟩))).2

/-- The generic parameters are numbered from zero and belong to that kind of owner. -/
def NumberedFor (owner : ParameterOwner) (params : List GenericDecl) : Prop :=
  ∀ (index : Nat) (param : GenericDecl), params[index]? = some param →
    param.index = index ∧ param.owner = owner

theorem numberedFor_mapIdx_decl (owner : ParameterOwner) (drafts : List GenericDraft) :
    NumberedFor owner (drafts.mapIdx (GenericDraft.decl owner)) := by
  intro index param hparam
  rw [List.getElem?_mapIdx] at hparam
  obtain ⟨draft, -, rfl⟩ := Option.map_eq_some_iff.mp hparam
  exact ⟨rfl, rfl⟩

/-- No declared method plays a part in a property or an event: parts are given out when the draft is
finished, and no draft of a method starts with one. -/
def TypeDraft.Unassigned (draft : TypeDraft) : Prop :=
  ∀ method ∈ draft.methods, method.role = 0

/-- **A finished type is linked to its accessors.**  The methods of a finished type are the declared
ones and then one for each accessor that was asked for, in order: those of the properties, getter
before setter, and those of the events, adder, remover and raiser.  The indexes of the accessors are
the places of these methods, so they are in range and no two are the same.  The method at the index
has the name, role and types that its property or event gives it, and no other method has a role.
The generic parameters of the type and of all methods are numbered by their position. -/
theorem TypeDraft.finish_links_accessors {draft : TypeDraft} {decl : TypeDecl}
    (hroles : draft.Unassigned) (h : draft.finish = .ok decl) :
    decl.methods = (draft.methods ++ draft.accessors).map MethodDraft.decl ∧
    decl.indexes = List.range' draft.methods.length draft.accessors.length ∧
    decl.indexes.Nodup ∧
    (∀ index ∈ decl.indexes, index < decl.methods.length) ∧
    List.Forall₂ (PropertyDraft.FinishedAs decl.methods) draft.properties decl.properties ∧
    List.Forall₂ (EventDraft.FinishedAs decl.methods) draft.events decl.events ∧
    (∀ (index : Nat) (method : MethodDecl), decl.methods[index]? = some method →
      index ∉ decl.indexes → method.role = 0) ∧
    decl.generics = draft.generics.mapIdx (GenericDraft.decl .type) ∧
    NumberedFor .type decl.generics ∧
    ∀ method ∈ decl.methods, NumberedFor .method method.generics := by
  have hspec := finish_spec h
  refine ⟨hspec.methods_eq, hspec.indexes_eq, ?_,
    fun index hindex => (hspec.mem_indexes.mp hindex).2,
    hspec.properties, hspec.events, ?_, hspec.generics, ?_, ?_⟩
  · rw [hspec.indexes_eq]
    exact List.nodup_range'
  · intro index method hmethod hindex
    have hlt : index < draft.methods.length := by
      by_contra hge
      exact hindex (hspec.mem_indexes.mpr
        ⟨Nat.le_of_not_lt hge, (List.getElem?_eq_some_iff.mp hmethod).1⟩)
    rw [hspec.methods_eq, List.getElem?_map, List.getElem?_append_left hlt] at hmethod
    obtain ⟨declared, hdeclared, rfl⟩ := Option.map_eq_some_iff.mp hmethod
    exact hroles declared (List.mem_of_getElem? hdeclared)
  · rw [hspec.generics]
    exact numberedFor_mapIdx_decl .type draft.generics
  · rw [hspec.methods_eq]
    intro method hmethod
    obtain ⟨declared, -, rfl⟩ := List.mem_map.mp hmethod
    exact numberedFor_mapIdx_decl .method declared.generics

/-! ### An indexer and an event -/

/-- The class `Chest` with a method, an indexer and an event that cannot be raised. -/
def chestDraft : TypeDraft :=
  { TypeDraft.referenceType "Game" "Chest" with
    methods := [{ MethodDraft.plain "Open" with generics := [⟨"T", 0, []⟩] }]
    properties := [⟨"Item", .primitive .string, [.plain "slot" (.primitive .int32)],
      some (.plain ""), some (.plain ""), []⟩]
    events := [⟨"Changed", .inSpace "System" "EventHandler", some (.plain ""), some (.plain ""),
      none, []⟩] }

/-- The four accessors of `Chest` stand behind its method, which alone has no role. -/
theorem TypeDraft.finish_links_accessors_chest :
    chestDraft.Unassigned ∧ ∃ decl, chestDraft.finish = .ok decl ∧
      decl.methods.map MethodDecl.name
        = ["Open", "get_Item", "set_Item", "add_Changed", "remove_Changed"] ∧
      decl.indexes = [1, 2, 3, 4] ∧ decl.indexes.Nodup ∧
      List.Forall₂ (PropertyDraft.FinishedAs decl.methods) chestDraft.properties decl.properties ∧
      List.Forall₂ (EventDraft.FinishedAs decl.methods) chestDraft.events decl.events ∧
      ∀ (index : Nat) (method : MethodDecl), decl.methods[index]? = some method →
        index ∉ decl.indexes → method.role = 0 := by
  have hroles : chestDraft.Unassigned := by
    simp [Unassigned, chestDraft, MethodDraft.plain]
  refine ⟨hroles, _, rfl, ?_⟩
  obtain ⟨-, hindexes, hnodup, -, hproperties, hevents, hothers, -⟩ :=
    finish_links_accessors hroles rfl
  exact ⟨rfl, hindexes, hnodup, hproperties, hevents, hothers⟩

end ApiSurface
