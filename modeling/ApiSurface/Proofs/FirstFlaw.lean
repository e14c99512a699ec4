/-
What is wrong with a draft of a type.

Finishing a draft goes through its parts and stops at the first one that cannot be
finished.  The parts are finished by drafts of their own, which give accessors
their names and parameters, append methods on the way and number what they find.
None of that matters for what can go wrong: `TypeDraft.flaws` goes through the draft
as it is and lists everything that is wrong with it.  An accessor is only asked for
its generic parameters, since it gets a name from its property or event, and its
parameters are those of the property, which are looked at there.

`StopsAt` says of a computation that it ends at the first entry of a list of flaws.
Computations in sequence go with lists one behind the other, so there is one lemma
for each part of a draft, and `TypeDraft.finish_stopsAt` puts them together.
-/
import ApiSurface.Draft.Type

namespace ApiSurface

/-! ### Stopping at the first flaw -/

section StopsAt

variable {ε α β : Type}

/-- The computation ends with the first of the flaws, and gives a result if there are none. -/
def StopsAt (flaws : List ε) : Except ε α → Prop
  | .ok _ => flaws = []
  | .error flaw => flaws.head? = some flaw

theorem StopsAt.ok (a : α) : StopsAt ([] : List ε) (.ok a) := rfl

theorem StopsAt.error (flaw : ε) (later : List ε) :
    StopsAt (flaw :: later) (.error flaw : Except ε α) := rfl

variable {flaws flaws' : List ε} {result : Except ε α}

/-- Only the first flaw counts. -/
theorem StopsAt.congr (h : StopsAt flaws result) (hhead : flaws.head? = flaws'.head?) :
    StopsAt flaws' result := by
  cases result with
  | ok a =>
      obtain rfl : flaws = [] := h
      exact List.head?_eq_none_iff.mp hhead.symm
  | error flaw => exact hhead.symm.trans h

/-- What comes later is looked at only if there is no flaw before. -/
theorem StopsAt.bind {next : α → Except ε β} (h : StopsAt flaws result)
    (hnext : ∀ a, StopsAt flaws' (next a)) : StopsAt (flaws ++ flaws') (result >>= next) := by
  cases result with
  | ok a =>
      obtain rfl : flaws = [] := h
      exact hnext a
  | error flaw =>
      show (flaws ++ flaws').head? = some flaw
      rw [List.head?_append, show flaws.head? = some flaw from h]
      rfl

/-- A last step that cannot fail adds no flaw. -/
theorem StopsAt.map {f : α → β} (h : StopsAt flaws result) :
    StopsAt flaws (result >>= fun a => pure (f a)) := by
  have hbind := h.bind fun a => StopsAt.ok (f a)
  rwa [List.append_nil] at hbind

theorem StopsAt.mapM {f : α → Except ε β} {flawsOf : α → List ε} (items : List α)
    (h : ∀ item ∈ items, StopsAt (flawsOf item) (f item)) :
    StopsAt (items.flatMap flawsOf) (items.mapM f) := by
  induction items with
  | nil => exact .ok []
  | cons item rest ih =>
      have hrest := ih fun other hother => h other (List.mem_cons_of_mem item hother)
      rw [List.mapM_cons, List.flatMap_cons]
      exact (h item List.mem_cons_self).bind fun _ => hrest.map

/-- What is the same for all items and for the whole is met before what is their own. -/
theorem head?_flatMap_append (common : List ε) (own : α → List ε) (items : List α) :
    (items.flatMap (fun item => common ++ own item) ++ common).head?
      = (common ++ items.flatMap own).head? := by
  cases common with
  | nil => simp
  | cons flaw rest =>
      cases items with
      | nil => simp
      | cons item others => simp

theorem StopsAt.exists_eq_ok_iff (h : StopsAt flaws result) :
    (∃ a, result = .ok a) ↔ flaws = [] := by
  cases result with
  | ok a => exact ⟨fun _ => h, fun _ => ⟨a, rfl⟩⟩
  | error flaw =>
      refine ⟨fun ⟨a, ha⟩ => (by cases ha), ?_⟩
      rintro rfl
      cases (h : none = some flaw)

theorem StopsAt.eq_error_iff (h : StopsAt flaws result) (flaw : ε) :
    result = .error flaw ↔ flaws.head? = some flaw := by
  cases result with
  | ok a =>
      obtain rfl : flaws = [] := h
      exact ⟨fun heq => (by cases heq), fun heq => (by cases heq)⟩
  | error first =>
      rw [show flaws.head? = some first from h, Except.error.injEq, Option.some.injEq]

end StopsAt

/-! ### Names that are missing -/

/-- The flaw of a name that is missing. -/
def flawOfName (name : String) (flaw : Malformation) : List Malformation :=
  if name.isEmpty then [flaw] else []

theorem flawOfName_eq_nil_iff {name : String} {flaw : Malformation} :
    flawOfName name flaw = [] ↔ name ≠ "" := by
  unfold flawOfName
  by_cases hname : name = ""
  · simp [hname]
  · simp [hname]

/-- A check of the name comes before everything else. -/
theorem StopsAt.named {α : Type} {flaws : List Malformation} {result : Except Malformation α}
    (h : StopsAt flaws result) (name : String) (flaw : Malformation) :
    StopsAt (flawOfName name flaw ++ flaws) (if name.isEmpty then .error flaw else result) := by
  unfold flawOfName
  by_cases hname : name.isEmpty
  · rw [if_pos hname, if_pos hname]
    exact .error flaw flaws
  · rw [if_neg hname, if_neg hname]
    exact h

/-! ### The flaws of each part -/

def ParameterDraft.flaws (draft : ParameterDraft) : List Malformation :=
  flawOfName draft.name (.unnamedParameter draft.type)

/-- Generic parameters are told by their positions. -/
def GenericDraft.flawsFrom (index : Nat) (drafts : List GenericDraft) : List Malformation :=
  (drafts.zipIdx index).flatMap fun (draft, index) => flawOfName draft.name (.unnamedGeneric index)

def MethodDraft.flaws (draft : MethodDraft) : List Malformation :=
  flawOfName draft.name .unnamedMethod ++
    (draft.parameters.flatMap ParameterDraft.flaws ++ GenericDraft.flawsFrom 0 draft.generics)

def FieldDraft.flaws (draft : FieldDraft) : List Malformation :=
  flawOfName draft.name (.unnamedField draft.type)

/-- The accessors of a property as they are given, whatever their names and parameters. -/
def PropertyDraft.givenAccessors (draft : PropertyDraft) : List MethodDraft :=
  draft.getter?.toList ++ draft.setter?.toList

/-- The accessors of an event as they are given, whatever their names and parameters. -/
def EventDraft.givenAccessors (draft : EventDraft) : List MethodDraft :=
  draft.adder?.toList ++ draft.remover?.toList ++ draft.raiser?.toList

def PropertyDraft.flaws (draft : PropertyDraft) : List Malformation :=
  flawOfName draft.name (.unnamedProperty draft.type) ++
    (draft.parameters.flatMap ParameterDraft.flaws ++
      draft.givenAccessors.flatMap fun accessor => GenericDraft.flawsFrom 0 accessor.generics)

def EventDraft.flaws (draft : EventDraft) : List Malformation :=
  flawOfName draft.name (.unnamedEvent draft.type) ++
    draft.givenAccessors.flatMap fun accessor => GenericDraft.flawsFrom 0 accessor.generics

/-- A type of a namespace is public or not; the other visibilities are those of nested types. -/
def TypeDraft.VisibilityFits (draft : TypeDraft) : Prop :=
  draft.outer?.isSome ∨ draft.visibility = TypeWord.publicTop
    ∨ draft.visibility = TypeWord.notPublic

instance (draft : TypeDraft) : Decidable draft.VisibilityFits :=
  inferInstanceAs (Decidable (_ ∨ _ ∨ _))

def TypeDraft.visibilityFlaws (draft : TypeDraft) : List Malformation :=
  if draft.VisibilityFits then [] else [.nestedVisibility draft.name draft.visibility]

/-- All that is wrong with a draft: with its name and its visibility, and then with its methods,
properties, events, generic parameters and fields. -/
def TypeDraft.flaws (draft : TypeDraft) : List Malformation :=
  flawOfName draft.name (.unnamedType draft.space) ++
    (draft.visibilityFlaws ++
      (draft.methods.flatMap MethodDraft.flaws ++
        (draft.properties.flatMap PropertyDraft.flaws ++
          (draft.events.flatMap EventDraft.flaws ++
            (GenericDraft.flawsFrom 0 draft.generics ++
              draft.fields.flatMap FieldDraft.flaws)))))

/-! ### Finishing stops at the first flaw -/

/-- Where only the name is checked, it is the only flaw. -/
theorem StopsAt.named_ok {α : Type} (a : α) (name : String) (flaw : Malformation) :
    StopsAt (flawOfName name flaw) (if name.isEmpty then .error flaw else .ok a) := by
  have hnamed := (StopsAt.ok a).named name flaw
  rwa [List.append_nil] at hnamed

theorem ParameterDraft.finish_stopsAt (draft : ParameterDraft) :
    StopsAt draft.flaws draft.finish :=
  .named_ok _ draft.name (.unnamedParameter draft.type)

theorem FieldDraft.finish_stopsAt (draft : FieldDraft) : StopsAt draft.flaws draft.finish :=
  .named_ok _ draft.name (.unnamedField draft.type)

theorem GenericDraft.finish_stopsAt (draft : GenericDraft) (owner : ParameterOwner) {index : Nat}
    (hindex : index < indexLimit) :
    StopsAt (flawOfName draft.name (.unnamedGeneric index)) (draft.finish owner index) := by
  unfold GenericDraft.finish
  rw [if_pos hindex]
  exact .named_ok _ draft.name (.unnamedGeneric index)

theorem GenericDraft.finishFrom_stopsAt (owner : ParameterOwner) {drafts : List GenericDraft} :
    ∀ {index : Nat}, index + drafts.length ≤ indexLimit →
      StopsAt (flawsFrom index drafts) (finishFrom owner index drafts) := by
  induction drafts with
  | nil =>
      intro index _
      exact .ok []
  | cons draft rest ih =>
      intro index hindex
      rw [List.length_cons] at hindex
      have hrest := ih (show index + 1 + rest.length ≤ indexLimit by omega)
      rw [flawsFrom, List.zipIdx_cons, List.flatMap_cons]
      exact (draft.finish_stopsAt owner (by omega)).bind fun _ => hrest.map

/-- The list has fewer than 2³² generic parameters, so all their positions are small enough. -/
def GenericDraft.IndexesFit (drafts : List GenericDraft) : Prop := drafts.length < indexLimit

instance (drafts : List GenericDraft) : Decidable (GenericDraft.IndexesFit drafts) :=
  inferInstanceAs (Decidable (_ < _))

theorem GenericDraft.IndexesFit.finish_stopsAt {drafts : List GenericDraft} (h : IndexesFit drafts)
    (owner : ParameterOwner) :
    StopsAt (flawsFrom 0 drafts) (finishFrom owner 0 drafts) := by
  refine finishFrom_stopsAt owner ?_
  rw [Nat.zero_add]
  exact Nat.le_of_lt h

theorem MethodDraft.finish_stopsAt {draft : MethodDraft}
    (hindexes : GenericDraft.IndexesFit draft.generics) : StopsAt draft.flaws draft.finish := by
  have hparameters := StopsAt.mapM draft.parameters fun param _ => param.finish_stopsAt
  refine StopsAt.named ?_ draft.name .unnamedMethod
  exact hparameters.bind fun _ => (hindexes.finish_stopsAt .method).map

/-- An accessor is a method with the name and the parameters that it is given. -/
theorem MethodDraft.flaws_asAccessor (draft : MethodDraft) {name : String} (hname : name ≠ "")
    (role : AttributeWord) (returnType : Signature) (parameters : List ParameterDraft) :
    (draft.asAccessor name role returnType parameters).flaws
      = parameters.flatMap ParameterDraft.flaws ++ GenericDraft.flawsFrom 0 draft.generics := by
  show flawOfName name .unnamedMethod ++ _ = _
  rw [flawOfName_eq_nil_iff.mpr hname]
  rfl

theorem ne_empty_of_append {start rest : String} (h : start ≠ "") : start ++ rest ≠ "" := by
  intro hempty
  exact h (String.append_eq_empty_iff.mp hempty).1

/-- An accessor that gets its name and its parameters keeps its generic parameters. -/
theorem linkAccessor_stopsAt {given? : Option MethodDraft} {name : String} (hname : name ≠ "")
    (role : AttributeWord) (returnType : Signature) (parameters : List ParameterDraft)
    (hindexes : ∀ accessor ∈ given?.toList, GenericDraft.IndexesFit accessor.generics)
    (methods : List MethodDecl) :
    StopsAt (given?.toList.flatMap fun accessor =>
        parameters.flatMap ParameterDraft.flaws ++ GenericDraft.flawsFrom 0 accessor.generics)
      (linkAccessor methods (given?.map (.asAccessor name role returnType parameters))) := by
  cases given? with
  | none => exact .ok _
  | some accessor =>
      have hfinish : StopsAt _ (accessor.asAccessor name role returnType parameters).finish :=
        MethodDraft.finish_stopsAt (hindexes accessor (by simp))
      rw [accessor.flaws_asAccessor hname] at hfinish
      rw [Option.toList_some, List.flatMap_singleton]
      exact hfinish.map

/-- The parameter for the new value has a name. -/
theorem ParameterDraft.flatMap_flaws_value (parameters : List ParameterDraft) (type : Signature) :
    (parameters ++ [plain "value" type]).flatMap flaws = parameters.flatMap flaws := by
  rw [List.flatMap_append]
  exact List.append_nil _

theorem PropertyDraft.finish_stopsAt {draft : PropertyDraft}
    (hindexes : ∀ accessor ∈ draft.givenAccessors, GenericDraft.IndexesFit accessor.generics)
    (methods : List MethodDecl) : StopsAt draft.flaws (draft.finish methods) := by
  have hget : "get_" ++ draft.name ≠ "" := ne_empty_of_append (by decide)
  have hset : "set_" ++ draft.name ≠ "" := ne_empty_of_append (by decide)
  have hgetter := linkAccessor_stopsAt hget RoleWord.getter draft.type draft.parameters
    fun accessor h => hindexes accessor (List.mem_append_left _ h)
  have hsetter := linkAccessor_stopsAt hset RoleWord.setter (.primitive .void)
    (draft.parameters ++ [.plain "value" draft.type])
    fun accessor h => hindexes accessor (List.mem_append_right _ h)
  rw [ParameterDraft.flatMap_flaws_value] at hsetter
  have hparameters := StopsAt.mapM draft.parameters fun param _ => param.finish_stopsAt
  have hhead := head?_flatMap_append (draft.parameters.flatMap ParameterDraft.flaws)
    (fun accessor : MethodDraft => GenericDraft.flawsFrom 0 accessor.generics) draft.givenAccessors
  rw [givenAccessors, List.flatMap_append, List.append_assoc] at hhead
  refine StopsAt.named (StopsAt.congr ?_ hhead) draft.name (.unnamedProperty draft.type)
  exact (hgetter methods).bind fun linked => (hsetter linked.1).bind fun _ => hparameters.map

/-- The one parameter of an accessor of an event has a name. -/
theorem EventDraft.accessor_stopsAt (draft : EventDraft) (verb : String) (role : AttributeWord)
    {given? : Option MethodDraft} (hverb : verb ≠ "")
    (hindexes : ∀ accessor ∈ given?.toList, GenericDraft.IndexesFit accessor.generics)
    (methods : List MethodDecl) :
    StopsAt (given?.toList.flatMap fun accessor => GenericDraft.flawsFrom 0 accessor.generics)
      (linkAccessor methods (draft.accessorDraft verb role given?)) :=
  linkAccessor_stopsAt (ne_empty_of_append (ne_empty_of_append hverb)) role (.primitive .void)
    [.plain "value" draft.type] hindexes methods

theorem EventDraft.finish_stopsAt {draft : EventDraft}
    (hindexes : ∀ accessor ∈ draft.givenAccessors, GenericDraft.IndexesFit accessor.generics)
    (methods : List MethodDecl) : StopsAt draft.flaws (draft.finish methods) := by
  have hadder := draft.accessor_stopsAt "add" RoleWord.adder (by decide) fun accessor h =>
    hindexes accessor (List.mem_append_left _ (List.mem_append_left _ h))
  have hremover := draft.accessor_stopsAt "remove" RoleWord.remover (by decide) fun accessor h =>
    hindexes accessor (List.mem_append_left _ (List.mem_append_right _ h))
  have hraiser := draft.accessor_stopsAt "raise" RoleWord.raiser (by decide) fun accessor h =>
    hindexes accessor (List.mem_append_right _ h)
  refine StopsAt.named ?_ draft.name (.unnamedEvent draft.type)
  rw [givenAccessors, List.flatMap_append, List.flatMap_append, List.append_assoc]
  exact (hadder methods).bind fun linked => (hremover linked.1).bind fun linked =>
    (hraiser linked.1).map

/-- Properties and events are finished one after the other, each with the methods of those
before. -/
theorem stopsAt_finishAll {δ ι : Type}
    {finish : List MethodDecl → δ → Except Malformation (List MethodDecl × ι)}
    (finishAll : List MethodDecl → List δ → Except Malformation (List MethodDecl × List ι))
    (hnil : ∀ methods, finishAll methods [] = .ok (methods, []))
    (hcons : ∀ methods draft rest, finishAll methods (draft :: rest) = do
      let (methods, item) ← finish methods draft
      let (methods, items) ← finishAll methods rest
      return (methods, item :: items))
    {flaws : δ → List Malformation} {drafts : List δ}
    (h : ∀ draft ∈ drafts, ∀ methods, StopsAt (flaws draft) (finish methods draft)) :
    ∀ methods, StopsAt (drafts.flatMap flaws) (finishAll methods drafts) := by
  induction drafts with
  | nil =>
      intro methods
      rw [hnil]
      exact .ok _
  | cons draft rest ih =>
      intro methods
      have hrest := ih fun other hother => h other (List.mem_cons_of_mem draft hother)
      rw [hcons, List.flatMap_cons]
      exact (h draft List.mem_cons_self methods).bind fun finished => (hrest finished.1).map

theorem TypeDraft.finishedVisibility_stopsAt (draft : TypeDraft) :
    StopsAt draft.visibilityFlaws draft.finishedVisibility := by
  unfold visibilityFlaws
  by_cases hfits : draft.VisibilityFits
  · rw [if_pos hfits]
    unfold finishedVisibility
    cases houter : draft.outer? with
    | some outer =>
        simp only
        split
        · exact .ok _
        · split
          · exact .ok _
          · exact .ok _
    | none =>
        have hplain := hfits.resolve_left (by simp [houter])
        simp only
        rw [if_pos hplain]
        exact .ok _
  · rw [if_neg hfits]
    unfold finishedVisibility
    cases houter : draft.outer? with
    | some outer => exact absurd (Or.inl (by rw [houter]; rfl)) hfits
    | none =>
        simp only
        rw [if_neg fun hplain => hfits (Or.inr hplain)]
        exact .error _ []

/-- Every list of generic parameters in the draft has fewer than 2³² of them. -/
structure TypeDraft.IndexesFit (draft : TypeDraft) : Prop where
  generics : GenericDraft.IndexesFit draft.generics
  methods : ∀ method ∈ draft.methods, GenericDraft.IndexesFit method.generics
  properties : ∀ property ∈ draft.properties, ∀ accessor ∈ property.givenAccessors,
    GenericDraft.IndexesFit accessor.generics
  events : ∀ event ∈ draft.events, ∀ accessor ∈ event.givenAccessors,
    GenericDraft.IndexesFit accessor.generics

theorem TypeDraft.finish_stopsAt {draft : TypeDraft} (hindexes : draft.IndexesFit) :
    StopsAt draft.flaws draft.finish := by
  have hmethods := StopsAt.mapM draft.methods fun method h =>
    MethodDraft.finish_stopsAt (hindexes.methods method h)
  have hproperties := stopsAt_finishAll PropertyDraft.finishAll (fun _ => rfl) (fun _ _ _ => rfl)
    fun property h => PropertyDraft.finish_stopsAt (hindexes.properties property h)
  have hevents := stopsAt_finishAll EventDraft.finishAll (fun _ => rfl) (fun _ _ _ => rfl)
    fun event h => EventDraft.finish_stopsAt (hindexes.events event h)
  have hfields := StopsAt.mapM draft.fields fun field _ => field.finish_stopsAt
  refine StopsAt.named (draft.finishedVisibility_stopsAt.bind fun visibility => ?_) draft.name
    (.unnamedType draft.space)
  exact hmethods.bind fun methods => (hproperties methods).bind fun linked =>
    (hevents linked.1).bind fun _ =>
      (hindexes.generics.finish_stopsAt .type).bind fun _ => hfields.map

/-! ### Drafts without flaws -/

/-- The method has a name, and so have its parameters and generic parameters. -/
structure MethodDraft.WellNamed (draft : MethodDraft) : Prop where
  name : draft.name ≠ ""
  parameters : ∀ param ∈ draft.parameters, param.name ≠ ""
  generics : ∀ param ∈ draft.generics, param.name ≠ ""

/-- The property has a name, and so have its parameters and the generic parameters of its
accessors. -/
structure PropertyDraft.WellNamed (draft : PropertyDraft) : Prop where
  name : draft.name ≠ ""
  parameters : ∀ param ∈ draft.parameters, param.name ≠ ""
  accessors : ∀ accessor ∈ draft.givenAccessors, ∀ param ∈ accessor.generics, param.name ≠ ""

/-- The event has a name, and so have the generic parameters of its accessors. -/
structure EventDraft.WellNamed (draft : EventDraft) : Prop where
  name : draft.name ≠ ""
  accessors : ∀ accessor ∈ draft.givenAccessors, ∀ param ∈ accessor.generics, param.name ≠ ""

/-- Everything in the draft that needs a name has one, and the visibility fits. -/
structure TypeDraft.WellNamed (draft : TypeDraft) : Prop where
  name : draft.name ≠ ""
  visibility : draft.VisibilityFits
  methods : ∀ method ∈ draft.methods, method.WellNamed
  properties : ∀ property ∈ draft.properties, property.WellNamed
  events : ∀ event ∈ draft.events, event.WellNamed
  generics : ∀ param ∈ draft.generics, param.name ≠ ""
  fields : ∀ field ∈ draft.fields, field.name ≠ ""

theorem flatMap_flaws_eq_nil_iff {α : Type} {items : List α} {flaws : α → List Malformation}
    {good : α → Prop} (h : ∀ item, flaws item = [] ↔ good item) :
    items.flatMap flaws = [] ↔ ∀ item ∈ items, good item := by
  rw [List.flatMap_eq_nil_iff]
  exact forall₂_congr fun item _ => h item

theorem GenericDraft.flawsFrom_eq_nil_iff {drafts : List GenericDraft} :
    ∀ {index : Nat}, flawsFrom index drafts = [] ↔ ∀ draft ∈ drafts, draft.name ≠ "" := by
  induction drafts with
  | nil => simp [flawsFrom]
  | cons draft rest ih =>
      intro index
      have hrest : flawsFrom (index + 1) rest = [] ↔ _ := ih
      rw [flawsFrom] at hrest ⊢
      rw [List.zipIdx_cons, List.flatMap_cons, List.append_eq_nil_iff, hrest,
        flawOfName_eq_nil_iff, List.forall_mem_cons]

theorem ParameterDraft.flatMap_flaws_eq_nil_iff {drafts : List ParameterDraft} :
    drafts.flatMap flaws = [] ↔ ∀ draft ∈ drafts, draft.name ≠ "" :=
  ApiSurface.flatMap_flaws_eq_nil_iff fun _ => flawOfName_eq_nil_iff

theorem FieldDraft.flatMap_flaws_eq_nil_iff {drafts : List FieldDraft} :
    drafts.flatMap flaws = [] ↔ ∀ draft ∈ drafts, draft.name ≠ "" :=
  ApiSurface.flatMap_flaws_eq_nil_iff fun _ => flawOfName_eq_nil_iff

theorem MethodDraft.flaws_eq_nil_iff (draft : MethodDraft) :
    draft.flaws = [] ↔ draft.WellNamed := by
  unfold flaws
  rw [List.append_eq_nil_iff, List.append_eq_nil_iff, flawOfName_eq_nil_iff,
    ParameterDraft.flatMap_flaws_eq_nil_iff, GenericDraft.flawsFrom_eq_nil_iff]
  exact ⟨fun ⟨hname, hparameters, hgenerics⟩ => ⟨hname, hparameters, hgenerics⟩,
    fun h => ⟨h.name, h.parameters, h.generics⟩⟩

theorem flatMap_flawsFrom_eq_nil_iff {accessors : List MethodDraft} :
    (accessors.flatMap fun accessor => GenericDraft.flawsFrom 0 accessor.generics) = []
      ↔ ∀ accessor ∈ accessors, ∀ param ∈ accessor.generics, param.name ≠ "" :=
  flatMap_flaws_eq_nil_iff fun _ => GenericDraft.flawsFrom_eq_nil_iff

theorem PropertyDraft.flaws_eq_nil_iff (draft : PropertyDraft) :
    draft.flaws = [] ↔ draft.WellNamed := by
  unfold flaws
  rw [List.append_eq_nil_iff, List.append_eq_nil_iff, flawOfName_eq_nil_iff,
    ParameterDraft.flatMap_flaws_eq_nil_iff, flatMap_flawsFrom_eq_nil_iff]
  exact ⟨fun ⟨hname, hparameters, haccessors⟩ => ⟨hname, hparameters, haccessors⟩,
    fun h => ⟨h.name, h.parameters, h.accessors⟩⟩

theorem EventDraft.flaws_eq_nil_iff (draft : EventDraft) :
    draft.flaws = [] ↔ draft.WellNamed := by
  unfold flaws
  rw [List.append_eq_nil_iff, flawOfName_eq_nil_iff, flatMap_flawsFrom_eq_nil_iff]
  exact ⟨fun ⟨hname, haccessors⟩ => ⟨hname, haccessors⟩, fun h => ⟨h.name, h.accessors⟩⟩

theorem TypeDraft.visibilityFlaws_eq_nil_iff (draft : TypeDraft) :
    draft.visibilityFlaws = [] ↔ draft.VisibilityFits := by
  unfold visibilityFlaws
  split
  · rename_i hfits
    exact ⟨fun _ => hfits, fun _ => rfl⟩
  · rename_i hfits
    exact ⟨fun hnil => absurd hnil (List.cons_ne_nil _ _), fun h => absurd h hfits⟩

theorem TypeDraft.flaws_eq_nil_iff (draft : TypeDraft) : draft.flaws = [] ↔ draft.WellNamed := by
  unfold flaws
  simp only [List.append_eq_nil_iff, flawOfName_eq_nil_iff, visibilityFlaws_eq_nil_iff,
    flatMap_flaws_eq_nil_iff MethodDraft.flaws_eq_nil_iff,
    flatMap_flaws_eq_nil_iff PropertyDraft.flaws_eq_nil_iff,
    flatMap_flaws_eq_nil_iff EventDraft.flaws_eq_nil_iff, GenericDraft.flawsFrom_eq_nil_iff,
    FieldDraft.flatMap_flaws_eq_nil_iff]
  exact ⟨fun ⟨hname, hvisibility, hmethods, hproperties, hevents, hgenerics, hfields⟩ =>
      ⟨hname, hvisibility, hmethods, hproperties, hevents, hgenerics, hfields⟩,
    fun h => ⟨h.name, h.visibility, h.methods, h.properties, h.events, h.generics, h.fields⟩⟩

/--
**A draft is finished exactly if all is named, and else its first flaw is reported.**  What has to
have a name are the type, its methods with their parameters and generic parameters, its properties
with their parameters, its events, the generic parameters of accessors, those of the type, and its
fields; and only a nested type may have the visibility of one.  The first flaw is the first one in
the order type name, visibility, methods, properties, events, generic parameters, fields.
-/
theorem TypeDraft.finish_reports_first_flaw {draft : TypeDraft} (hindexes : draft.IndexesFit) :
    ((∃ decl, draft.finish = .ok decl) ↔ draft.WellNamed) ∧
      ∀ flaw, draft.finish = .error flaw ↔ draft.flaws.head? = some flaw := by
  have hstops := finish_stopsAt hindexes
  exact ⟨hstops.exists_eq_ok_iff.trans draft.flaws_eq_nil_iff, hstops.eq_error_iff⟩

/-- The class `Crate`: its event and its field have no names, nor have generic parameters of a
getter, of a setter and of an adder. -/
def crateDraft : TypeDraft :=
  { TypeDraft.referenceType "Game" "Crate" with
    generics := [⟨"T", 0, []⟩]
    fields := [.plain "" (.primitive .int32)]
    properties := [⟨"Item", .primitive .string, [.plain "slot" (.primitive .int32)],
      some { MethodDraft.plain "" with generics := [⟨"U", 0, []⟩, ⟨"", 0, []⟩] },
      some { MethodDraft.plain "" with generics := [⟨"", 0, []⟩] }, []⟩]
    events := [⟨"", .inSpace "System" "EventHandler",
      some { MethodDraft.plain "" with generics := [⟨"", 0, []⟩] }, some (.plain ""), none, []⟩] }

/-- Of the five flaws of `Crate`, that of the getter is reported. -/
theorem TypeDraft.finish_reports_first_flaw_crate :
    crateDraft.IndexesFit ∧
      crateDraft.flaws = [.unnamedGeneric 1, .unnamedGeneric 0,
        .unnamedEvent (.inSpace "System" "EventHandler"), .unnamedGeneric 0,
        .unnamedField (.primitive .int32)] ∧
      crateDraft.finish = .error (.unnamedGeneric 1) ∧ ¬crateDraft.WellNamed := by
  have hindexes : crateDraft.IndexesFit := ⟨by decide, by decide, by decide, by decide⟩
  obtain ⟨hok, herror⟩ := finish_reports_first_flaw hindexes
  have hfinish : crateDraft.finish = .error (.unnamedGeneric 1) := (herror _).mpr (by decide)
  refine ⟨hindexes, by decide, hfinish, fun hnamed => ?_⟩
  obtain ⟨decl, hdecl⟩ := hok.mpr hnamed
  cases hdecl.symm.trans hfinish

end ApiSurface
