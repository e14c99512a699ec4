/-
What a type without parameters shows of its ancestors.

If the root of a chain has no generic parameters and every base reference passes
as many arguments as the next definition takes, then every level is seen through
a binding that is complete and closed: `Binding.Closes`.  A reference that
mentions only the parameters of its definition loses all of them under such a
binding, so no member type of a closed view is open.

The constraints of a method's own generic parameters are the exception.
`ShownGeneric.of` takes no binding, so they are shown as they are declared,
parameters of the declaring type included.  `members_isClosed_iff` states exactly
that: a member of a closed view is closed if and only if its declared constraints
are.
-/
import ApiSurface.Proofs.BoundParameters
import ApiSurface.Proofs.Climb
import ApiSurface.Proofs.Shadowing

namespace ApiSurface

/-! ### References inside a definition -/

/-- The constraints of the generic parameters that the method itself declares. -/
def MethodDecl.constraints (method : MethodDecl) : List Signature :=
  method.generics.flatMap GenericDecl.constraints

/-- The types of a method and its parameters, and its constraints, mention no type-level parameter
from position `n` on. -/
structure MethodDecl.Scoped (n : Nat) (method : MethodDecl) : Prop where
  returnType : method.returnType.OpenBelow n
  parameters : ∀ param ∈ method.parameters, param.type.OpenBelow n
  constraints : ∀ constraint ∈ method.constraints, constraint.OpenBelow n

/-- The references of a definition mention only the parameters that it declares. -/
structure TypeDecl.Scoped (decl : TypeDecl) : Prop where
  base : ∀ base ∈ decl.base?, base.OpenBelow decl.generics.length
  fields : ∀ field ∈ decl.fields, field.type.OpenBelow decl.generics.length
  properties : ∀ property ∈ decl.properties, property.type.OpenBelow decl.generics.length ∧
    ∀ param ∈ property.parameters, param.type.OpenBelow decl.generics.length
  events : ∀ event ∈ decl.events, event.type.OpenBelow decl.generics.length
  methods : ∀ method ∈ decl.methods, method.Scoped decl.generics.length

/-- The definitions of a chain, the root first. -/
def Chain.decls (chain : Chain) : List TypeDecl := chain.root :: chain.ancestors.map Level.decl

/-- Every base reference passes as many arguments as the definition above takes. -/
def Chain.Saturated (chain : Chain) : Prop :=
  chain.decls.IsChain fun lower upper =>
    ∀ base ∈ lower.base?, base.arguments.length = upper.generics.length

/-! ### Complete and closed bindings -/

/-- The binding has a closed argument for every parameter of the definition. -/
structure Binding.Closes (binding : Binding) (decl : TypeDecl) : Prop where
  length : binding.args.length = decl.generics.length
  closed : ∀ arg ∈ binding.args, arg.OpenBelow 0

theorem Binding.Closes.apply {binding : Binding} {decl : TypeDecl} (h : binding.Closes decl)
    {sig : Signature} (hsig : sig.OpenBelow decl.generics.length) :
    (binding.apply sig).OpenBelow 0 := by
  rw [Binding.apply_eq_fill]
  rw [← h.length] at hsig
  exact hsig.fill h.closed

theorem Signature.OpenBelow.arguments {n : Nat} {base : Signature} (h : base.OpenBelow n) :
    ∀ arg ∈ base.arguments, arg.OpenBelow n := by
  intro arg harg
  cases base with
  | instantiation inner args => exact (openBelow_instantiation.mp h).2 arg harg
  | primitive kind => exact absurd harg List.not_mem_nil
  | named name => exact absurd harg List.not_mem_nil
  | array element rank => exact absurd harg List.not_mem_nil
  | byRef element => exact absurd harg List.not_mem_nil
  | pointer element => exact absurd harg List.not_mem_nil
  | parameter owner index name => exact absurd harg List.not_mem_nil

/-- One step up keeps the binding complete and closed. -/
theorem Binding.Closes.through {binding : Binding} {lower upper : TypeDecl}
    (h : binding.Closes lower) {base : Signature} (hbase : base.OpenBelow lower.generics.length)
    (harity : base.arguments.length = upper.generics.length) :
    (Binding.through base binding).Closes upper := by
  refine ⟨?_, ?_⟩
  · rw [Binding.through_args, List.length_map, harity]
  · intro arg harg
    rw [Binding.through_args, List.mem_map] at harg
    obtain ⟨passed, hpassed, rfl⟩ := harg
    exact h.apply (hbase.arguments passed hpassed)

/-- From a level that is closed on, the whole climb is. -/
theorem FollowsFrom.closes {levels : List Level} :
    ∀ {lower : TypeDecl} {binding : Binding},
      FollowsFrom lower.base? binding levels → binding.Closes lower →
      (∀ decl ∈ lower :: levels.map Level.decl, decl.Scoped) →
      ((lower :: levels.map Level.decl).IsChain fun lower upper =>
        ∀ base ∈ lower.base?, base.arguments.length = upper.generics.length) →
      ∀ level ∈ levels, level.binding.Closes level.decl := by
  induction levels with
  | nil => intro lower binding _ _ _ _ level hlevel; exact absurd hlevel List.not_mem_nil
  | cons upper above ih =>
      intro lower binding hfollows hcloses hscoped hsaturated level hlevel
      obtain ⟨⟨base, hbase, hbinding⟩, habove⟩ := hfollows
      rw [List.map_cons, List.isChain_cons_cons] at hsaturated
      obtain ⟨harity, hrest⟩ := hsaturated
      have hlower : lower.Scoped := hscoped lower List.mem_cons_self
      have hupper : upper.binding.Closes upper.decl := by
        rw [hbinding]
        exact hcloses.through (hlower.base base hbase) (harity base hbase)
      rcases List.mem_cons.mp hlevel with rfl | hmem
      · exact hupper
      · exact ih habove hupper (fun decl hdecl => hscoped decl (List.mem_cons_of_mem _ hdecl))
          hrest level hmem

/-- Every level that members are gathered from is seen through a complete, closed binding. -/
theorem Chain.Follows.closes {chain : Chain} (hfollows : chain.Follows)
    (hroot : chain.root.generics = []) (hscoped : ∀ decl ∈ chain.decls, decl.Scoped)
    (hsaturated : chain.Saturated) {kind : MemberKind} :
    ∀ level ∈ chain.levels kind, level.binding.Closes level.decl := by
  have hempty : Binding.empty.Closes chain.root :=
    ⟨by rw [hroot]; rfl, fun arg harg => absurd harg List.not_mem_nil⟩
  intro level hlevel
  rcases List.mem_cons.mp hlevel with rfl | hmem
  · exact hempty
  · have hancestor : level ∈ chain.ancestors := by
      split at hmem
      · exact hmem
      · exact absurd hmem List.not_mem_nil
    exact FollowsFrom.closes hfollows hempty hscoped hsaturated level hancestor

/-! ### Shown types -/

theorem Binding.apply_of_unchanged {binding : Binding} {sig : Signature}
    (h : (binding.applyTracked sig).2 = false) : binding.apply sig = sig := by
  rw [apply_eq_fill]
  rw [applyTracked_eq_substitute] at h
  exact Signature.fill_of_unchanged h

theorem Signature.parametersOf_stripByRef (owner : ParameterOwner) (sig : Signature) :
    sig.stripByRef.parametersOf owner = sig.parametersOf owner := by
  cases sig <;> rfl

theorem Signature.openBelow_stripByRef {n : Nat} {sig : Signature} :
    sig.stripByRef.OpenBelow n ↔ sig.OpenBelow n := by
  unfold OpenBelow
  rw [parametersOf_stripByRef]

theorem Signature.openBelow_zero_iff_mentions {sig : Signature} :
    sig.OpenBelow 0 ↔ sig.mentions .type = false := by
  rw [openBelow_zero_iff, mentions_eq_false_iff]

theorem ShownType.of_signature (sig : Signature) :
    (ShownType.of sig).signature = sig.stripByRef := rfl

/-- What is shown through a binding is as open as what the binding makes of the reference. -/
theorem ShownType.through_openBelow {binding : Binding} {sig : Signature} {n : Nat}
    (h : (binding.apply sig.stripByRef).OpenBelow n) :
    (ShownType.through binding sig).signature.OpenBelow n := by
  unfold ShownType.through ShownType.bind
  split
  · rename_i rewritten htracked
    have hsame : binding.apply (ShownType.of sig).signature = (ShownType.of sig).signature :=
      Binding.apply_of_unchanged (by rw [htracked])
    rw [ShownType.of_signature] at hsame
    rw [hsame] at h
    exact h
  · rename_i rewritten htracked
    have happly : binding.apply sig.stripByRef = rewritten := by
      rw [← ShownType.of_signature, Binding.apply, htracked]
    rw [happly] at h
    exact Signature.openBelow_stripByRef.mpr h

/-- Through a complete, closed binding a reference of the definition is shown without parameters. -/
theorem Binding.Closes.shown {binding : Binding} {decl : TypeDecl} (h : binding.Closes decl)
    {sig : Signature} (hsig : sig.OpenBelow decl.generics.length) :
    (ShownType.through binding sig).signature.mentions .type = false :=
  Signature.openBelow_zero_iff_mentions.mp
    (ShownType.through_openBelow (h.apply (Signature.openBelow_stripByRef.mpr hsig)))

/-! ### Members -/

/-- The types that the declaration of a member is composed from, constraints apart. -/
def Member.ownTypes : Member → List ShownType
  | field f => [f.type]
  | property p => p.type :: p.parameters.map ShownParameter.type
  | event e => [e.type]
  | method m => m.returnType :: m.parameters.map ShownParameter.type

/-- The constraint types of the generic parameters that a member declares. -/
def Member.constraintTypes : Member → List ShownType
  | method m => m.generics.flatMap ShownGeneric.constraints
  | _ => []

/-- No type that the declaration of the member is composed from mentions a parameter of a type. -/
def Member.IsClosed (member : Member) : Prop :=
  ∀ type ∈ member.ownTypes ++ member.constraintTypes, type.signature.mentions .type = false

/-- The member shows a declaration of the level whose own generic parameters have the given
constraints; only methods have any. -/
inductive Level.Declares (level : Level) (ignorePrivate : Bool) : Member → List Signature → Prop
  | field {decl : FieldDecl} (hdecl : decl ∈ level.decl.fields) :
      Declares level ignorePrivate
        (.field (.of (.of level.decl) level.binding ignorePrivate decl)) []
  | property {decl : PropertyDecl} (hdecl : decl ∈ level.decl.properties) :
      Declares level ignorePrivate
        (.property (.of level.decl (.of level.decl) level.binding ignorePrivate decl)) []
  | event {decl : EventDecl} (hdecl : decl ∈ level.decl.events) :
      Declares level ignorePrivate
        (.event (.of level.decl (.of level.decl) level.binding ignorePrivate decl)) []
  | method {decl : MethodDecl} (hdecl : decl ∈ level.decl.methods) :
      Declares level ignorePrivate
        (.method (.of (.of level.decl) level.decl.isInterface level.binding ignorePrivate decl))
        decl.constraints

theorem Level.exists_declares {level : Level} {ignorePrivate : Bool} {kind : MemberKind}
    {member : Member} (h : member ∈ level.candidates kind ignorePrivate) :
    ∃ constraints, level.Declares ignorePrivate member constraints := by
  have hmethods : ∀ {keep : ShownMethod → Bool},
      member ∈ ((level.methods ignorePrivate).filter keep).map Member.method →
        ∃ constraints, level.Declares ignorePrivate member constraints := by
    intro keep hmem
    obtain ⟨shown, hshown, rfl⟩ := List.mem_map.mp hmem
    obtain ⟨decl, hdecl, rfl⟩ := List.mem_map.mp (List.mem_filter.mp hshown).1
    exact ⟨_, .method hdecl⟩
  cases kind with
  | field =>
      obtain ⟨shown, hshown, rfl⟩ := List.mem_map.mp h
      obtain ⟨decl, hdecl, rfl⟩ := List.mem_map.mp hshown
      exact ⟨_, .field hdecl⟩
  | property =>
      obtain ⟨shown, hshown, rfl⟩ := List.mem_map.mp h
      obtain ⟨decl, hdecl, rfl⟩ := List.mem_map.mp hshown
      exact ⟨_, .property hdecl⟩
  | event =>
      obtain ⟨shown, hshown, rfl⟩ := List.mem_map.mp h
      obtain ⟨decl, hdecl, rfl⟩ := List.mem_map.mp hshown
      exact ⟨_, .event hdecl⟩
  | method => exact hmethods h
  | constructor => exact hmethods h
  | operator => exact hmethods h

/-- Parameters, shown through a complete and closed binding, have closed types. -/
theorem Binding.Closes.shownParameters {binding : Binding} {decl : TypeDecl}
    (h : binding.Closes decl) {params : List ParameterDecl}
    (hparams : ∀ param ∈ params, param.type.OpenBelow decl.generics.length) :
    ∀ type ∈ (params.map (ShownParameter.of binding)).map ShownParameter.type,
      type.signature.mentions .type = false := by
  intro type htype
  rw [List.map_map, List.mem_map] at htype
  obtain ⟨param, hparam, rfl⟩ := htype
  exact h.shown (hparams param hparam)

/-- Constraints apart, a member of a level with a complete and closed binding is closed. -/
theorem Level.Declares.ownTypes_closed {level : Level} {ignorePrivate : Bool} {member : Member}
    {constraints : List Signature} (h : level.Declares ignorePrivate member constraints)
    (hcloses : level.binding.Closes level.decl) (hscoped : level.decl.Scoped) :
    ∀ type ∈ member.ownTypes, type.signature.mentions .type = false := by
  intro type htype
  cases h with
  | field hdecl =>
      rw [List.mem_singleton.mp htype]
      exact hcloses.shown (hscoped.fields _ hdecl)
  | property hdecl =>
      obtain ⟨hproperty, hparams⟩ := hscoped.properties _ hdecl
      rcases List.mem_cons.mp htype with rfl | hparam
      · exact hcloses.shown hproperty
      · exact hcloses.shownParameters hparams type hparam
  | event hdecl =>
      rw [List.mem_singleton.mp htype]
      exact hcloses.shown (hscoped.events _ hdecl)
  | method hdecl =>
      have hmethod := hscoped.methods _ hdecl
      rcases List.mem_cons.mp htype with rfl | hparam
      · exact hcloses.shown hmethod.returnType
      · exact hcloses.shownParameters hmethod.parameters type hparam

/-- Constraints are shown as they are declared, whatever the binding of the level. -/
theorem Level.Declares.constraintTypes_eq {level : Level} {ignorePrivate : Bool} {member : Member}
    {constraints : List Signature} (h : level.Declares ignorePrivate member constraints) :
    member.constraintTypes = constraints.map ShownType.of := by
  cases h with
  | field hdecl => rfl
  | property hdecl => rfl
  | event hdecl => rfl
  | method hdecl =>
      rename_i decl
      show (decl.generics.map ShownGeneric.of).flatMap ShownGeneric.constraints
        = (decl.generics.flatMap GenericDecl.constraints).map ShownType.of
      rw [List.flatMap_map, List.map_flatMap]
      rfl

theorem Level.Declares.constraintTypes_closed_iff {level : Level} {ignorePrivate : Bool}
    {member : Member} {constraints : List Signature}
    (h : level.Declares ignorePrivate member constraints) :
    (∀ type ∈ member.constraintTypes, type.signature.mentions .type = false) ↔
      ∀ constraint ∈ constraints, constraint.mentions .type = false := by
  rw [h.constraintTypes_eq, List.forall_mem_map]
  refine forall₂_congr fun constraint _ => ?_
  rw [ShownType.of_signature, Signature.mentions_eq_false_iff, Signature.mentions_eq_false_iff,
    Signature.parametersOf_stripByRef]

theorem Chain.decl_mem_decls {chain : Chain} {kind : MemberKind} {level : Level}
    (h : level ∈ chain.levels kind) : level.decl ∈ chain.decls := by
  rcases List.mem_cons.mp h with rfl | hmem
  · exact List.mem_cons_self
  · split at hmem
    · exact List.mem_cons_of_mem _ (List.mem_map_of_mem hmem)
    · exact absurd hmem List.not_mem_nil

/-- Every member that a chain shows is a candidate of one of its levels. -/
theorem Chain.exists_level_of_mem_members {chain : Chain} {kind : MemberKind}
    {wantStatic ignorePrivate : Bool} {member : Member}
    (h : member ∈ chain.members kind wantStatic ignorePrivate) :
    ∃ level ∈ chain.levels kind, member ∈ level.candidates kind ignorePrivate := by
  rw [members_eq_flatMap, List.mem_flatMap] at h
  obtain ⟨depth, hdepth, hmember⟩ := h
  have hlt : depth < (chain.levels kind).length := List.mem_range.mp hdepth
  have hlevel : (chain.levels kind)[depth]? = some (chain.levels kind)[depth] :=
    List.getElem?_eq_getElem hlt
  have heligible := (mem_unshadowed.mp hmember).1
  rw [eligible_of_level hlevel] at heligible
  exact ⟨_, List.getElem_mem _, (List.mem_filter.mp heligible).1⟩

/-! ### Closed views -/

/--
**A member of a closed view is closed exactly if its declared constraints are.**  Let the root of a
chain have no generic parameters, every base reference pass as many arguments as the next definition
takes, and every definition mention only its own parameters.  Then no field, property or event type,
return type or parameter type of a member shows a parameter of a type, and a constraint shows one if
and only if the method declares it so.
-/
theorem members_isClosed_iff {σ : Type} [Source σ] {options : Options} {root : TypeDecl}
    {chain : Chain} {session after : Session σ}
    (hrun : Inquiry.Gives (Inspection.chain options root) session chain after)
    (hroot : root.generics = []) (hscoped : ∀ decl ∈ chain.decls, decl.Scoped)
    (hsaturated : chain.Saturated) {kind : MemberKind} {wantStatic ignorePrivate : Bool}
    {member : Member} (hmember : member ∈ chain.members kind wantStatic ignorePrivate) :
    (∀ type ∈ member.ownTypes, type.signature.mentions .type = false) ∧
      ∃ level ∈ chain.levels kind, ∃ constraints,
        level.Declares ignorePrivate member constraints ∧
          (member.IsClosed ↔ ∀ constraint ∈ constraints, constraint.mentions .type = false) := by
  obtain ⟨rfl, hfollows⟩ := Inspection.chain_follows hrun
  obtain ⟨level, hlevel, hcandidate⟩ := Chain.exists_level_of_mem_members hmember
  obtain ⟨constraints, hdeclares⟩ := Level.exists_declares hcandidate
  have hdecl : level.decl ∈ chain.decls := Chain.decl_mem_decls hlevel
  have hown := hdeclares.ownTypes_closed (hfollows.closes hroot hscoped hsaturated level hlevel)
    (hscoped level.decl hdecl)
  refine ⟨hown, level, hlevel, constraints, hdeclares, ?_⟩
  rw [← hdeclares.constraintTypes_closed_iff, Member.IsClosed, List.forall_mem_append]
  exact and_iff_right hown

/-- The method `T Pick<U>() where U : IComparable<T>` of `Box<T>`. -/
def pickDecl : MethodDecl :=
  { MethodDecl.bare "Pick" with
    returnType := .parameter .type 0 "T"
    generics := [⟨.method, 0, "U", 0,
      [.instantiation (.inSpace "System" "IComparable`1") [.parameter .type 0 "T"]]⟩] }

/-- The type `Box<T>`, which declares `Pick`. -/
def boxDecl : TypeDecl :=
  { TypeDecl.bare (.top "Game" "Box`1" none) with
    generics := [⟨.type, 0, "T", 0, []⟩]
    methods := [pickDecl] }

/-- The type `Ints : Box<int>`. -/
def intsDecl : TypeDecl :=
  { TypeDecl.bare (.top "Game" "Ints" none) with
    base? := some (.instantiation (.named boxDecl.name) [.primitive .int32]) }

/-- The chain of `Ints`: the parameter of `Box<T>` is bound to `int`. -/
def intsChain : Chain := ⟨intsDecl, [⟨boxDecl, ⟨[.primitive .int32]⟩⟩]⟩

theorem pickDecl_scoped : pickDecl.Scoped 1 :=
  ⟨by decide, fun _ h => absurd h List.not_mem_nil, by decide⟩

theorem intsChain_scoped : ∀ decl ∈ intsChain.decls, decl.Scoped := by
  intro decl hdecl
  rcases List.mem_pair.mp hdecl with rfl | rfl
  · refine ⟨by decide, ?_, ?_, ?_, ?_⟩ <;> exact fun _ h => absurd h List.not_mem_nil
  · refine ⟨by decide, ?_, ?_, ?_, ?_⟩
    · exact fun _ h => absurd h List.not_mem_nil
    · exact fun _ h => absurd h List.not_mem_nil
    · exact fun _ h => absurd h List.not_mem_nil
    · intro method hmethod
      rw [List.mem_singleton.mp hmethod]
      exact pickDecl_scoped

/-- `Ints` shows `int Pick<U>() where U : IComparable<T>`: the return type is bound, and the
constraint still names the parameter of `Box<T>`. -/
theorem members_isClosed_iff_ints :
    ∃ member ∈ intsChain.members .method false true,
      (∀ type ∈ member.ownTypes, type.signature.mentions .type = false) ∧ ¬member.IsClosed
        ∧ member.constraintTypes.map ShownType.signature
          = [.instantiation (.inSpace "System" "IComparable`1") [.parameter .type 0 "T"]] := by
  have hrun : Inquiry.Gives (Inspection.chain .publicApi intsDecl)
      (⟨⟨[boxDecl, intsDecl]⟩, []⟩ : Session Shelf) intsChain ⟨⟨[boxDecl, intsDecl]⟩, []⟩ := by
    rfl
  have hsaturated : intsChain.Saturated := by
    unfold Chain.Saturated
    decide
  have hpick : intsChain.members .method false true
      = [.method (.of (.of boxDecl) false ⟨[.primitive .int32]⟩ true pickDecl)] := by
    rfl
  refine ⟨_, by rw [hpick]; exact List.mem_cons_self, ?_, ?_, ?_⟩
  · exact (members_isClosed_iff hrun rfl intsChain_scoped hsaturated
      (by rw [hpick]; exact List.mem_cons_self)).1
  · unfold Member.IsClosed
    decide
  · rfl

end ApiSurface
