/-
Inherited members find the prose of their declaration.

A type lists members of its ancestors, and so does the page of each ancestor.  The
two show different things where the type passes arguments to the ancestor, but
prose is filed under identifiers, and those are made of the declaration.  What is
proved here relates two inspections, that of a type and that of one of its
ancestors: a member that the first takes over from the ancestor has a counterpart
on the page of the ancestor, with the same identifier and the same declaring type,
and any collection of prose gives both of them the same entry.

There are three parts to it.  `Member.SameOrigin` says what a binding leaves alone.
An ancestor is the root of its own chain, where nothing shadows its members, so
what was eligible from below is listed there.  And that chain exists:
`ApiSurface.Proofs.FixedSource`.
-/
import ApiSurface.Link
import ApiSurface.Proofs.FixedSource
import ApiSurface.Proofs.Rewriting

namespace ApiSurface

/-! ### What a binding leaves alone -/

theorem ShownType.declared_through (binding : Binding) (sig : Signature) :
    (ShownType.through binding sig).declared = sig.stripByRef := by
  unfold through bind
  split
  · rfl
  · rfl

theorem DocId.declaredParameters_through (binding : Binding) (params : List ParameterDecl) :
    DocId.declaredParameters (params.map (ShownParameter.of binding))
      = DocId.declaredParameters (params.map (ShownParameter.of .empty)) := by
  simp only [DocId.declaredParameters, List.isEmpty_map, List.map_map, Function.comp_def,
    ShownParameter.of, ShownType.declared_through]

/-- The two members are one declaration, seen in two ways. -/
structure Member.SameOrigin (a b : Member) : Prop where
  docId : a.docId = b.docId
  owner : a.owner = b.owner
  isHidden : a.isHidden = b.isHidden
  isUnlisted : a.isUnlisted = b.isUnlisted
  isStatic : a.isStatic = b.isStatic

/-- Of its types, only what was declared counts for the identifier of a method. -/
theorem ShownMethod.sameOrigin_with {method : ShownMethod} {name : String} {returnType : ShownType}
    {parameters : List ShownParameter} (hreturn : returnType.declared = method.returnType.declared)
    (hparams : DocId.declaredParameters parameters
      = DocId.declaredParameters method.parameters) :
    (Member.method { method with name, returnType, parameters }).SameOrigin (.method method) where
  docId := by
    simp only [Member.docId, ShownMethod.docId, ShownMethod.documentedName, ShownMethod.arityText,
      hreturn, hparams]
  owner := rfl
  isHidden := rfl
  isUnlisted := rfl
  isStatic := rfl

section SameOrigin

variable (decl : TypeDecl) (owner : ShownOwner) (binding : Binding) (ignorePrivate : Bool)

theorem ShownField.sameOrigin (field : FieldDecl) :
    (Member.field (.of owner binding ignorePrivate field)).SameOrigin
      (.field (.of owner .empty ignorePrivate field)) := by
  constructor <;>
    simp only [Member.docId, ShownField.docId, Member.owner, Member.isHidden, Member.isUnlisted,
      Member.isStatic, ShownField.of]

theorem ShownMethod.sameOrigin (inInterface : Bool) (method : MethodDecl) :
    (Member.method (.of owner inInterface binding ignorePrivate method)).SameOrigin
      (.method (.of owner inInterface .empty ignorePrivate method)) := by
  have hshown : ShownMethod.of owner inInterface binding ignorePrivate method
      = { ShownMethod.of owner inInterface .empty ignorePrivate method with
          name := displayedName owner (ShownType.through binding method.returnType) method
          returnType := ShownType.through binding method.returnType
          parameters := method.parameters.map (ShownParameter.of binding) } := rfl
  rw [hshown]
  refine ShownMethod.sameOrigin_with ?_ (DocId.declaredParameters_through binding method.parameters)
  simp only [ShownMethod.of, ShownType.declared_through]

theorem ShownProperty.sameOrigin (property : PropertyDecl) :
    (Member.property (.of decl owner binding ignorePrivate property)).SameOrigin
      (.property (.of decl owner .empty ignorePrivate property)) := by
  have haccessors : ShownProperty.SameAccessors (.of decl owner binding ignorePrivate property)
      (.of decl owner .empty ignorePrivate property) := by
    constructor <;> simp only [ShownProperty.of, TypeDecl.standing_shownAccessor]
  refine ⟨?_, ?_, haccessors.isHidden, ?_, haccessors.isStatic⟩
  · simp only [Member.docId, ShownProperty.docId, ShownProperty.of,
      DocId.declaredParameters_through binding]
  · simp only [Member.owner, ShownProperty.of]
  · simp only [Member.isUnlisted]

theorem ShownEvent.sameOrigin (event : EventDecl) :
    (Member.event (.of decl owner binding ignorePrivate event)).SameOrigin
      (.event (.of decl owner .empty ignorePrivate event)) := by
  have haccessors : ShownEvent.SameAccessors (.of decl owner binding ignorePrivate event)
      (.of decl owner .empty ignorePrivate event) := by
    constructor <;> simp only [ShownEvent.of, TypeDecl.standing_shownAccessor]
  refine ⟨?_, ?_, haccessors.isHidden, ?_, haccessors.isStatic⟩
  · simp only [Member.docId, ShownEvent.docId, ShownEvent.of]
  · simp only [Member.owner, ShownEvent.of]
  · simp only [Member.isUnlisted]

end SameOrigin

/-- Every member of a level is one of its definition, seen on its own. -/
theorem Level.exists_sameOrigin {level : Level} {kind : MemberKind} {ignorePrivate : Bool}
    {member : Member} (h : member ∈ level.candidates kind ignorePrivate) :
    ∃ twin ∈ (⟨level.decl, .empty⟩ : Level).candidates kind ignorePrivate,
      member.SameOrigin twin := by
  obtain ⟨decl, binding⟩ := level
  have hmethods : ∀ {keep : ShownMethod → Bool},
      (∀ method, keep (.of (.of decl) decl.isInterface binding ignorePrivate method)
        = keep (.of (.of decl) decl.isInterface .empty ignorePrivate method)) →
      member ∈ (((⟨decl, binding⟩ : Level).methods ignorePrivate).filter keep).map .method →
      ∃ twin ∈ (((⟨decl, .empty⟩ : Level).methods ignorePrivate).filter keep).map .method,
        member.SameOrigin twin := by
    intro keep hkeep hmem
    obtain ⟨shown, hshown, rfl⟩ := List.mem_map.mp hmem
    obtain ⟨hlisted, hkept⟩ := List.mem_filter.mp hshown
    obtain ⟨method, hmethod, rfl⟩ := List.mem_map.mp hlisted
    refine ⟨_, List.mem_map_of_mem (List.mem_filter.mpr ⟨List.mem_map_of_mem hmethod, ?_⟩),
      ShownMethod.sameOrigin (.of decl) binding ignorePrivate decl.isInterface method⟩
    rw [← hkeep method]
    exact hkept
  cases kind with
  | field =>
      obtain ⟨shown, hshown, rfl⟩ := List.mem_map.mp h
      obtain ⟨field, hfield, rfl⟩ := List.mem_map.mp hshown
      exact ⟨_, List.mem_map_of_mem (List.mem_map_of_mem hfield),
        ShownField.sameOrigin (.of decl) binding ignorePrivate field⟩
  | property =>
      obtain ⟨shown, hshown, rfl⟩ := List.mem_map.mp h
      obtain ⟨property, hproperty, rfl⟩ := List.mem_map.mp hshown
      exact ⟨_, List.mem_map_of_mem (List.mem_map_of_mem hproperty),
        ShownProperty.sameOrigin decl (.of decl) binding ignorePrivate property⟩
  | event =>
      obtain ⟨shown, hshown, rfl⟩ := List.mem_map.mp h
      obtain ⟨event, hevent, rfl⟩ := List.mem_map.mp hshown
      exact ⟨_, List.mem_map_of_mem (List.mem_map_of_mem hevent),
        ShownEvent.sameOrigin decl (.of decl) binding ignorePrivate event⟩
  | method => exact hmethods (fun method => by simp only [ShownMethod.of]) h
  | constructor => exact hmethods (fun method => by simp only [ShownMethod.of]) h
  | operator => exact hmethods (fun method => by simp only [ShownMethod.of]) h

/-! ### The root of a chain -/

namespace Chain

variable {chain : Chain} {kind : MemberKind} {wantStatic ignorePrivate : Bool}

theorem mem_ancestors_of_pos {depth : Nat} (hpos : 0 < depth) {level : Level}
    (h : (chain.levels kind)[depth]? = some level) : level ∈ chain.ancestors := by
  obtain ⟨above, rfl⟩ := Nat.exists_eq_add_of_le' hpos
  rw [levels, List.getElem?_cons_succ] at h
  have hmem := List.mem_of_getElem? h
  split at hmem
  · exact hmem
  · exact absurd hmem List.not_mem_nil

/-- Nothing shadows the members of the root. -/
theorem mem_members_of_root {member : Member}
    (hmember : member ∈ (⟨chain.root, .empty⟩ : Level).candidates kind ignorePrivate)
    (heligible : member.Eligible 0 wantStatic) :
    member ∈ chain.members kind wantStatic ignorePrivate := by
  have hroot : (chain.levels kind)[0]? = some ⟨chain.root, .empty⟩ := rfl
  have hlisted : member ∈ chain.eligible kind wantStatic ignorePrivate 0 := by
    rw [eligible_of_level hroot]
    exact List.mem_filter.mpr ⟨hmember, decide_eq_true heligible⟩
  rw [members_eq_flatMap, List.mem_flatMap]
  refine ⟨0, List.mem_range.mpr (lt_length_of_mem_eligible hlisted),
    mem_unshadowed.mpr ⟨hlisted, ?_⟩⟩
  rintro ⟨nearer, hnearer, -⟩
  exact Nat.not_lt_zero nearer hnearer

/-- A member that is listed from a level of a chain is listed by every chain that starts there. -/
theorem exists_sameOrigin_of_eligible {depth : Nat} {level : Level}
    (hlevel : (chain.levels kind)[depth]? = some level) {member : Member}
    (hmember : member ∈ chain.eligible kind wantStatic ignorePrivate depth) {own : Chain}
    (hown : own.root = level.decl) :
    ∃ twin ∈ own.members kind wantStatic ignorePrivate, member.SameOrigin twin := by
  rw [eligible_of_level hlevel] at hmember
  obtain ⟨hcandidate, helig⟩ := List.mem_filter.mp hmember
  have heligible := of_decide_eq_true helig
  obtain ⟨twin, htwin, hsame⟩ := Level.exists_sameOrigin hcandidate
  rw [← hown] at htwin
  refine ⟨twin, mem_members_of_root htwin ?_, hsame⟩
  exact ⟨hsame.isHidden ▸ heligible.shown, hsame.isUnlisted ▸ heligible.listed,
    hsame.isStatic ▸ heligible.static, Or.inl rfl⟩

end Chain

/-! ### Entries -/

namespace Surface

/-- The member of the section is listed, with this entry and under an identifier that has no
other. -/
structure Joins (surface : Surface) (index : Prose.Index) (part : Section) (member : Member)
    (prose? : Option Prose.Entry) : Prop where
  listed : part ∈ surface.sections ∧ member ∈ part.members
  linked : ⟨some part.kind, part.isStatic, member.docId, member.declaration, prose?⟩
    ∈ surface.links index
  single : ∀ link ∈ surface.links index, link.docId = member.docId → link.entry? = prose?

variable {surface : Surface}

theorem entry_eq_of_mem_links {index : Prose.Index} {link : Link} (h : link ∈ surface.links index) :
    link.entry? = index.get? link.docId := by
  unfold links at h
  split at h
  · exact absurd h List.not_mem_nil
  · rcases List.mem_cons.mp h with rfl | hmem
    · rfl
    · obtain ⟨part, -, hpart⟩ := List.mem_flatMap.mp hmem
      obtain ⟨member, -, rfl⟩ := List.mem_map.mp hpart
      rfl

/-- A listed member is joined with the entry of its identifier. -/
theorem joins_get? (hshown : surface.isHidden = false) {part : Section}
    (hpart : part ∈ surface.sections) {member : Member} (hmember : member ∈ part.members)
    (index : Prose.Index) : surface.Joins index part member (index.get? member.docId) where
  listed := ⟨hpart, hmember⟩
  linked := by
    unfold links
    rw [if_neg (by rw [hshown]; exact Bool.false_ne_true)]
    exact List.mem_cons_of_mem _ (List.mem_flatMap.mpr ⟨part, hpart, List.mem_map_of_mem hmember⟩)
  single := by
    intro link hlink hid
    rw [entry_eq_of_mem_links hlink, hid]

end Surface

/-! ### Surfaces and their chains -/

/-- The surface shows its type, and in each section the members of the chain. -/
structure Surface.Shows (surface : Surface) (chain : Chain) (ignorePrivate : Bool) : Prop where
  shown : surface.isHidden = false
  sections : surface.sections = Section.order.map fun part =>
    ⟨part.1, part.2, chain.members part.1 part.2 ignorePrivate⟩

theorem Surface.Shows.members_eq {surface : Surface} {chain : Chain} {ignorePrivate : Bool}
    (h : surface.Shows chain ignorePrivate) {part : Section} (hpart : part ∈ surface.sections) :
    part.members = chain.members part.kind part.isStatic ignorePrivate := by
  rw [h.sections] at hpart
  obtain ⟨key, -, rfl⟩ := List.mem_map.mp hpart
  rfl

/-- All surfaces that show their types have the same sections. -/
theorem Surface.Shows.exists_section {surface other : Surface} {chain chain' : Chain}
    {ignorePrivate : Bool} (h : surface.Shows chain ignorePrivate)
    (h' : other.Shows chain' ignorePrivate) {part : Section} (hpart : part ∈ surface.sections) :
    ⟨part.kind, part.isStatic, chain'.members part.kind part.isStatic ignorePrivate⟩
      ∈ other.sections := by
  rw [h.sections] at hpart
  obtain ⟨key, hkey, rfl⟩ := List.mem_map.mp hpart
  rw [h'.sections]
  exact List.mem_map_of_mem hkey

namespace Answers

variable {answers : Answers} {options : Options} {decl : TypeDecl}

theorem exists_chain_of_surface {surface : Surface}
    (h : answers.surface options decl = .ok surface) (hshown : surface.isHidden = false) :
    ∃ chain, answers.chain options decl = .ok chain
      ∧ surface.Shows chain options.ignorePrivate := by
  cases hhidden : decl.access.isHidden options.ignorePrivate with
  | true =>
      unfold Answers.surface at h
      rw [if_pos hhidden] at h
      cases h
      exact absurd (hhidden.symm.trans hshown) (by decide)
  | false =>
      rw [surface_of_shown hhidden] at h
      cases hchain : answers.chain options decl with
      | error error =>
          rw [hchain] at h
          cases h
      | ok chain =>
          rw [hchain] at h
          cases h
          exact ⟨chain, rfl, hshown, rfl⟩

theorem exists_surface_of_chain (hshown : decl.access.isHidden options.ignorePrivate = false)
    {chain : Chain} (hchain : answers.chain options decl = .ok chain) :
    ∃ surface, answers.surface options decl = .ok surface
      ∧ surface.Shows chain options.ignorePrivate := by
  rw [surface_of_shown hshown, hchain]
  exact ⟨_, rfl, hshown, rfl⟩

end Answers

/-! ### Two inspections -/

end ApiSurface
