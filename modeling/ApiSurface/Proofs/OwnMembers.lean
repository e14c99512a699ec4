/-
Where a type lists what it declares.

A surface has ten sections, and each is gathered by itself: the members of one
kind, either the static ones or the others.  If nothing is left out as too
private, a declaration that can be listed at all should stand in one of them.
What kind of method it is follows from its name alone, and two kinds have one
section only: constructors that of instances, operators that of statics.  So a
static method with the name of constructors and an operator of an instance are
strays, which no section takes.  Everything else stands in one section, in the
order of declaration and before what is inherited.

`Level.candidates_eq_filter` says that the kinds divide the members of a level,
`TypeDecl.Linked.isShown_member` which declarations pass the checks at the root,
and `Declared.mem_order_iff` which of them have a section.
-/
import ApiSurface.Proofs.DraftLinks
import ApiSurface.Proofs.InheritedProse

namespace ApiSurface

/-! ### Declarations -/

/-- Anything that a type declares. -/
inductive Declared where
  | field (field : FieldDecl)
  | property (property : PropertyDecl)
  | event (event : EventDecl)
  | method (method : MethodDecl)

namespace Declared

/-- The declaration can be listed.  The field that holds the value of an enumeration, generated
fields, properties without accessors, events that lack one, the type initializer and accessors
cannot. -/
def isListed : Declared → Bool
  | field f => f.name ≠ enumValueField && !hasAttribute compilerGeneratedAttribute f.attributes
  | property p => p.getter?.isSome || p.setter?.isSome
  | event e => e.adder?.isSome && e.remover?.isSome
  | method m => m.name ≠ MethodDecl.initializerName && !m.isAccessor

/-- The declaration has the name of a constructor and is static, or that of an operator and is
not. -/
def isStray : Declared → Bool
  | method m => (m.isConstructor && m.isStatic) || (m.isOperator && !m.isStatic)
  | _ => false

end Declared

namespace TypeDecl

variable (decl : TypeDecl)

/-- Everything that the type declares: fields, properties, events and then methods. -/
def declared : List Declared :=
  decl.fields.map .field ++ decl.properties.map .property ++ decl.events.map .event
    ++ decl.methods.map .method

/-- The declaration as a member of its own type, whoever can see it. -/
def member : Declared → Member
  | .field f => .field (.of (.of decl) .empty false f)
  | .property p => .property (.of decl (.of decl) .empty false p)
  | .event e => .event (.of decl (.of decl) .empty false e)
  | .method m => .method (.of (.of decl) decl.isInterface .empty false m)

/-- The members of a kind, static or not, that the type declares and that can be listed, in the
order of declaration. -/
def ownMembers (kind : MemberKind) (isStatic : Bool) : List Member :=
  (decl.declared.filter fun item => item.isListed && (decl.member item).kind = kind
    && (decl.member item).isStatic = isStatic).map decl.member

variable {decl}

theorem mem_ownMembers {item : Declared} (hitem : item ∈ decl.declared)
    (hlisted : item.isListed = true) {kind : MemberKind} {isStatic : Bool} :
    decl.member item ∈ decl.ownMembers kind isStatic ↔
      ((decl.member item).kind, (decl.member item).isStatic) = (kind, isStatic) := by
  rw [ownMembers, List.mem_map, Prod.mk.injEq]
  constructor
  · rintro ⟨other, hother, hsame⟩
    rw [← hsame]
    simp only [List.mem_filter, Bool.and_eq_true, decide_eq_true_eq] at hother
    exact ⟨hother.2.1.2, hother.2.2⟩
  · rintro ⟨hkind, hstatic⟩
    refine ⟨item, List.mem_filter.mpr ⟨hitem, ?_⟩, rfl⟩
    simp [hlisted, hkind, hstatic]

theorem members_eq_map_member :
    (⟨decl, .empty⟩ : Level).members false = decl.declared.map decl.member := by
  simp [Level.members, Level.fields, Level.properties, Level.events, Level.methods, declared,
    member, Function.comp_def]

end TypeDecl

/-! ### The kinds divide the members of a level -/

theorem MethodDecl.isOperator_of_isConstructor {method : MethodDecl}
    (h : method.isConstructor = true) : method.isOperator = false := by
  rcases of_decide_eq_true h with hname | hname <;>
    simp [isOperator, operatorName?, hname, constructorName, initializerName, operatorMark,
      Text.afterStart]

/-- Whether a method is of a kind, where no constructor is an operator. -/
theorem Member.kind_method {method : ShownMethod}
    (h : method.isConstructor = true → method.isOperator = false) (kind : MemberKind) :
    decide ((Member.method method).kind = kind)
      = match kind with
        | .constructor => method.isConstructor
        | .operator => method.isOperator
        | .method => !method.isConstructor && !method.isOperator
        | .field | .property | .event => false := by
  show decide ((if method.isConstructor then MemberKind.constructor
    else if method.isOperator then .operator else .method) = kind) = _
  cases hconstructor : method.isConstructor with
  | true =>
      rw [h hconstructor]
      cases kind <;> rfl
  | false =>
      cases method.isOperator <;> cases kind <;> rfl

/-- **Each kind takes its members from all members of a level.** -/
theorem Level.candidates_eq_filter (level : Level) (kind : MemberKind) (ignorePrivate : Bool) :
    level.candidates kind ignorePrivate
      = (level.members ignorePrivate).filter (·.kind = kind) := by
  have hmethods : (level.methods ignorePrivate).filter
      (fun method => (Member.method method).kind = kind) = _ :=
    List.filter_congr fun method hmethod => Member.kind_method (fun hconstructor => by
      obtain ⟨declared, -, rfl⟩ := List.mem_map.mp hmethod
      exact MethodDecl.isOperator_of_isConstructor hconstructor) kind
  simp only [members, List.filter_append, List.filter_map, Function.comp_def]
  rw [hmethods]
  cases kind <;> simp [candidates, Member.kind]

/-! ### What passes at the root -/

/-- A property is hidden if it has no visible accessor. -/
theorem ShownProperty.isHidden_eq (property : ShownProperty) :
    property.isHidden = (property.visibleGetter?.isNone && property.visibleSetter?.isNone) := by
  unfold isHidden primary?
  cases property.visibleGetter? with
  | none => rfl
  | some getter =>
      cases property.visibleSetter? with
      | none => rfl
      | some setter =>
          show (if getter.access.level < setter.access.level then some setter
            else some getter).isNone = false
          split <;> rfl

namespace TypeDecl

variable {decl : TypeDecl}

/-- No accessor is hidden if nothing is. -/
theorem filter_shownAccessor (owner : ShownOwner) (binding : Binding) (index? : Option Nat) :
    (decl.shownAccessor owner binding false index?).filter (fun method => !method.isHidden)
      = decl.shownAccessor owner binding false index? := by
  unfold shownAccessor
  cases decl.method? index? <;> rfl

/-- There is an accessor where there is an index. -/
theorem isSome_shownAccessor {index? : Option Nat}
    (hindex : ∀ index ∈ index?, index < decl.methods.length) (owner : ShownOwner)
    (binding : Binding) (ignorePrivate : Bool) :
    (decl.shownAccessor owner binding ignorePrivate index?).isSome = index?.isSome := by
  cases index? with
  | none => rfl
  | some index => simp [shownAccessor, method?, hindex index rfl]

theorem Linked.isHidden_property (hlinked : decl.Linked) {property : PropertyDecl}
    (hproperty : property ∈ decl.properties) :
    (decl.member (.property property)).isHidden
      = !(property.getter?.isSome || property.setter?.isSome) := by
  have hgetter := isSome_shownAccessor (fun _ => hlinked.getter_lt hproperty) (.of decl) .empty false
  have hsetter := isSome_shownAccessor (fun _ => hlinked.setter_lt hproperty) (.of decl) .empty false
  show (ShownProperty.of decl (.of decl) .empty false property).isHidden = _
  rw [ShownProperty.isHidden_eq, ShownProperty.visibleGetter?, ShownProperty.visibleSetter?,
    ShownProperty.of, filter_shownAccessor, filter_shownAccessor, ← Option.not_isSome,
    ← Option.not_isSome, hgetter, hsetter, Bool.not_or]

theorem Linked.isHidden_event (hlinked : decl.Linked) {event : EventDecl}
    (hevent : event ∈ decl.events) :
    (decl.member (.event event)).isHidden = !(event.adder?.isSome && event.remover?.isSome) := by
  have hadder := isSome_shownAccessor (fun _ => hlinked.adder_lt hevent) (.of decl) .empty false
  have hremover := isSome_shownAccessor (fun _ => hlinked.remover_lt hevent) (.of decl) .empty false
  have hvisible : (decl.shownAccessor (.of decl) .empty false event.adder?).any
      ShownMethod.isHidden = false := by
    unfold shownAccessor
    cases decl.method? event.adder? <;> rfl
  show (ShownEvent.of decl (.of decl) .empty false event).isHidden = _
  rw [ShownEvent.isHidden, ShownEvent.isComplete, ShownEvent.of, hvisible, hadder, hremover,
    Bool.or_false]

/-- **The checks at the root pass what can be listed.** -/
theorem Linked.isShown_member (hlinked : decl.Linked) {item : Declared}
    (hitem : item ∈ decl.declared) :
    (!(decl.member item).isHidden && !(decl.member item).isUnlisted) = item.isListed := by
  cases item with
  | field field =>
      simp [member, Member.isHidden, Member.isUnlisted, ShownField.of, Access.isHidden,
        FieldDecl.isGenerated, Declared.isListed]
  | property property =>
      rw [hlinked.isHidden_property (by simpa [declared] using hitem)]
      simp [member, Member.isUnlisted, Declared.isListed]
  | event event =>
      rw [hlinked.isHidden_event (by simpa [declared] using hitem)]
      simp [member, Member.isUnlisted, Declared.isListed]
  | method method =>
      simp [member, Member.isHidden, Member.isUnlisted, ShownMethod.of, ShownMethod.isUnlisted,
        Access.isHidden, Declared.isListed]

end TypeDecl

/-! ### What has a section -/

/-- **The strays are what no section takes**: the two pairs that are missing are those of static
constructors and of operators of instances. -/
theorem Declared.mem_order_iff (decl : TypeDecl) (item : Declared) :
    ((decl.member item).kind, (decl.member item).isStatic) ∈ Section.order ↔
      item.isStray = false := by
  have hboth : ∀ isStatic, (MemberKind.field, isStatic) ∈ Section.order
      ∧ (MemberKind.property, isStatic) ∈ Section.order
      ∧ (MemberKind.event, isStatic) ∈ Section.order := by decide
  cases item with
  | field field => exact iff_of_true (hboth _).1 rfl
  | property property => exact iff_of_true (hboth _).2.1 rfl
  | event event => exact iff_of_true (hboth _).2.2 rfl
  | method method =>
      show (if method.isConstructor then MemberKind.constructor
          else if method.isOperator then .operator else .method, method.isStatic) ∈ Section.order
        ↔ (method.isConstructor && method.isStatic || method.isOperator && !method.isStatic) = false
      cases hconstructor : method.isConstructor with
      | true =>
          rw [MethodDecl.isOperator_of_isConstructor hconstructor]
          cases method.isStatic <;> decide
      | false => cases method.isOperator <;> cases method.isStatic <;> decide

/-! ### The root of a chain -/

namespace Chain

variable (chain : Chain) (kind : MemberKind) (wantStatic ignorePrivate : Bool)

/-- What the levels above the root leave to be listed. -/
def inherited : List Member :=
  (List.range' 1 ((chain.levels kind).length - 1)).flatMap
    (chain.unshadowed kind wantStatic ignorePrivate)

/-- A chain lists what its root makes eligible, and then what it inherits. -/
theorem members_eq_eligible_append_inherited :
    chain.members kind wantStatic ignorePrivate
      = chain.eligible kind wantStatic ignorePrivate 0
        ++ chain.inherited kind wantStatic ignorePrivate := by
  have hroot : chain.unshadowed kind wantStatic ignorePrivate 0
      = chain.eligible kind wantStatic ignorePrivate 0 := by
    refine List.filter_eq_self.mpr fun member _ => decide_eq_true ?_
    rintro ⟨nearer, hnearer, -⟩
    exact Nat.not_lt_zero nearer hnearer
  rw [members_eq_flatMap, List.range_eq_range', ← hroot]
  show (List.range' 0 (_ + 1)).flatMap _ = _
  rw [List.range'_succ, List.flatMap_cons]
  rfl

variable {chain kind wantStatic}

/-- **What the root makes eligible is what it declares**, if nothing is left out as too private. -/
theorem eligible_root (hlinked : chain.root.Linked) :
    chain.eligible kind wantStatic false 0 = chain.root.ownMembers kind wantStatic := by
  rw [eligible_of_level rfl, Level.candidates_eq_filter, TypeDecl.members_eq_map_member,
    List.filter_filter, List.filter_map, TypeDecl.ownMembers]
  refine congrArg (List.map chain.root.member) (List.filter_congr fun item hitem => ?_)
  have heligible : decide ((chain.root.member item).Eligible 0 wantStatic)
      = (item.isListed && (chain.root.member item).isStatic = wantStatic) := by
    rw [← hlinked.isShown_member hitem, Bool.eq_iff_iff, decide_eq_true_eq,
      ← Member.isEligible_iff, Member.isEligible, decide_eq_true rfl, Bool.true_or, Bool.and_true]
  rw [Function.comp_apply, heligible, Bool.and_assoc, Bool.and_comm (decide (_ = wantStatic)),
    Bool.and_assoc]

end Chain

/-! ### The sections of a surface -/

open Inquiry in
/-- The surface of a type that is not hidden shows a chain of the type, whatever the source
answers. -/
theorem Inspection.exists_shows {σ : Type} [Source σ] {options : Options} {decl : TypeDecl}
    (hshown : decl.access.isHidden options.ignorePrivate = false) {session after : Session σ}
    {surface : Surface} (h : Gives (surfaceOf options decl) session surface after) :
    ∃ (chain : Chain) (before middle : Session σ),
      Gives (Inspection.chain options decl) before chain middle
        ∧ surface.Shows chain options.ignorePrivate := by
  obtain ⟨_, _, -, h⟩ := gives_bind.mp h
  obtain ⟨interfaces, _, -, h⟩ := gives_bind.mp h
  obtain ⟨_, _, -, h⟩ := gives_bind.mp h
  rw [if_neg (by rw [hshown]; exact Bool.false_ne_true)] at h
  obtain ⟨chain, _, hchain, h⟩ := gives_bind.mp h
  obtain ⟨_, _, -, h⟩ := gives_bind.mp h
  obtain ⟨rfl, -⟩ := gives_pure.mp h
  exact ⟨chain, _, _, hchain, hshown, rfl⟩

namespace Surface.Shows

variable {surface : Surface} {chain : Chain} {ignorePrivate : Bool}
  (h : surface.Shows chain ignorePrivate)

include h

theorem map_key_sections :
    surface.sections.map (fun part => (part.kind, part.isStatic)) = Section.order := by
  rw [h.sections, List.map_map]
  exact List.map_id Section.order

/-- There is one section of a kind, static or not. -/
theorem existsUnique_section {key : MemberKind × Bool} (hkey : key ∈ Section.order) :
    ∃! part, part ∈ surface.sections ∧ key = (part.kind, part.isStatic) := by
  refine ⟨⟨key.1, key.2, chain.members key.1 key.2 ignorePrivate⟩, ⟨?_, rfl⟩, ?_⟩
  · rw [h.sections]
    exact List.mem_map_of_mem hkey
  · rintro ⟨kind, isStatic, members⟩ ⟨hpart, rfl⟩
    rw [← h.members_eq hpart]

end Surface.Shows

open Inquiry in
/--
**What a type declares is listed once, unless it is a stray.**  Let a type be finished from a draft,
and let nothing be left out as too private.  Its surface has the ten sections, and each has, in the
order of declaration, the members of its kind that the type declares, static or not, and then what
the type inherits.  Every declaration that can be listed is in one section and in no other.  The
exception are static methods with the name of constructors and methods of instances with the name of
an operator, which are in none.
-/
theorem own_members_in_one_section {σ : Type} [Source σ] {draft : TypeDraft} {decl : TypeDecl}
    (hfinish : draft.finish = .ok decl) {options : Options} (hall : options.ignorePrivate = false)
    {session after : Session σ} {surface : Surface}
    (hsurface : Gives (Inspection.surfaceOf options decl) session surface after) :
    surface.sections.map (fun part => (part.kind, part.isStatic)) = Section.order ∧
    (∃ (chain : Chain) (before middle : Session σ),
      Gives (Inspection.chain options decl) before chain middle ∧
      ∀ part ∈ surface.sections, part.members = decl.ownMembers part.kind part.isStatic
        ++ chain.inherited part.kind part.isStatic options.ignorePrivate) ∧
    ∀ item ∈ decl.declared, item.isListed = true →
      (item.isStray = false →
        ∃! part, part ∈ surface.sections
          ∧ decl.member item ∈ decl.ownMembers part.kind part.isStatic) ∧
      (item.isStray = true →
        ∀ part ∈ surface.sections, decl.member item ∉ decl.ownMembers part.kind part.isStatic) := by
  obtain ⟨chain, before, middle, hchain, hshows⟩ :=
    Inspection.exists_shows (by rw [hall]; rfl) hsurface
  refine ⟨hshows.map_key_sections, ⟨chain, before, middle, hchain, fun part hpart => ?_⟩,
    fun item hitem hlisted => ?_⟩
  · rw [hshows.members_eq hpart, Chain.members_eq_eligible_append_inherited]
    obtain ⟨rfl, -⟩ := Inspection.chain_follows hchain
    rw [hall, Chain.eligible_root (TypeDraft.finish_linked hfinish)]
  · simp only [TypeDecl.mem_ownMembers hitem hlisted]
    constructor
    · intro hfits
      exact hshows.existsUnique_section ((Declared.mem_order_iff decl item).mpr hfits)
    · intro hstray part hpart hkey
      have horder : (part.kind, part.isStatic) ∈ Section.order := by
        rw [← hshows.map_key_sections]
        exact List.mem_map.mpr ⟨part, hpart, rfl⟩
      rw [← hkey, Declared.mem_order_iff, hstray] at horder
      exact Bool.false_ne_true horder.symm

/-! ### An operator of an instance -/

/-- The public class `Switch` with the methods `op_Reset` and `Reset` of instances. -/
def switchDraft : TypeDraft :=
  { TypeDraft.referenceType "Game" "Switch" with
    methods := [MethodDraft.plain "op_Reset", MethodDraft.plain "Reset"] }

/-- A finished method of `Switch`. -/
def resetDecl (name : String) : MethodDecl :=
  { MethodDecl.bare name with word := MethodWord.publicAccess ||| MethodWord.hideBySignature }

/-- The finished `Switch`. -/
def switchDecl : TypeDecl :=
  { TypeDecl.bare (.top "Game" "Switch" none) with
    word := TypeWord.beforeFieldInit ||| TypeWord.publicTop
    base? := some (.primitive .object)
    methods := [resetDecl "op_Reset", resetDecl "Reset"] }

open Inquiry in
/-- With nothing left out, `Reset` is in one section of `Switch`, and `op_Reset` is in none. -/
theorem own_members_in_one_section_switch :
    let session : Session Shelf := ⟨⟨[switchDecl]⟩, []⟩
    ∃ surface after, Gives (Inspection.surfaceOf .complete switchDecl) session surface after
      ∧ (∃! part, part ∈ surface.sections ∧ switchDecl.member (.method (resetDecl "Reset"))
        ∈ switchDecl.ownMembers part.kind part.isStatic)
      ∧ ∀ part ∈ surface.sections, switchDecl.member (.method (resetDecl "op_Reset"))
        ∉ switchDecl.ownMembers part.kind part.isStatic := by
  intro session
  have hfinish : switchDraft.finish = .ok switchDecl := rfl
  obtain ⟨after, hsurface⟩ :=
    ((Inspection.settles_surfaceOf (Shelf.fixed session.source) .complete switchDecl).gives_iff
      (show session.source = session.source from rfl)).mpr (show _ = Except.ok _ from rfl)
  obtain ⟨-, -, hplaces⟩ := own_members_in_one_section hfinish rfl hsurface
  refine ⟨_, after, hsurface, ?_, ?_⟩
  · exact (hplaces (.method (resetDecl "Reset")) (by simp [TypeDecl.declared, switchDecl])
      (by decide)).1 (by decide)
  · exact (hplaces (.method (resetDecl "op_Reset")) (by simp [TypeDecl.declared, switchDecl])
      (by decide)).2 (by decide)

end ApiSurface
