/-
Hidden members leave no trace in the public view.

Hidden members pass through the same steps as the visible ones: they are made into
members, compared by key and looked up as accessors.  What is proved here compares
two inspections, of which the second meets definitions with more hidden fields and
methods at their end (`TypeDecl.Pads`).  Its surface is the same.

The comparison follows the inspection.  A padded level has more candidates, and
these are hidden (`Level.Pads.candidates`); such levels give the same members
(`Chain.gather_pads`); climbs with padded answers meet padded levels
(`Answers.climb_pads`); and the declaration reads fields and methods for
enumerations and delegates only.
-/
import ApiSurface.Proofs.DraftLinks
import ApiSurface.Proofs.PublicView

namespace ApiSurface

/-! ### Padded definitions -/

namespace TypeDecl

/-- The type with further fields and methods after its own. -/
def pad (decl : TypeDecl) (fields : List FieldDecl) (methods : List MethodDecl) : TypeDecl :=
  { decl with fields := decl.fields ++ fields, methods := decl.methods ++ methods }

/-- The second type is the first one with fields and methods added that cannot be seen outside the
assembly. -/
inductive Pads (decl : TypeDecl) : TypeDecl → Prop
  | pad {fields : List FieldDecl} {methods : List MethodDecl}
      (hfields : ∀ field ∈ fields, (Access.ofFieldWord field.word).isExternal = false)
      (hmethods : ∀ method ∈ methods, (Access.ofMethodWord method.word).isExternal = false) :
      Pads decl (decl.pad fields methods)

/-- Nothing has to be added. -/
theorem Pads.refl (decl : TypeDecl) : decl.Pads decl := by
  have hpad : decl.pad [] [] = decl := by simp [TypeDecl.pad]
  have hnone : decl.Pads (decl.pad [] []) :=
    .pad (fun _ h => absurd h List.not_mem_nil) fun _ h => absurd h List.not_mem_nil
  rwa [hpad] at hnone

variable {decl : TypeDecl} {fields : List FieldDecl} {methods : List MethodDecl}

theorem shownAccessor_pad {index? : Option Nat}
    (hindex : ∀ index ∈ index?, index < decl.methods.length) (owner : ShownOwner)
    (binding : Binding) (ignorePrivate : Bool) :
    (decl.pad fields methods).shownAccessor owner binding ignorePrivate index?
      = decl.shownAccessor owner binding ignorePrivate index? := by
  have hmethod : (decl.pad fields methods).method? index? = decl.method? index? := by
    cases index? with
    | none => rfl
    | some index => exact List.getElem?_append_left (hindex index rfl)
  rw [shownAccessor, shownAccessor, hmethod]
  rfl

theorem Linked.shownProperty_pad (hlinked : decl.Linked) {property : PropertyDecl}
    (hproperty : property ∈ decl.properties) (owner : ShownOwner) (binding : Binding)
    (ignorePrivate : Bool) :
    ShownProperty.of (decl.pad fields methods) owner binding ignorePrivate property
      = ShownProperty.of decl owner binding ignorePrivate property := by
  rw [ShownProperty.of, ShownProperty.of,
    shownAccessor_pad fun _ => hlinked.getter_lt hproperty,
    shownAccessor_pad fun _ => hlinked.setter_lt hproperty]

theorem Linked.shownEvent_pad (hlinked : decl.Linked) {event : EventDecl}
    (hevent : event ∈ decl.events) (owner : ShownOwner) (binding : Binding)
    (ignorePrivate : Bool) :
    ShownEvent.of (decl.pad fields methods) owner binding ignorePrivate event
      = ShownEvent.of decl owner binding ignorePrivate event := by
  rw [ShownEvent.of, ShownEvent.of,
    shownAccessor_pad fun _ => hlinked.adder_lt hevent,
    shownAccessor_pad fun _ => hlinked.remover_lt hevent,
    shownAccessor_pad fun _ => hlinked.raiser_lt hevent]

/-- The kinds of types that say nothing about their fields and methods in their declaration: all but
enumerations and delegates. -/
def IsPlainKind (decl : TypeDecl) : Prop :=
  decl.kind = .referenceType ∨ decl.kind = .valueType ∨ decl.kind = .interface

theorem IsPlainKind.invoke? (h : decl.IsPlainKind) : decl.invoke? = none := by
  unfold TypeDecl.invoke?
  rcases h with h | h | h <;> rw [h]

theorem IsPlainKind.underlying? (h : decl.IsPlainKind) : decl.underlying? = none := by
  unfold TypeDecl.underlying?
  rcases h with h | h | h <;> rw [h]

theorem IsPlainKind.head_pad (h : decl.IsPlainKind) : (decl.pad fields methods).head = decl.head := by
  have hpad : (decl.pad fields methods).IsPlainKind := h
  rw [head, head, hpad.invoke?, h.invoke?]
  rfl

theorem IsPlainKind.declaration_pad (h : decl.IsPlainKind) (interfaces : List Signature) :
    (decl.pad fields methods).declaration interfaces = decl.declaration interfaces := by
  have hpad : (decl.pad fields methods).IsPlainKind := h
  have hvariant : (decl.pad fields methods).variantHead = decl.variantHead := by
    rw [variantHead, variantHead, h.head_pad]
    rfl
  have hinheritance : (decl.pad fields methods).inheritance interfaces
      = decl.inheritance interfaces := by
    rw [inheritance, inheritance, hpad.underlying?, h.underlying?]
    rfl
  rw [declaration, declaration, hpad.invoke?, h.invoke?, hvariant, hinheritance, h.head_pad]
  rfl

theorem IsPlainKind.surface_pad (h : decl.IsPlainKind) (ignorePrivate : Bool)
    (interfaces : List Signature) (members : MemberKind → Bool → List Member) :
    Surface.of (decl.pad fields methods) ignorePrivate interfaces members
      = Surface.of decl ignorePrivate interfaces members := by
  rw [Surface.of, Surface.of, h.head_pad, h.declaration_pad]
  rfl

end TypeDecl

/-! ### Padded levels -/

namespace Level

/-- The second level shows a padded definition through the same binding. -/
inductive Pads : Level → Level → Prop
  | pad {decl padded : TypeDecl} (binding : Binding) (hlinked : decl.Linked)
      (hpads : decl.Pads padded) : Pads ⟨decl, binding⟩ ⟨padded, binding⟩

/-- **A padded level has further candidates, and they are hidden.** -/
theorem Pads.candidates {level padded : Level} (h : level.Pads padded) (kind : MemberKind) :
    ∃ further, padded.candidates kind true = level.candidates kind true ++ further
      ∧ ∀ member ∈ further, member.isHidden = true := by
  obtain @⟨decl, _, binding, hlinked, @⟨fields, methods, hfields, hmethods⟩⟩ := h
  have hallFields : (⟨decl.pad fields methods, binding⟩ : Level).fields true
      = (⟨decl, binding⟩ : Level).fields true ++ fields.map (.of (.of decl) binding true) :=
    List.map_append
  have hallMethods : (⟨decl.pad fields methods, binding⟩ : Level).methods true
      = (⟨decl, binding⟩ : Level).methods true
        ++ methods.map (.of (.of decl) decl.isInterface binding true) :=
    List.map_append
  -- Constructors, operators and the other methods are chosen from all methods alike.
  have hchosen : ∀ keep : ShownMethod → Bool, ∃ further,
      (((⟨decl.pad fields methods, binding⟩ : Level).methods true).filter keep).map Member.method
          = (((⟨decl, binding⟩ : Level).methods true).filter keep).map Member.method ++ further
        ∧ ∀ member ∈ further, member.isHidden = true := by
    intro keep
    rw [hallMethods, List.filter_append, List.map_append]
    refine ⟨_, rfl, fun member hmember => ?_⟩
    obtain ⟨shown, hshown, rfl⟩ := List.mem_map.mp hmember
    obtain ⟨method, hmethod, rfl⟩ := List.mem_map.mp (List.mem_filter.mp hshown).1
    simp [Member.isHidden, ShownMethod.of, Access.isHidden, hmethods method hmethod]
  cases kind with
  | field =>
      rw [Level.candidates, hallFields, List.map_append]
      refine ⟨_, rfl, fun member hmember => ?_⟩
      obtain ⟨shown, hshown, rfl⟩ := List.mem_map.mp hmember
      obtain ⟨field, hfield, rfl⟩ := List.mem_map.mp hshown
      simp [Member.isHidden, ShownField.of, Access.isHidden, hfields field hfield]
  | property =>
      refine ⟨[], ?_, fun member hmember => absurd hmember List.not_mem_nil⟩
      rw [List.append_nil]
      exact congrArg (List.map Member.property) (List.map_congr_left fun property hproperty =>
        hlinked.shownProperty_pad hproperty (.of decl) binding true)
  | event =>
      refine ⟨[], ?_, fun member hmember => absurd hmember List.not_mem_nil⟩
      rw [List.append_nil]
      exact congrArg (List.map Member.event) (List.map_congr_left fun event hevent =>
        hlinked.shownEvent_pad hevent (.of decl) binding true)
  | method => exact hchosen _
  | constructor => exact hchosen _
  | operator => exact hchosen _

end Level

namespace Chain

variable {kind : MemberKind} {wantStatic : Bool}

/-- **Padded levels give the same members**, and so leave the same keys behind. -/
theorem gather_pads {levels padded : List Level} (h : List.Forall₂ Level.Pads levels padded) :
    ∀ (depth : Nat) (seen : List String),
      gather kind wantStatic true depth seen padded
        = gather kind wantStatic true depth seen levels := by
  induction h with
  | nil => intro depth seen; rfl
  | cons hlevel _ ih =>
      intro depth seen
      obtain ⟨further, hcandidates, hhidden⟩ := hlevel.candidates kind
      have hnone : further.filter (fun member =>
          member.isEligible depth wantStatic && !seen.contains member.identityKey) = [] := by
        refine List.filter_eq_nil_iff.mpr fun member hmember => ?_
        simp [Member.isEligible, hhidden member hmember]
      rw [gather, gather, hcandidates, List.filter_append, hnone, List.append_nil, ih]

/-- The levels of the second chain are padded ones of the first, for members of any kind. -/
def Pads (chain padded : Chain) : Prop :=
  ∀ kind, List.Forall₂ Level.Pads (chain.levels kind) (padded.levels kind)

theorem Pads.members_eq {chain padded : Chain} (h : chain.Pads padded) (kind : MemberKind)
    (wantStatic : Bool) :
    padded.members kind wantStatic true = chain.members kind wantStatic true :=
  gather_pads (h kind) 0 []

end Chain

/-! ### Padded answers -/

/-- Both fail with the same error, or both succeed with related results. -/
inductive Alike {α β : Type} (related : α → β → Prop) : Except Error α → Except Error β → Prop
  | error (error : Error) : Alike related (.error error) (.error error)
  | ok {a : α} {b : β} (h : related a b) : Alike related (.ok a) (.ok b)

theorem Alike.map {α β γ δ : Type} {related : α → β → Prop} {related' : γ → δ → Prop}
    {a : Except Error α} {b : Except Error β} (h : Alike related a b) {f : α → γ} {g : β → δ}
    (hnext : ∀ x y, related x y → related' (f x) (g y)) : Alike related' (a.map f) (b.map g) := by
  cases h with
  | error error => exact .error error
  | ok h => exact .ok (hnext _ _ h)

namespace Answers

variable {answers padded : Answers}

section Padded

variable (hpads : ∀ name, Option.Rel TypeDecl.Pads (answers name) (padded name))

include hpads

theorem target?_pads (base : Signature) :
    Option.Rel TypeDecl.Pads (answers.target? base) (padded.target? base) := by
  unfold target?
  cases base.typeName? with
  | none => exact .none
  | some name => exact hpads name

/-- **Climbs with padded answers meet padded levels**, and fail together. -/
theorem climb_pads (limit : Nat) :
    ∀ (remaining : Nat) (base? : Option Signature) (binding : Binding),
      (∀ position, ∀ decl ∈ answers.ancestor? base? position, decl.Linked) →
      Alike (List.Forall₂ Level.Pads) (answers.climb limit remaining base? binding)
        (padded.climb limit remaining base? binding) := by
  intro remaining
  induction remaining with
  | zero =>
      intro base? binding _
      cases base? with
      | none => exact .ok .nil
      | some base => exact .error _
  | succ remaining ih =>
      intro base? binding hlinked
      cases base? with
      | none => exact .ok .nil
      | some base =>
          rw [climb_some_succ, climb_some_succ]
          have htarget := target?_pads hpads base
          generalize hanswer : answers.target? base = found? at htarget
          generalize padded.target? base = found?' at htarget
          cases htarget with
          | none => exact .ok .nil
          | some hdecl =>
              rename_i decl decl'
              have hbase : decl'.base? = decl.base? := by
                cases hdecl
                rfl
              have hrest := ih decl.base? (Binding.through base binding) fun position next hnext =>
                hlinked (position + 1) next (by rw [ancestor?_some_succ, hanswer]; exact hnext)
              simp only [hbase]
              exact hrest.map fun _ _ habove => .cons (.pad _ (hlinked 0 decl hanswer) hdecl) habove

/-- The chain of a padded type is padded. -/
theorem chain_pads (options : Options) {root root' : TypeDecl} (hroot : root.Pads root')
    (hlinked : root.Linked)
    (hancestors : ∀ position, ∀ decl ∈ answers.ancestor? root.base? position, decl.Linked) :
    Alike Chain.Pads (answers.chain options root) (padded.chain options root') := by
  have hbase : root'.base? = root.base? := by
    cases hroot
    rfl
  have hlevels : Alike (List.Forall₂ Level.Pads) (answers.ancestors options root)
      (padded.ancestors options root') := by
    unfold ancestors
    rw [hbase]
    split
    · exact climb_pads hpads _ _ _ _ hancestors
    · exact .ok .nil
  have hchain : ∀ (answers : Answers) (decl : TypeDecl), answers.chain options decl
      = (answers.ancestors options decl).map (Chain.mk decl) := by
    intro answers decl
    rw [Answers.chain]
    cases answers.ancestors options decl <;> rfl
  rw [hchain, hchain]
  refine hlevels.map fun levels levels' hpadded kind => .cons (.pad .empty hlinked hroot) ?_
  split
  · exact hpadded
  · exact .nil

theorem shownInterfaces_pads (ignorePrivate : Bool) (interfaces : List Signature) :
    padded.shownInterfaces ignorePrivate interfaces
      = answers.shownInterfaces ignorePrivate interfaces := by
  refine List.filter_congr fun interface _ => congrArg (!ignorePrivate || ·) ?_
  unfold isShownInterface
  have htarget := target?_pads hpads interface
  unfold target? at htarget
  generalize interface.typeName?.bind answers = found? at htarget ⊢
  generalize interface.typeName?.bind padded = found?' at htarget ⊢
  cases htarget with
  | none => rfl
  | some hdecl =>
      cases hdecl
      rfl

/-- **Padded definitions have the same surface**, or fail with the same error. -/
theorem surface_pads {options : Options} (hpublic : options.ignorePrivate = true)
    {root root' : TypeDecl} (hroot : root.Pads root') (hkind : root.IsPlainKind)
    (hlinked : root.Linked)
    (hancestors : ∀ position, ∀ decl ∈ answers.ancestor? root.base? position, decl.Linked) :
    padded.surface options root' = answers.surface options root := by
  have hchain := chain_pads hpads options hroot hlinked hancestors
  have hshown : ∀ interfaces members, Surface.of root' true interfaces members
      = Surface.of root true interfaces members := by
    cases hroot
    exact hkind.surface_pad true
  have haccess : root'.access = root.access := by
    cases hroot
    rfl
  have hinterfaces : root'.interfaces = root.interfaces := by
    cases hroot
    rfl
  unfold surface
  simp only [hpublic, hshown, haccess, hinterfaces, shownInterfaces_pads hpads]
  by_cases hhidden : root.access.isHidden true = true
  · rw [if_pos hhidden, if_pos hhidden]
  · rw [if_neg hhidden, if_neg hhidden]
    generalize answers.chain options root = result at hchain
    generalize padded.chain options root' = result' at hchain
    cases hchain with
    | error error => rfl
    | ok hpadded =>
        show Except.ok (Surface.of root true _ _) = Except.ok (Surface.of root true _ _)
        simp only [hpadded.members_eq]

end Padded

end Answers

/-! ### Two inspections -/

/-- What a chain lists has an access that is shown. -/
theorem Chain.access_of_mem_members {chain : Chain} {kind : MemberKind}
    {wantStatic ignorePrivate : Bool} {member : Member}
    (h : member ∈ chain.members kind wantStatic ignorePrivate) :
    member.access.isHidden ignorePrivate = false := by
  rw [members_eq_flatMap, List.mem_flatMap] at h
  obtain ⟨depth, hdepth, hmember⟩ := h
  have hlevel := List.getElem?_eq_getElem (List.mem_range.mp hdepth)
  have heligible := (mem_unshadowed.mp hmember).1
  rw [eligible_of_level hlevel] at heligible
  obtain ⟨hcandidate, hshown⟩ := List.mem_filter.mp heligible
  exact Level.access_of_shown hcandidate (of_decide_eq_true hshown).shown

/-- What a surface lists has an access that is shown. -/
theorem Answers.access_of_surface {answers : Answers} {options : Options} {root : TypeDecl}
    {surface : Surface} (h : answers.surface options root = .ok surface) {part : Section}
    (hpart : part ∈ surface.sections) {member : Member} (hmember : member ∈ part.members) :
    member.access.isHidden options.ignorePrivate = false := by
  unfold Answers.surface at h
  split at h
  · cases h
    obtain ⟨key, -, rfl⟩ := List.mem_map.mp hpart
    exact absurd hmember List.not_mem_nil
  · obtain ⟨chain, -, h⟩ := exists_of_bind_eq_ok h
    cases h
    obtain ⟨key, -, rfl⟩ := List.mem_map.mp hpart
    exact Chain.access_of_mem_members hmember

theorem Access.isHidden_true_eq_false_iff {access : Access} :
    access.isHidden true = false ↔
      access = .everyone ∨ access = .family ∨ access = .familyOrAssembly := by
  cases access <;> decide

/-- A collection of padded definitions answers with padded definitions. -/
theorem Shelf.find?_pads {decls padded : List TypeDecl}
    (h : List.Forall₂ TypeDecl.Pads decls padded) (fullName : String) :
    Option.Rel TypeDecl.Pads ((⟨decls⟩ : Shelf).find? fullName)
      ((⟨padded⟩ : Shelf).find? fullName) := by
  unfold Shelf.find?
  have hreverse := List.forall₂_reverse_iff.mpr h
  generalize decls.reverse = found at hreverse
  generalize padded.reverse = found' at hreverse
  induction hreverse with
  | nil => exact .none
  | cons hdecl _ ih =>
      rename_i decl decl' _ _ _
      have hname : decl'.fullName = decl.fullName := by
        cases hdecl
        rfl
      rw [List.find?_cons, List.find?_cons, hname]
      cases decide (decl.fullName = fullName) with
      | true => exact .some hdecl
      | false => exact ih

/-- A private method of an instance, without parameters and result. -/
def secretDecl (name : String) : MethodDecl :=
  { MethodDecl.bare name with word := MethodWord.privateAccess }

end ApiSurface
