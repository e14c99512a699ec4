/-
One section alone and the same section of the surface.

`Inspection.collect` gathers one section without making the surface.  It climbs
the chain of the type and takes the members of one kind from it, as the surface
does for each of its sections; but the surface looks first whether the type itself
is hidden, and then lists nothing and does not climb.  So the two agree on every
type that is shown: on the members where both succeed, and on the error where they
fail.  On a hidden type they agree only if the climb comes to an end and the chain
has nothing to list.
-/
import ApiSurface.Proofs.FixedSource

namespace ApiSurface

/-- The members that the surface lists of a kind, static or not. -/
def Surface.membersOf (surface : Surface) (kind : MemberKind) (isStatic : Bool) : List Member :=
  (surface.sections.filter fun part => part.kind = kind ∧ part.isStatic = isStatic).flatMap
    Section.members

/-- Of each kind that surfaces have a section for, there is only one. -/
theorem Surface.membersOf_of (decl : TypeDecl) (ignorePrivate : Bool) (interfaces : List Signature)
    (members : MemberKind → Bool → List Member) {kind : MemberKind} {isStatic : Bool}
    (hpart : (kind, isStatic) ∈ Section.order) :
    (Surface.of decl ignorePrivate interfaces members).membersOf kind isStatic
      = members kind isStatic := by
  unfold membersOf Surface.of
  simp only [Section.order, List.mem_cons, List.not_mem_nil, Prod.mk.injEq, or_false] at hpart
  rcases hpart with ⟨rfl, rfl⟩ | ⟨rfl, rfl⟩ | ⟨rfl, rfl⟩ | ⟨rfl, rfl⟩ | ⟨rfl, rfl⟩ | ⟨rfl, rfl⟩
    | ⟨rfl, rfl⟩ | ⟨rfl, rfl⟩ | ⟨rfl, rfl⟩ | ⟨rfl, rfl⟩ <;> simp [Section.order]

namespace Answers

variable (answers : Answers)

/-- One section of a definition, out of its chain. -/
def collect (options : Options) (kind : MemberKind) (isStatic : Bool) (decl : TypeDecl) :
    Except Error (List Member) := do
  let chain ← answers.chain options decl
  return chain.members kind isStatic options.ignorePrivate

variable {answers} {options : Options} {decl : TypeDecl} {kind : MemberKind} {isStatic : Bool}

theorem collect_eq_ok {members : List Member} :
    answers.collect options kind isStatic decl = .ok members ↔
      ∃ chain, answers.chain options decl = .ok chain
        ∧ chain.members kind isStatic options.ignorePrivate = members := by
  unfold collect
  cases answers.chain options decl with
  | error error =>
      constructor
      · intro h
        cases h
      · rintro ⟨chain, h, -⟩
        cases h
  | ok chain =>
      constructor
      · intro h
        exact ⟨chain, rfl, Except.ok.inj h⟩
      · rintro ⟨_, h, rfl⟩
        cases h
        rfl

/-- The section of a type that is shown is the one that is collected. -/
theorem membersOf_surface_of_shown (hpart : (kind, isStatic) ∈ Section.order)
    (hshown : decl.access.isHidden options.ignorePrivate = false) :
    (answers.surface options decl).map (·.membersOf kind isStatic)
      = answers.collect options kind isStatic decl := by
  rw [surface_of_shown hshown]
  unfold collect
  cases answers.chain options decl with
  | error error => rfl
  | ok chain => exact congrArg Except.ok (Surface.membersOf_of decl _ _ _ hpart)

/-- A hidden type lists nothing, whatever its chain is like. -/
theorem membersOf_surface_of_hidden (hpart : (kind, isStatic) ∈ Section.order)
    (hhidden : decl.access.isHidden options.ignorePrivate = true) :
    (answers.surface options decl).map (·.membersOf kind isStatic) = .ok [] := by
  unfold surface
  rw [if_pos hhidden]
  exact congrArg Except.ok (Surface.membersOf_of decl _ _ _ hpart)

end Answers

namespace Inspection

open Inquiry

variable {σ : Type} [Source σ] {states : σ → Prop} {answers : Answers}
  {finds : String → Option TypeDecl}

theorem settles_collect (hfixed : Source.Fixed states answers) (hfinds : Source.Finds states finds)
    (options : Options) (fullName : String) (kind : MemberKind) (isStatic : Bool) :
    Settles states (collect options fullName kind isStatic)
      (Answers.definition finds fullName >>= answers.collect options kind isStatic) := by
  refine (hfinds.settles_definition fullName).bind fun decl _ => ?_
  refine (settles_chain hfixed options decl).bind fun chain _ => ?_
  exact (settles_report _).step (settles_pure _)

/-- The internal class `Vault` with its public method `Open`. -/
def vaultDecl : TypeDecl :=
  { TypeDecl.bare (.top "Game" "Vault" none) with
    word := TypeWord.notPublic
    methods := [.bare "Open"] }

end Inspection

end ApiSurface
