/-
What a substitution reports and what it leaves open.

Writing arguments into a reference comes with a flag, and whoever sees it down takes
the reference for unchanged without looking at it again.  The flag is up exactly if
some parameter of the reference has an argument, `substitute_snd_iff`, so a missed one
would show as an open parameter where an argument belongs.

The parameters of the result are known from `mem_parametersOf_fill_iff`: those that had
no argument, and those that came with an argument.  What the result mentions is read off
from them, for parameters of types and of methods alike.
-/
import ApiSurface.Proofs.Substitution

namespace ApiSurface

namespace Signature

variable {args : List Signature} {sig : Signature}

/-- The flag says whether some parameter has an argument. -/
theorem substitute_snd_iff :
    (sig.substitute args).2 = true ↔ ∃ p ∈ sig.parametersOf .type, p.1 < args.length := by
  induction sig using Signature.induction with
  | primitive kind => simp [substitute, parametersOf]
  | named name => simp [substitute, parametersOf]
  | instantiation base inner ihbase ihinner =>
      simp only [substitute, substituteAll_eq, Bool.or_eq_true, List.any_eq_true, ihbase,
        parametersOf, allParametersOf_eq_flatMap, List.mem_append, List.mem_flatMap]
      constructor
      · rintro (⟨p, hp, hlt⟩ | ⟨arg, harg, hflag⟩)
        · exact ⟨p, Or.inl hp, hlt⟩
        · obtain ⟨p, hp, hlt⟩ := (ihinner arg harg).mp hflag
          exact ⟨p, Or.inr ⟨arg, harg, hp⟩, hlt⟩
      · rintro ⟨p, hp | ⟨arg, harg, hp⟩, hlt⟩
        · exact Or.inl ⟨p, hp, hlt⟩
        · exact Or.inr ⟨arg, harg, (ihinner arg harg).mpr ⟨p, hp, hlt⟩⟩
  | array element rank ih => exact ih
  | byRef element ih => exact ih
  | pointer element ih => exact ih
  | parameter owner index name =>
      cases owner with
      | method => simp [substitute, parametersOf]
      | type =>
          rw [substitute]
          cases harg : args[index]? with
          | some arg =>
              have hindex : index < args.length := (List.getElem?_eq_some_iff.mp harg).1
              simpa [parametersOf] using hindex
          | none =>
              have hindex : args.length ≤ index := List.getElem?_eq_none_iff.mp harg
              simpa [parametersOf] using hindex

/-- A reference that reports no change has none. -/
theorem fill_of_unchanged (h : (sig.substitute args).2 = false) : sig.fill args = sig := by
  refine fill_of_unbound fun p hp => Nat.not_lt.mp fun hlt => ?_
  rw [substitute_snd_iff.mpr ⟨p, hp, hlt⟩] at h
  exact absurd h (by decide)

theorem mentions_iff {owner : ParameterOwner} :
    sig.mentions owner = true ↔ ∃ p, p ∈ sig.parametersOf owner := by
  rw [← Bool.not_eq_false, mentions_eq_false_iff, List.eq_nil_iff_forall_not_mem, not_forall_not]

/-- The result mentions what had no argument, and what the arguments mention that were written
in. -/
theorem mentions_fill_iff {owner : ParameterOwner} :
    (sig.fill args).mentions owner = true ↔
      (∃ p ∈ sig.parametersOf owner, owner = .type → args.length ≤ p.1)
        ∨ ∃ arg, IsBound args sig arg ∧ arg.mentions owner = true := by
  simp only [mentions_iff, mem_parametersOf_fill_iff]
  constructor
  · rintro ⟨p, hopen | ⟨arg, hbound, hp⟩⟩
    · exact Or.inl ⟨p, hopen⟩
    · exact Or.inr ⟨arg, hbound, p, hp⟩
  · rintro (⟨p, hopen⟩ | ⟨arg, hbound, p, hp⟩)
    · exact ⟨p, Or.inl hopen⟩
    · exact ⟨p, Or.inr ⟨arg, hbound, hp⟩⟩

end Signature

/-- The shortcut for the empty binding reports what a substitution would. -/
theorem Binding.applyTracked_eq_substitute (binding : Binding) (sig : Signature) :
    binding.applyTracked sig = sig.substitute binding.args := by
  rw [applyTracked]
  split
  · rename_i hempty
    have hnone : (sig.substitute binding.args).2 = false := by
      rw [Bool.eq_false_iff, ne_eq, Signature.substitute_snd_iff, List.isEmpty_iff.mp hempty]
      rintro ⟨p, -, hlt⟩
      exact Nat.not_lt_zero p.1 hlt
    exact (Prod.ext (Signature.fill_of_unchanged hnone) hnone).symm
  · rfl

namespace Signature

/--
**A substitution reports and binds exactly the bound parameters.**  The flag is up if and only if
some type-level parameter of the reference has an argument, and with the flag down the reference is
what it was.  The result mentions a type-level parameter if and only if one of the reference had no
argument or an argument that took the place of one mentions some itself; it mentions a parameter of
a method if and only if the reference did or such an argument does.  A binding gives the same
answers as its arguments.
-/
theorem substitute_binds_exactly (args : List Signature) (sig : Signature) :
    ((sig.substitute args).2 = true ↔ ∃ p ∈ sig.parametersOf .type, p.1 < args.length)
      ∧ ((sig.substitute args).2 = false → (sig.substitute args).1 = sig)
      ∧ ((sig.substitute args).1.mentions .type = true ↔
          (∃ p ∈ sig.parametersOf .type, args.length ≤ p.1)
            ∨ ∃ p ∈ sig.parametersOf .type, ∃ arg,
                args[p.1]? = some arg ∧ arg.mentions .type = true)
      ∧ ((sig.substitute args).1.mentions .method = true ↔
          sig.mentions .method = true
            ∨ ∃ p ∈ sig.parametersOf .type, ∃ arg,
                args[p.1]? = some arg ∧ arg.mentions .method = true)
      ∧ (Binding.mk args).applyTracked sig = sig.substitute args := by
  have hbound : ∀ owner, (∃ arg, IsBound args sig arg ∧ arg.mentions owner = true) ↔
      ∃ p ∈ sig.parametersOf .type, ∃ arg, args[p.1]? = some arg ∧ arg.mentions owner = true := by
    intro owner
    constructor
    · rintro ⟨arg, ⟨p, hp, harg⟩, hmentions⟩
      exact ⟨p, hp, arg, harg, hmentions⟩
    · rintro ⟨p, hp, arg, harg, hmentions⟩
      exact ⟨arg, ⟨p, hp, harg⟩, hmentions⟩
  refine ⟨substitute_snd_iff, fill_of_unchanged, ?_, ?_, Binding.applyTracked_eq_substitute _ _⟩
  · show (sig.fill args).mentions .type = true ↔ _
    rw [mentions_fill_iff, hbound]
    simp only [true_implies]
  · show (sig.fill args).mentions .method = true ↔ _
    rw [mentions_fill_iff, hbound, mentions_iff]
    simp only [reduceCtorEq, false_implies, and_true]

/-- A reference with a parameter that has an argument, one that has none, and one of a method. -/
def partlyBound : Signature :=
  .instantiation (.inSpace "Game" "Map`3")
    [.vector (.parameter .type 0 "T"), .parameter .type 2 "V", .pointer (.parameter .method 0 "U")]

/-- Without arguments nothing changes; with two, one parameter is bound and one stays open. -/
theorem substitute_binds_exactly_partly :
    (partlyBound.substitute []).1 = partlyBound
      ∧ (partlyBound.substitute [.primitive .int32, .parameter .type 7 "K"]).2 = true
      ∧ (partlyBound.substitute [.primitive .int32, .parameter .type 7 "K"]).1.mentions .type
          = true := by
  have hnone := (substitute_binds_exactly [] partlyBound).2.1
  obtain ⟨hflag, -, htype, -⟩ :=
    substitute_binds_exactly [.primitive .int32, .parameter .type 7 "K"] partlyBound
  exact ⟨hnone (by decide), hflag.mpr ⟨(0, "T"), by decide, by decide⟩,
    htype.mpr (Or.inl ⟨(2, "V"), by decide, by decide⟩)⟩

end Signature

end ApiSurface
