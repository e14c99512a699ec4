/-
What a climb gives back.

An inquiry runs against a source that may change and may fail, so a statement
about a chain starts from a run: the chain that `Inspection.chain` gave in some
session.  `Inquiry.Gives` says that a run succeeded and with what, and
`Inquiry.gives_bind` takes a run apart into the runs of its steps.

`Chain.Follows` is all that the climb promises about the levels it returns,
whatever the source answered: each is the base of the one below, seen through the
binding that its base reference makes.
-/
import ApiSurface.Inspection

namespace ApiSurface

namespace Inquiry

variable {σ α β : Type}

/-- Started in `session`, the inquiry succeeds with `value` and leaves `after`. -/
def Gives (inquiry : Inquiry σ α) (session : Session σ) (value : α) (after : Session σ) : Prop :=
  (ExceptT.run inquiry).run session = (.ok value, after)

theorem gives_pure {a b : α} {session after : Session σ} :
    Gives (pure a) session b after ↔ a = b ∧ session = after := by
  constructor
  · intro h
    obtain ⟨hvalue, hafter⟩ := Prod.mk.inj h
    exact ⟨Except.ok.inj hvalue, hafter⟩
  · rintro ⟨rfl, rfl⟩
    rfl

theorem not_gives_throw {error : Error} {a : α} {session after : Session σ} :
    ¬Gives (throw error) session a after := by
  intro h
  exact absurd (Prod.mk.inj h).1 (by simp)

theorem run_bind (first : Inquiry σ α) (next : α → Inquiry σ β) (session : Session σ) :
    (ExceptT.run (first >>= next)).run session
      = match (ExceptT.run first).run session with
        | (.ok a, middle) => (ExceptT.run (next a)).run middle
        | (.error error, middle) => (.error error, middle) := by
  rw [ExceptT.run_bind, StateT.run_bind]
  rcases (ExceptT.run first).run session with ⟨_ | _, middle⟩ <;> rfl

/-- A run of two steps is a run of the first and then one of the second. -/
theorem gives_bind {first : Inquiry σ α} {next : α → Inquiry σ β} {b : β}
    {session after : Session σ} :
    Gives (first >>= next) session b after ↔
      ∃ a middle, Gives first session a middle ∧ Gives (next a) middle b after := by
  unfold Gives
  rw [run_bind]
  constructor
  · intro h
    split at h
    · rename_i a middle hfirst
      exact ⟨a, middle, hfirst, h⟩
    · exact absurd (Prod.mk.inj h).1 (by simp)
  · rintro ⟨a, middle, hfirst, hnext⟩
    rw [hfirst]
    exact hnext

end Inquiry

/-- The levels climb from a type with the given base, which is seen through `binding`. -/
def FollowsFrom : Option Signature → Binding → List Level → Prop
  | _, _, [] => True
  | base?, binding, level :: above =>
    (∃ base ∈ base?, level.binding = Binding.through base binding)
      ∧ FollowsFrom level.decl.base? level.binding above

/-- Every ancestor of the chain is the base of the level below it. -/
def Chain.Follows (chain : Chain) : Prop := FollowsFrom chain.root.base? .empty chain.ancestors

namespace Inspection

open Inquiry

variable {σ : Type} [Source σ]

theorem climb_followsFrom {limit : Nat} :
    ∀ {remaining : Nat} {base? : Option Signature} {binding : Binding} {levels : List Level}
      {session after : Session σ},
      Gives (climb limit remaining base? binding) session levels after →
        FollowsFrom base? binding levels := by
  intro remaining
  induction remaining with
  | zero =>
      intro base? binding levels session after h
      cases base? with
      | none =>
          obtain ⟨rfl, -⟩ := gives_pure.mp h
          trivial
      | some base => exact absurd h not_gives_throw
  | succ remaining ih =>
      intro base? binding levels session after h
      cases base? with
      | none =>
          obtain ⟨rfl, -⟩ := gives_pure.mp h
          trivial
      | some base =>
          obtain ⟨found?, middle, -, hrest⟩ := gives_bind.mp h
          cases found? with
          | none =>
              obtain ⟨rfl, -⟩ := gives_pure.mp hrest
              trivial
          | some decl =>
              obtain ⟨above, last, habove, hlevels⟩ := gives_bind.mp hrest
              obtain ⟨rfl, -⟩ := gives_pure.mp hlevels
              exact ⟨⟨base, rfl, rfl⟩, ih habove⟩

/-- **A chain is a climb**, whatever the source answers. -/
theorem chain_follows {options : Options} {decl : TypeDecl} {chain : Chain}
    {session after : Session σ} (h : Gives (Inspection.chain options decl) session chain after) :
    chain.root = decl ∧ chain.Follows := by
  obtain ⟨levels, middle, hlevels, hchain⟩ := gives_bind.mp h
  obtain ⟨rfl, -⟩ := gives_pure.mp hchain
  refine ⟨rfl, ?_⟩
  unfold ancestors at hlevels
  split at hlevels
  · exact climb_followsFrom hlevels
  · obtain ⟨rfl, -⟩ := gives_pure.mp hlevels
    trivial

end Inspection

end ApiSurface
