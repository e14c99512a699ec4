/-
How far a climb goes.

The base references above a type form a sequence: the base of the type, then the
base of the definition that this one leads to, and so on.  It ends with a
definition that has no base, or with a reference that leads nowhere, and cyclic
definitions make it go on for ever.  `Answers.reference?` is the reference at a
position of the sequence and `Answers.ancestor?` the definition it leads to.

A climb is allowed a number of references, and the one that leads nowhere counts.
If the sequence has more, the climb fails; if not, it gives back the definitions
in order, which no larger allowance changes.  Positions count from zero, so there
are more than `n` references exactly if there is one at position `n`.
-/
import ApiSurface.Proofs.FixedSource

namespace ApiSurface

namespace Answers

variable (answers : Answers)

/-- The definition that a base reference leads to. -/
def target? (base : Signature) : Option TypeDecl := base.typeName?.bind answers

/-- The reference at a position of the sequence that starts with the given base. -/
def reference? (base? : Option Signature) : Nat → Option Signature
  | 0 => base?
  | position + 1 =>
    (reference? base? position).bind fun base => (answers.target? base).bind TypeDecl.base?

/-- The definition that the reference at a position leads to. -/
def ancestor? (base? : Option Signature) (position : Nat) : Option TypeDecl :=
  (answers.reference? base? position).bind answers.target?

variable {answers}

/-! ### The sequence of base references -/

theorem reference?_succ (base? : Option Signature) (position : Nat) :
    answers.reference? base? (position + 1)
      = (answers.ancestor? base? position).bind TypeDecl.base? := by
  rw [reference?, ancestor?, Option.bind_assoc]

theorem reference?_none (position : Nat) : answers.reference? none position = none := by
  induction position with
  | zero => rfl
  | succ position ih => rw [reference?, ih, Option.bind_none]

/-- Behind its first reference the sequence is that of the definition it leads to. -/
theorem reference?_some_succ (base : Signature) (position : Nat) :
    answers.reference? (some base) (position + 1)
      = answers.reference? ((answers.target? base).bind TypeDecl.base?) position := by
  induction position with
  | zero => rfl
  | succ position ih => rw [reference?, ih, reference?]

theorem ancestor?_some_succ (base : Signature) (position : Nat) :
    answers.ancestor? (some base) (position + 1)
      = answers.ancestor? ((answers.target? base).bind TypeDecl.base?) position := by
  rw [ancestor?, ancestor?, reference?_some_succ]

/-- The sequence has no gaps. -/
theorem isSome_reference?_of_le {base? : Option Signature} {position later : Nat}
    (hle : position ≤ later) (h : (answers.reference? base? later).isSome) :
    (answers.reference? base? position).isSome := by
  induction later with
  | zero => rwa [Nat.le_zero.mp hle]
  | succ later ih =>
      rcases Nat.le_succ_iff.mp hle with hle' | rfl
      · refine ih hle' ?_
        obtain ⟨base, hbase⟩ := Option.isSome_iff_exists.mp h
        obtain ⟨previous, hprevious, -⟩ := Option.bind_eq_some_iff.mp hbase
        rw [hprevious]
        rfl
      · exact h

/-- From equal references on, the sequence goes on alike. -/
theorem reference?_add_eq {base? : Option Signature} {i j : Nat}
    (h : answers.reference? base? i = answers.reference? base? j) (steps : Nat) :
    answers.reference? base? (i + steps) = answers.reference? base? (j + steps) := by
  induction steps with
  | zero => exact h
  | succ steps ih => rw [← Nat.add_assoc, ← Nat.add_assoc, reference?, reference?, ih]

/-- **A sequence that comes back to a reference does not end.** -/
theorem isSome_reference?_of_repeated {base? : Option Signature} {i j : Nat} (hlt : i < j)
    (h : answers.reference? base? i = answers.reference? base? j)
    (hsome : (answers.reference? base? j).isSome) (position : Nat) :
    (answers.reference? base? position).isSome := by
  -- With each round through the cycle the sequence is known to go on for one more reference.
  have hround : ∀ rounds, (answers.reference? base? (j + rounds)).isSome := by
    intro rounds
    induction rounds with
    | zero => exact hsome
    | succ rounds ih =>
        rw [← reference?_add_eq h (rounds + 1)]
        exact isSome_reference?_of_le (by omega) ih
  exact isSome_reference?_of_le (Nat.le_add_left position j) (hround position)

/-- A definition that comes up twice has a base, and that comes up twice as well. -/
theorem isSome_reference?_of_cyclic {base? : Option Signature} {i j : Nat} (hlt : i < j)
    {decl : TypeDecl} (hi : answers.ancestor? base? i = some decl)
    (hj : answers.ancestor? base? j = some decl) (position : Nat) :
    (answers.reference? base? position).isSome := by
  have hsome : (answers.reference? base? j).isSome := by
    obtain ⟨base, hbase, -⟩ := Option.bind_eq_some_iff.mp hj
    rw [hbase]
    rfl
  have hnext : answers.reference? base? (i + 1) = answers.reference? base? (j + 1) := by
    rw [reference?_succ, reference?_succ, hi, hj]
  refine isSome_reference?_of_repeated (Nat.succ_lt_succ hlt) hnext ?_ position
  rw [← hnext]
  exact isSome_reference?_of_le hlt hsome

/-! ### The climb along it -/

theorem climb_none (limit remaining : Nat) (binding : Binding) :
    answers.climb limit remaining none binding = .ok [] := by
  unfold climb
  rfl

/-- A reference that is followed takes one of the allowance, and the rest is left for the
definition it leads to. -/
theorem climb_some_succ (limit remaining : Nat) (base : Signature) (binding : Binding) :
    answers.climb limit (remaining + 1) (some base) binding
      = match answers.target? base with
        | none => .ok []
        | some decl => (answers.climb limit remaining decl.base? (Binding.through base binding)).map
            (⟨decl, Binding.through base binding⟩ :: ·) := by
  rw [climb, target?]
  cases base.typeName?.bind answers with
  | none => rfl
  | some decl =>
      cases answers.climb limit remaining decl.base? (Binding.through base binding) <;> rfl

theorem climb_eq_error_iff {limit : Nat} {error : Error} :
    ∀ (remaining : Nat) (base? : Option Signature) (binding : Binding),
      answers.climb limit remaining base? binding = .error error ↔
        (answers.reference? base? remaining).isSome ∧ error = .recursionLimit limit := by
  intro remaining
  induction remaining with
  | zero =>
      intro base? binding
      cases base? with
      | none => simp [climb, reference?]
      | some base => simp [climb, reference?, eq_comm]
  | succ remaining ih =>
      intro base? binding
      cases base? with
      | none => simp [climb_none, reference?_none]
      | some base =>
          rw [climb_some_succ, reference?_some_succ]
          cases answers.target? base with
          | none => simp [reference?_none]
          | some decl =>
              rw [Option.bind_some, ← ih decl.base? (Binding.through base binding)]
              show Except.map _ _ = _ ↔ _
              cases answers.climb limit remaining decl.base? (Binding.through base binding) with
              | error error' => exact Iff.rfl
              | ok above => simp [Except.map]

/-- The levels of a climb are the definitions of the sequence, in order. -/
theorem decl_of_climb {limit : Nat} :
    ∀ {remaining : Nat} {base? : Option Signature} {binding : Binding} {levels : List Level},
      answers.climb limit remaining base? binding = .ok levels →
        ∀ position, levels[position]?.map Level.decl = answers.ancestor? base? position := by
  intro remaining
  induction remaining with
  | zero =>
      intro base? binding levels h position
      cases base? with
      | none =>
          cases h
          rw [ancestor?, reference?_none]
          rfl
      | some base => cases h
  | succ remaining ih =>
      intro base? binding levels h position
      cases base? with
      | none =>
          cases h
          rw [ancestor?, reference?_none]
          rfl
      | some base =>
          rcases climb_some_eq_ok h with ⟨hnone, rfl⟩ | ⟨decl, above, hdecl, habove, rfl⟩
          · cases position with
            | zero => exact hnone.symm
            | succ position =>
                rw [ancestor?_some_succ, target?, hnone, Option.bind_none, ancestor?,
                  reference?_none]
                rfl
          · cases position with
            | zero => exact hdecl.symm
            | succ position =>
                rw [ancestor?_some_succ, target?, hdecl, Option.bind_some]
                exact ih habove position

/-- A larger allowance changes nothing about a climb that ends. -/
theorem climb_of_le {limit limit' : Nat} :
    ∀ {remaining remaining' : Nat} {base? : Option Signature} {binding : Binding}
      {levels : List Level}, remaining ≤ remaining' →
      answers.climb limit remaining base? binding = .ok levels →
        answers.climb limit' remaining' base? binding = .ok levels := by
  intro remaining
  induction remaining with
  | zero =>
      intro remaining' base? binding levels hle h
      cases base? with
      | none => rw [climb_none, ← h, climb_none]
      | some base => cases h
  | succ remaining ih =>
      intro remaining' base? binding levels hle h
      cases base? with
      | none => rw [climb_none, ← h, climb_none]
      | some base =>
          obtain ⟨rest, rfl⟩ := Nat.exists_eq_add_of_le' (Nat.le_trans (Nat.le_add_left 1 _) hle)
          rw [climb_some_succ, target?]
          rcases climb_some_eq_ok h with ⟨hnone, rfl⟩ | ⟨decl, above, hdecl, habove, rfl⟩
          · rw [hnone]
          · rw [hdecl]
            simp only [ih (Nat.le_of_succ_le_succ hle) habove]
            rfl

theorem ancestors_of_inherited {options : Options} (hinherited : options.includeInherited = true)
    (decl : TypeDecl) :
    answers.ancestors options decl
      = answers.climb options.maxDepth options.maxDepth decl.base? .empty :=
  if_pos hinherited

/-- A chain is not there exactly if the sequence is longer than allowed. -/
theorem chain_eq_error_iff {options : Options} (hinherited : options.includeInherited = true)
    {decl : TypeDecl} {error : Error} :
    answers.chain options decl = .error error ↔
      (answers.reference? decl.base? options.maxDepth).isSome
        ∧ error = .recursionLimit options.maxDepth := by
  rw [← climb_eq_error_iff _ _ .empty, ← ancestors_of_inherited hinherited, Answers.chain]
  cases answers.ancestors options decl with
  | error error' =>
      show Except.error error' = _ ↔ _
      rw [Except.error.injEq, Except.error.injEq]
  | ok levels => exact iff_of_false (fun h => by cases h) (fun h => by cases h)

/-- A chain that is there is the same with a larger allowance. -/
theorem chain_of_le {options : Options} {decl : TypeDecl} {chain : Chain}
    (h : answers.chain options decl = .ok chain) {maxDepth : Nat}
    (hle : options.maxDepth ≤ maxDepth) :
    answers.chain { options with maxDepth } decl = .ok chain := by
  obtain ⟨rfl, hancestors⟩ := chain_eq_ok h
  have hlarger : answers.ancestors { options with maxDepth } chain.root = .ok chain.ancestors := by
    unfold ancestors at hancestors ⊢
    split at hancestors
    · rename_i hinherited
      rw [if_pos hinherited]
      exact climb_of_le hle hancestors
    · rename_i halone
      rw [if_neg halone]
      exact hancestors
  rw [Answers.chain, hlarger]
  rfl

end Answers

open Inquiry in
/--
**A climb is bounded and exact.**  Let a source give fixed answers.  The chain of a type fails with
the limit exactly if its sequence of base references has more of them than are allowed, and a
sequence in which a definition comes up twice has more than any number.  Otherwise the chain is
there, and its ancestors are the definitions that the references lead to, in order and to the last
one.  A chain that is there is the same with every larger allowance.
-/
theorem chain_bounded_exact {σ : Type} [Source σ] {states : σ → Prop} {answers : Answers}
    (hfixed : Source.Fixed states answers) (root : TypeDecl) {options : Options}
    (hinherited : options.includeInherited = true) {session : Session σ}
    (hsession : states session.source) :
    ((Inspection.chain options root).result session
        = .error (.recursionLimit options.maxDepth) ↔
      (answers.reference? root.base? options.maxDepth).isSome) ∧
    (∀ i j decl, i < j → answers.ancestor? root.base? i = some decl →
      answers.ancestor? root.base? j = some decl →
        (Inspection.chain options root).result session
          = .error (.recursionLimit options.maxDepth)) ∧
    (answers.reference? root.base? options.maxDepth = none →
      ∃ chain after, Gives (Inspection.chain options root) session chain after
        ∧ chain.root = root ∧ chain.Follows
        ∧ ∀ position, chain.ancestors[position]?.map Level.decl
            = answers.ancestor? root.base? position) ∧
    ∀ chain, (Inspection.chain options root).result session = .ok chain →
      ∀ maxDepth, options.maxDepth ≤ maxDepth → ∀ session', states session'.source →
        (Inspection.chain { options with maxDepth } root).result session' = .ok chain := by
  have hresult : ∀ options' : Options, ∀ session', states session'.source →
      (Inspection.chain options' root).result session' = answers.chain options' root :=
    fun options' _ hsession' => (Inspection.settles_chain hfixed options' root).result_eq hsession'
  have hfails : answers.chain options root = .error (.recursionLimit options.maxDepth) ↔
      (answers.reference? root.base? options.maxDepth).isSome :=
    (Answers.chain_eq_error_iff hinherited).trans (and_iff_left rfl)
  rw [hresult options session hsession]
  refine ⟨hfails, ?_, ?_, ?_⟩
  · intro i j decl hlt hi hj
    exact hfails.mpr (Answers.isSome_reference?_of_cyclic hlt hi hj options.maxDepth)
  · intro hends
    cases hchain : answers.chain options root with
    | error error =>
        obtain ⟨hlonger, -⟩ := (Answers.chain_eq_error_iff hinherited).mp hchain
        rw [hends] at hlonger
        exact absurd hlonger (by simp)
    | ok chain =>
        obtain ⟨after, hgives⟩ :=
          ((Inspection.settles_chain hfixed options root).gives_iff hsession).mpr hchain
        obtain ⟨hroot, hfollows⟩ := Inspection.chain_follows hgives
        have hclimb := (Answers.chain_eq_ok hchain).2
        rw [Answers.ancestors_of_inherited hinherited] at hclimb
        exact ⟨chain, after, hgives, hroot, hfollows, Answers.decl_of_climb hclimb⟩
  · intro chain hchain maxDepth hle session' hsession'
    rw [hresult _ session' hsession']
    exact Answers.chain_of_le hchain hle

/-! ### Two chains of definitions -/

/-- The class `name`, derived from the class `base`. -/
def derivedDecl (name base : String) : TypeDecl :=
  { TypeDecl.bare (.top "Game" name none) with
    base? := some (.named (.top "Game" base none)) }

/-- `Knight : Hero` and `Hero : Being`, of which `Being` is not at hand.  Its reference counts, so
two are needed and enough.  `Egg : Hen` and `Hen : Egg` are more than any number. -/
theorem chain_bounded_exact_knight :
    let knight := derivedDecl "Knight" "Hero"
    let hero := derivedDecl "Hero" "Being"
    let egg := derivedDecl "Egg" "Hen"
    let hen := derivedDecl "Hen" "Egg"
    let session : Session Shelf := ⟨⟨[knight, hero, egg, hen]⟩, []⟩
    let options (maxDepth : Nat) : Options := { Options.publicApi with maxDepth }
    (Inspection.chain (options 1) knight).result session = .error (.recursionLimit 1)
      ∧ (∀ maxDepth, 2 ≤ maxDepth → (Inspection.chain (options maxDepth) knight).result session
        = .ok ⟨knight, [⟨hero, .empty⟩]⟩)
      ∧ ∀ maxDepth, (Inspection.chain (options maxDepth) egg).result session
        = .error (.recursionLimit maxDepth) := by
  intro knight hero egg hen session options
  have hfixed := Shelf.fixed session.source
  have hexact (root : TypeDecl) (maxDepth : Nat) :=
    @chain_bounded_exact Shelf _ _ _ hfixed root (options maxDepth) rfl session rfl
  refine ⟨(hexact knight 1).1.mpr rfl, fun maxDepth hle => ?_, fun maxDepth => ?_⟩
  · exact (hexact knight 2).2.2.2 ⟨knight, [⟨hero, .empty⟩]⟩ rfl maxDepth hle session rfl
  · exact (hexact egg maxDepth).2.1 0 2 hen (by decide) rfl rfl

end ApiSurface
