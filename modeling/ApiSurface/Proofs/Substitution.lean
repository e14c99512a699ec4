/-
Arguments that flow through a chain of base references.

A level of a chain is seen through one binding, made from the base reference that
led to it and the binding below.  Read step by step, a reference of the topmost
level is first rewritten by the arguments of the last base reference, the result
by those of the one before, and so on down to the root.  `Binding.apply_along`
says that the one binding does all of these steps at once.

What carries it is the substitution lemma `Signature.fill_map_fill`.  It needs
every parameter of the reference to have an argument: one without would stay open
under the composed binding, and the next step down would bind it.
-/
import ApiSurface.Signature.Substitution
import Mathlib.Data.List.Chain
import Mathlib.Data.List.Induction

namespace ApiSurface

namespace Signature

/-! ### The open parameters of a reference -/

mutual

/-- The open generic parameters of an owner, from left to right. -/
def parametersOf (owner : ParameterOwner) : Signature → List (Nat × String)
  | parameter o index name => if o = owner then [(index, name)] else []
  | instantiation base args => base.parametersOf owner ++ allParametersOf owner args
  | array element _ => element.parametersOf owner
  | byRef element => element.parametersOf owner
  | pointer element => element.parametersOf owner
  | primitive _ => []
  | named _ => []

/-- The open generic parameters of an owner in a list of references. -/
def allParametersOf (owner : ParameterOwner) : List Signature → List (Nat × String)
  | [] => []
  | sig :: rest => sig.parametersOf owner ++ allParametersOf owner rest

end

@[simp] theorem allParametersOf_eq_flatMap (owner : ParameterOwner) (sigs : List Signature) :
    allParametersOf owner sigs = sigs.flatMap (parametersOf owner) := by
  induction sigs with
  | nil => rfl
  | cons sig rest ih => rw [allParametersOf, ih, List.flatMap_cons]

/-- A reference mentions an owner's parameters if it has any. -/
theorem mentions_eq_false_iff {owner : ParameterOwner} {sig : Signature} :
    sig.mentions owner = false ↔ sig.parametersOf owner = [] := by
  induction sig using Signature.induction with
  | primitive kind => simp [mentions, parametersOf]
  | named name => simp [mentions, parametersOf]
  | instantiation base args ihbase ihargs =>
      simp only [mentions, parametersOf, anyMentions_eq_any, allParametersOf_eq_flatMap,
        Bool.or_eq_false_iff, List.append_eq_nil_iff, List.any_eq_false, Bool.not_eq_true,
        List.flatMap_eq_nil_iff, ihbase]
      exact and_congr_right fun _ => forall₂_congr ihargs
  | array element rank ih => simpa [mentions, parametersOf] using ih
  | byRef element ih => simpa [mentions, parametersOf] using ih
  | pointer element ih => simpa [mentions, parametersOf] using ih
  | parameter o index name => by_cases h : o = owner <;> simp [mentions, parametersOf, h]

/-- Every type-level parameter of the reference stands at a position below `n`. -/
def OpenBelow (n : Nat) (sig : Signature) : Prop := ∀ p ∈ sig.parametersOf .type, p.1 < n

instance (n : Nat) (sig : Signature) : Decidable (sig.OpenBelow n) :=
  inferInstanceAs (Decidable (∀ p ∈ sig.parametersOf .type, p.1 < n))

theorem openBelow_zero_iff {sig : Signature} : sig.OpenBelow 0 ↔ sig.parametersOf .type = [] := by
  constructor
  · intro h
    exact List.eq_nil_iff_forall_not_mem.mpr fun p hp => Nat.not_lt_zero p.1 (h p hp)
  · intro h p hp
    rw [h] at hp
    exact absurd hp List.not_mem_nil

theorem openBelow_instantiation {n : Nat} {base : Signature} {args : List Signature} :
    (instantiation base args).OpenBelow n ↔
      base.OpenBelow n ∧ ∀ arg ∈ args, arg.OpenBelow n := by
  simp only [OpenBelow, parametersOf, allParametersOf_eq_flatMap, List.mem_append,
    List.mem_flatMap]
  constructor
  · intro h
    exact ⟨fun p hp => h p (Or.inl hp), fun arg harg p hp => h p (Or.inr ⟨arg, harg, hp⟩)⟩
  · rintro ⟨hbase, hargs⟩ p (hp | ⟨arg, harg, hp⟩)
    · exact hbase p hp
    · exact hargs arg harg p hp

/-! ### Writing arguments in -/

/-- The reference with the arguments written in. -/
def fill (args : List Signature) (sig : Signature) : Signature := (sig.substitute args).1

section

variable (args : List Signature)

@[simp] theorem fill_primitive (kind : Primitive) :
    (primitive kind).fill args = primitive kind := rfl

@[simp] theorem fill_named (name : TypeName) : (named name).fill args = named name := rfl

@[simp] theorem fill_instantiation (base : Signature) (inner : List Signature) :
    (instantiation base inner).fill args
      = instantiation (base.fill args) (inner.map (fill args)) := by
  simp only [fill, substitute, substituteAll_eq]
  rfl

@[simp] theorem fill_array (element : Signature) (rank : Nat) :
    (array element rank).fill args = array (element.fill args) rank := rfl

@[simp] theorem fill_byRef (element : Signature) :
    (byRef element).fill args = byRef (element.fill args) := rfl

@[simp] theorem fill_pointer (element : Signature) :
    (pointer element).fill args = pointer (element.fill args) := rfl

@[simp] theorem fill_method (index : Nat) (name : String) :
    (parameter .method index name).fill args = parameter .method index name := rfl

@[simp] theorem fill_type (index : Nat) (name : String) :
    (parameter .type index name).fill args = args[index]?.getD (parameter .type index name) := by
  rw [fill, substitute]
  cases args[index]? with
  | none => rfl
  | some arg => rfl

end

/-- A reference none of whose parameters has an argument stays as it is. -/
theorem fill_of_unbound {args : List Signature} {sig : Signature}
    (h : ∀ p ∈ sig.parametersOf .type, args.length ≤ p.1) : sig.fill args = sig := by
  induction sig using Signature.induction with
  | primitive kind => rfl
  | named name => rfl
  | instantiation base inner ihbase ihinner =>
      simp only [parametersOf, allParametersOf_eq_flatMap, List.mem_append, List.mem_flatMap] at h
      have hbase : base.fill args = base := ihbase fun p hp => h p (Or.inl hp)
      have hinner : inner.map (fill args) = inner := by
        conv_rhs => rw [← List.map_id inner]
        exact List.map_congr_left fun arg harg =>
          ihinner arg harg fun p hp => h p (Or.inr ⟨arg, harg, hp⟩)
      rw [fill_instantiation, hbase, hinner]
  | array element rank ih => rw [fill_array, ih h]
  | byRef element ih => rw [fill_byRef, ih h]
  | pointer element ih => rw [fill_pointer, ih h]
  | parameter owner index name =>
      cases owner with
      | method => rfl
      | type =>
          have hindex : args.length ≤ index := h (index, name) (by simp [parametersOf])
          rw [fill_type, List.getElem?_eq_none hindex, Option.getD_none]

@[simp] theorem fill_nil (sig : Signature) : sig.fill [] = sig :=
  fill_of_unbound fun p _ => Nat.zero_le p.1

/-- **The substitution lemma.**  If every parameter has an argument, writing in rewritten arguments
is the same as rewriting the result of writing them in. -/
theorem fill_map_fill {args outer : List Signature} {sig : Signature}
    (h : sig.OpenBelow args.length) :
    sig.fill (args.map (fill outer)) = (sig.fill args).fill outer := by
  induction sig using Signature.induction with
  | primitive kind => rfl
  | named name => rfl
  | instantiation base inner ihbase ihinner =>
      obtain ⟨hbase, hinner⟩ := openBelow_instantiation.mp h
      simp only [fill_instantiation, ihbase hbase, List.map_map]
      congr 1
      exact List.map_congr_left fun arg harg => ihinner arg harg (hinner arg harg)
  | array element rank ih => rw [fill_array, ih h, fill_array, fill_array]
  | byRef element ih => rw [fill_byRef, ih h, fill_byRef, fill_byRef]
  | pointer element ih => rw [fill_pointer, ih h, fill_pointer, fill_pointer]
  | parameter owner index name =>
      cases owner with
      | method => rfl
      | type =>
          have hindex : index < args.length := h (index, name) (by simp [parametersOf])
          simp [hindex]

/-- The argument takes the place of a parameter that occurs in the reference. -/
def IsBound (args : List Signature) (sig arg : Signature) : Prop :=
  ∃ p ∈ sig.parametersOf .type, args[p.1]? = some arg

theorem isBound_instantiation {args : List Signature} {base : Signature} {inner : List Signature}
    {arg : Signature} :
    IsBound args (instantiation base inner) arg ↔
      IsBound args base arg ∨ ∃ sig ∈ inner, IsBound args sig arg := by
  simp only [IsBound, parametersOf, allParametersOf_eq_flatMap, List.mem_append, List.mem_flatMap]
  constructor
  · rintro ⟨p, hp | ⟨sig, hsig, hp⟩, harg⟩
    · exact Or.inl ⟨p, hp, harg⟩
    · exact Or.inr ⟨sig, hsig, p, hp, harg⟩
  · rintro (⟨p, hp, harg⟩ | ⟨sig, hsig, p, hp, harg⟩)
    · exact ⟨p, Or.inl hp, harg⟩
    · exact ⟨p, Or.inr ⟨sig, hsig, hp⟩, harg⟩

/-- The parameters of the result are those that had no argument and those of the arguments that
were written in. -/
theorem mem_parametersOf_fill_iff {args : List Signature} {owner : ParameterOwner}
    {sig : Signature} {p : Nat × String} :
    p ∈ (sig.fill args).parametersOf owner ↔
      (p ∈ sig.parametersOf owner ∧ (owner = .type → args.length ≤ p.1))
        ∨ ∃ arg, IsBound args sig arg ∧ p ∈ arg.parametersOf owner := by
  induction sig using Signature.induction with
  | primitive kind => simp [IsBound, parametersOf]
  | named name => simp [IsBound, parametersOf]
  | instantiation base inner ihbase ihinner =>
      simp only [fill_instantiation, parametersOf, allParametersOf_eq_flatMap, List.mem_append,
        List.mem_flatMap, List.mem_map, exists_exists_and_eq_and, isBound_instantiation, ihbase]
      constructor
      · rintro ((⟨hp, hout⟩ | ⟨arg, hbound, hp⟩) | ⟨sig, hsig, hp⟩)
        · exact Or.inl ⟨Or.inl hp, hout⟩
        · exact Or.inr ⟨arg, Or.inl hbound, hp⟩
        · rcases (ihinner sig hsig).mp hp with ⟨hopen, hout⟩ | ⟨arg, hbound, hp⟩
          · exact Or.inl ⟨Or.inr ⟨sig, hsig, hopen⟩, hout⟩
          · exact Or.inr ⟨arg, Or.inr ⟨sig, hsig, hbound⟩, hp⟩
      · rintro (⟨hp | ⟨sig, hsig, hp⟩, hout⟩ | ⟨arg, hbound | ⟨sig, hsig, hbound⟩, hp⟩)
        · exact Or.inl (Or.inl ⟨hp, hout⟩)
        · exact Or.inr ⟨sig, hsig, (ihinner sig hsig).mpr (Or.inl ⟨hp, hout⟩)⟩
        · exact Or.inl (Or.inr ⟨arg, hbound, hp⟩)
        · exact Or.inr ⟨sig, hsig, (ihinner sig hsig).mpr (Or.inr ⟨arg, hbound, hp⟩)⟩
  | array element rank ih => exact ih
  | byRef element ih => exact ih
  | pointer element ih => exact ih
  | parameter o index name =>
      cases o with
      | method =>
          have hunbound : ∀ arg, ¬IsBound args (parameter .method index name) arg := by
            rintro arg ⟨q, hq, -⟩
            exact absurd hq List.not_mem_nil
          cases owner with
          | method => simp [hunbound]
          | type => simp [hunbound, parametersOf]
      | type =>
          have hbound : ∀ arg, IsBound args (parameter .type index name) arg ↔
              args[index]? = some arg := by
            intro arg
            simp [IsBound, parametersOf]
          have hself : p ∈ (parameter .type index name).parametersOf owner →
              owner = .type ∧ p.1 = index := by
            cases owner with
            | method => exact fun hp => absurd hp List.not_mem_nil
            | type =>
                intro hp
                have hpeq : p = (index, name) := by simpa [parametersOf] using hp
                exact ⟨rfl, congrArg Prod.fst hpeq⟩
          simp only [fill_type, hbound]
          cases harg : args[index]? with
          | some arg =>
              have hindex : index < args.length := (List.getElem?_eq_some_iff.mp harg).1
              have hfilled : ¬(p ∈ (parameter .type index name).parametersOf owner
                  ∧ (owner = .type → args.length ≤ p.1)) := by
                rintro ⟨hp, hout⟩
                obtain ⟨howner, heq⟩ := hself hp
                have := hout howner
                omega
              simp [hfilled]
          | none =>
              have hindex : args.length ≤ index := List.getElem?_eq_none_iff.mp harg
              have hout : p ∈ (parameter .type index name).parametersOf owner →
                  args.length ≤ p.1 := fun hp => (hself hp).2 ▸ hindex
              simpa using fun hp _ => hout hp

/-- A parameter of the result is one of an argument, or one that had no argument. -/
theorem mem_parametersOf_fill {args : List Signature} {sig : Signature} {p : Nat × String}
    (hp : p ∈ (sig.fill args).parametersOf .type) :
    (∃ arg ∈ args, p ∈ arg.parametersOf .type)
      ∨ (p ∈ sig.parametersOf .type ∧ args.length ≤ p.1) := by
  rcases mem_parametersOf_fill_iff.mp hp with ⟨hopen, hout⟩ | ⟨arg, ⟨q, -, harg⟩, hp⟩
  · exact Or.inr ⟨hopen, hout rfl⟩
  · exact Or.inl ⟨arg, List.mem_of_getElem? harg, hp⟩

/-- Arguments that are open below `n` leave a reference open below `n`. -/
theorem OpenBelow.fill {args : List Signature} {sig : Signature} {n : Nat}
    (h : sig.OpenBelow args.length) (hargs : ∀ arg ∈ args, arg.OpenBelow n) :
    (sig.fill args).OpenBelow n := by
  intro p hp
  rcases mem_parametersOf_fill hp with ⟨arg, harg, hin⟩ | ⟨hopen, hout⟩
  · exact hargs arg harg p hin
  · exact absurd (h p hopen) (Nat.not_lt.mpr hout)

/-! ### Parameters of methods -/

/-- The method-level parameters of a reference stay, in their order; arguments may add more. -/
theorem method_parametersOf_fill (args : List Signature) (sig : Signature) :
    (sig.parametersOf .method).Sublist ((sig.fill args).parametersOf .method) := by
  induction sig using Signature.induction with
  | primitive kind => exact List.Sublist.refl _
  | named name => exact List.Sublist.refl _
  | instantiation base inner ihbase ihinner =>
      simp only [fill_instantiation, parametersOf, allParametersOf_eq_flatMap, List.flatMap_map]
      refine List.Sublist.append ihbase ?_
      clear ihbase
      induction inner with
      | nil => exact List.Sublist.refl _
      | cons arg rest ih =>
          rw [List.flatMap_cons, List.flatMap_cons]
          exact (ihinner arg List.mem_cons_self).append
            (ih fun arg' harg' => ihinner arg' (List.mem_cons_of_mem _ harg'))
  | array element rank ih => exact ih
  | byRef element ih => exact ih
  | pointer element ih => exact ih
  | parameter owner index name =>
      cases owner with
      | method => exact List.Sublist.refl _
      | type => exact List.nil_sublist _

/-- Arguments without method-level parameters add none. -/
theorem method_parametersOf_fill_eq {args : List Signature} {sig : Signature}
    (hargs : ∀ arg ∈ args, arg.parametersOf .method = []) :
    (sig.fill args).parametersOf .method = sig.parametersOf .method := by
  induction sig using Signature.induction with
  | primitive kind => rfl
  | named name => rfl
  | instantiation base inner ihbase ihinner =>
      simp only [fill_instantiation, parametersOf, allParametersOf_eq_flatMap, List.flatMap_map,
        ihbase]
      rw [List.flatMap_congr ihinner]
  | array element rank ih => exact ih
  | byRef element ih => exact ih
  | pointer element ih => exact ih
  | parameter owner index name =>
      cases owner with
      | method => rfl
      | type =>
          rw [fill_type]
          cases harg : args[index]? with
          | some arg => exact hargs arg (List.mem_of_getElem? harg)
          | none => rfl

/-- The arguments that a base reference passes: none unless it is an instantiation. -/
def arguments : Signature → List Signature
  | instantiation _ args => args
  | _ => []

end Signature

namespace Binding

open Signature

/-! ### The binding of a level -/

/-- The shortcut for the empty binding changes nothing. -/
theorem apply_eq_fill (binding : Binding) (sig : Signature) :
    binding.apply sig = sig.fill binding.args := by
  rw [apply, applyTracked]
  split
  · rename_i hempty
    rw [List.isEmpty_iff.mp hempty, fill_nil]
  · rfl

theorem through_args (base : Signature) (current : Binding) :
    (through base current).args = base.arguments.map current.apply := by
  cases base <;> rfl

/-- The binding that a chain of base references leads to, the root's first. -/
def along (bases : List Signature) : Binding :=
  bases.foldl (fun binding base => through base binding) empty

theorem along_append (bases : List Signature) (base : Signature) :
    along (bases ++ [base]) = through base (along bases) := by
  rw [along, List.foldl_append]
  rfl

/-- Each base reference of a chain passes only arguments that the one below it can bind. -/
def Linked (bases : List Signature) : Prop :=
  bases.IsChain fun nearer further =>
    ∀ arg ∈ further.arguments, arg.OpenBelow nearer.arguments.length

/-- Writing in the arguments of each base reference, the last one's first. -/
def stepwise (bases : List Signature) (sig : Signature) : Signature :=
  bases.foldr (fun base rewritten => rewritten.fill base.arguments) sig

theorem apply_along_eq_stepwise {bases : List Signature} (hbases : Linked bases) {sig : Signature}
    (hsig : ∀ last ∈ bases.getLast?, sig.OpenBelow last.arguments.length) :
    (along bases).apply sig = stepwise bases sig := by
  -- The last reference is the first to be written in, so the induction takes it off the end.
  induction bases using List.reverseRecOn generalizing sig with
  | nil => rfl
  | append_singleton bases base ih =>
      obtain ⟨hinit, -, hlast⟩ := List.isChain_append.mp hbases
      have hopen : sig.OpenBelow base.arguments.length := hsig base (by simp)
      have hfilled : ∀ last ∈ bases.getLast?,
          (sig.fill base.arguments).OpenBelow last.arguments.length := by
        intro last hmem
        exact hopen.fill (hlast last hmem base (by simp))
      calc (along (bases ++ [base])).apply sig
          = sig.fill (base.arguments.map (along bases).apply) := by
            rw [along_append, apply_eq_fill, through_args]
        _ = sig.fill (base.arguments.map (fill (along bases).args)) := by
            rw [funext (apply_eq_fill (along bases))]
        _ = (along bases).apply (sig.fill base.arguments) := by
            rw [fill_map_fill hopen, apply_eq_fill]
        _ = stepwise bases (sig.fill base.arguments) := ih hinit hfilled
        _ = stepwise (bases ++ [base]) sig := by
            rw [stepwise, stepwise, List.foldr_append]
            rfl

/-- If no base reference passes a method-level parameter, neither does the binding. -/
theorem method_parametersOf_along {bases : List Signature}
    (h : ∀ base ∈ bases, ∀ arg ∈ base.arguments, arg.parametersOf .method = []) :
    ∀ arg ∈ (along bases).args, arg.parametersOf .method = [] := by
  induction bases using List.reverseRecOn with
  | nil => intro arg harg; exact absurd harg List.not_mem_nil
  | append_singleton bases base ih =>
      intro arg harg
      rw [along_append, through_args, List.mem_map] at harg
      obtain ⟨passed, hpassed, rfl⟩ := harg
      rw [apply_eq_fill, method_parametersOf_fill_eq (ih fun b hb => h b (by simp [hb]))]
      exact h base (by simp) passed hpassed

/--
**Arguments flow through every level.**  The binding that a chain of base references leads to
rewrites a reference as the references do one after the other, from the last to the first.
Parameters of methods are never bound: they stay where they are, and only arguments can bring more
of them.
-/
theorem apply_along (bases : List Signature) (hbases : Linked bases) (sig : Signature)
    (hsig : ∀ last ∈ bases.getLast?, sig.OpenBelow last.arguments.length) :
    (along bases).apply sig = stepwise bases sig
      ∧ (∀ index name,
          (along bases).apply (.parameter .method index name) = .parameter .method index name)
      ∧ (sig.parametersOf .method).Sublist (((along bases).apply sig).parametersOf .method)
      ∧ ((∀ base ∈ bases, ∀ arg ∈ base.arguments, arg.parametersOf .method = []) →
          ((along bases).apply sig).parametersOf .method = sig.parametersOf .method) := by
  refine ⟨apply_along_eq_stepwise hbases hsig, ?_, ?_, ?_⟩
  · intro index name
    rw [apply_eq_fill, fill_method]
  · rw [apply_eq_fill]
    exact method_parametersOf_fill (along bases).args sig
  · intro hmethod
    rw [apply_eq_fill]
    exact method_parametersOf_fill_eq (method_parametersOf_along hmethod)

/-- The base references of `Ages : Table<int>`, where `Table<T> : Pairs<T[], List<T>>`. -/
def agesBases : List Signature :=
  [.instantiation (.inSpace "Game" "Table`1") [.primitive .int32],
    .instantiation (.inSpace "Game" "Pairs`2")
      [.vector (.parameter .type 0 "T"),
        .instantiation (.inSpace "Game" "List`1") [.parameter .type 0 "T"]]]

/-- Seen from `Ages`, the second parameter of `Pairs` is a list of integers. -/
theorem apply_along_ages :
    Linked agesBases
      ∧ (along agesBases).apply
          (.instantiation (.inSpace "Game" "Map`2")
            [.parameter .type 1 "V", .pointer (.parameter .method 0 "U")])
        = .instantiation (.inSpace "Game" "Map`2")
            [.instantiation (.inSpace "Game" "List`1") [.primitive .int32],
              .pointer (.parameter .method 0 "U")] := by
  have hlinked : Linked agesBases := by unfold Linked; decide
  refine ⟨hlinked, ?_⟩
  rw [(apply_along agesBases hlinked _ (by decide)).1]
  decide

end Binding

end ApiSurface
