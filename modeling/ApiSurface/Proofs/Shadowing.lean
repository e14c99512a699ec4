/-
Which members a chain shows.

`Chain.gather` climbs the levels with a list of keys and compares a member only
with the keys of members that earlier levels really gave.  The rule a reader has
in mind speaks of all members that could be listed, given or not: a member is
shown unless a level nearer to the root has an eligible one with the same key.
The two agree because a key that is dropped was already taken further down, so
dropping it takes nothing from the list.  The rule is stated over the root, the
ancestors and what they declare; `levels_eq_sources` and `candidates_eq_declared`
say that these are what is climbed.

The invariant of the climb is `Chain.Tracks`: before the level at a depth is
looked at, the list holds exactly the keys that some lower level makes eligible.
`Tracks.succ` is the step, `gather_eq_flatMap` the whole climb, and
`Chain.members_eq_unshadowed` reads the rule and its consequences off it.
-/
import ApiSurface.Chain
import Mathlib.Data.List.Basic

namespace ApiSurface

/-- What it takes for a member to be listed at a depth of a chain, other levels apart. -/
structure Member.Eligible (depth : Nat) (wantStatic : Bool) (member : Member) : Prop where
  shown : member.isHidden = false
  listed : member.isUnlisted = false
  static : member.isStatic = wantStatic
  inheritable : depth = 0 ∨ member.access ≠ .declarer

theorem Member.isEligible_iff {depth : Nat} {wantStatic : Bool} {member : Member} :
    member.isEligible depth wantStatic = true ↔ member.Eligible depth wantStatic := by
  constructor
  · intro h
    simp only [isEligible, Bool.and_eq_true, Bool.or_eq_true, Bool.not_eq_true',
      decide_eq_true_eq] at h
    obtain ⟨⟨⟨hshown, hlisted⟩, hstatic⟩, hinherit⟩ := h
    exact ⟨hshown, hlisted, hstatic, hinherit⟩
  · rintro ⟨hshown, hlisted, hstatic, hinherit⟩
    simp only [isEligible, Bool.and_eq_true, Bool.or_eq_true, Bool.not_eq_true',
      decide_eq_true_eq]
    exact ⟨⟨⟨hshown, hlisted⟩, hstatic⟩, hinherit⟩

instance (depth : Nat) (wantStatic : Bool) (member : Member) :
    Decidable (member.Eligible depth wantStatic) :=
  decidable_of_iff _ Member.isEligible_iff

/-- The members of a kind that the type of a level declares, in the order of their declaration,
each as a member of that type and through the binding of the level. -/
def Level.declared (level : Level) (kind : MemberKind) (ignorePrivate : Bool) : List Member :=
  let decl := level.decl
  let shown (method : MethodDecl) : Member :=
    .method (.of (.of decl) decl.isInterface level.binding ignorePrivate method)
  match kind with
  | .field => decl.fields.map fun field =>
    .field (.of (.of decl) level.binding ignorePrivate field)
  | .property => decl.properties.map fun property =>
    .property (.of decl (.of decl) level.binding ignorePrivate property)
  | .event => decl.events.map fun event =>
    .event (.of decl (.of decl) level.binding ignorePrivate event)
  | .method =>
    (decl.methods.filter fun method => !method.isConstructor && !method.isOperator).map shown
  | .constructor => (decl.methods.filter MethodDecl.isConstructor).map shown
  | .operator => (decl.methods.filter MethodDecl.isOperator).map shown

theorem Level.candidates_eq_declared (level : Level) (kind : MemberKind) (ignorePrivate : Bool) :
    level.candidates kind ignorePrivate = level.declared kind ignorePrivate := by
  cases kind <;>
    simp [candidates, declared, fields, properties, events, methods, List.filter_map,
      Function.comp_def, ShownMethod.of]

namespace Chain

variable (chain : Chain) (kind : MemberKind) (wantStatic ignorePrivate : Bool)

/-- The levels that can give members of a kind: the root, seen as it is declared, and then the
ancestors, but for constructors the root alone. -/
def sources : List Level :=
  if kind = .constructor then [⟨chain.root, .empty⟩]
  else ⟨chain.root, .empty⟩ :: chain.ancestors

/-- The eligible members of the level at a depth, in the order of their declaration. -/
def eligible (depth : Nat) : List Member :=
  match (chain.sources kind)[depth]? with
  | some level =>
    (level.declared kind ignorePrivate).filter fun member => member.Eligible depth wantStatic
  | none => []

/-- Some level below the depth has an eligible member with the key. -/
def TakenBelow (depth : Nat) (key : String) : Prop :=
  ∃ nearer < depth, ∃ member ∈ chain.eligible kind wantStatic ignorePrivate nearer,
    member.identityKey = key

instance (depth : Nat) (key : String) :
    Decidable (chain.TakenBelow kind wantStatic ignorePrivate depth key) :=
  Nat.decidableExistsLT depth

/-- The eligible members of a level whose key no level below has taken. -/
def unshadowed (depth : Nat) : List Member :=
  (chain.eligible kind wantStatic ignorePrivate depth).filter fun member =>
    ¬chain.TakenBelow kind wantStatic ignorePrivate depth member.identityKey

/-- The keys that the climb has seen before it comes to a depth are those taken below it. -/
def Tracks (depth : Nat) (seen : List String) : Prop :=
  ∀ key, key ∈ seen ↔ chain.TakenBelow kind wantStatic ignorePrivate depth key

variable {chain : Chain} {kind : MemberKind} {wantStatic ignorePrivate : Bool}

theorem mem_unshadowed {depth : Nat} {member : Member} :
    member ∈ chain.unshadowed kind wantStatic ignorePrivate depth ↔
      member ∈ chain.eligible kind wantStatic ignorePrivate depth ∧
        ¬chain.TakenBelow kind wantStatic ignorePrivate depth member.identityKey := by
  simp [unshadowed]

/-- What is climbed are the levels that can give members. -/
theorem levels_eq_sources (chain : Chain) (kind : MemberKind) :
    chain.levels kind = chain.sources kind := by
  cases kind <;> rfl

theorem eligible_of_level {depth : Nat} {level : Level}
    (hlevel : (chain.levels kind)[depth]? = some level) :
    chain.eligible kind wantStatic ignorePrivate depth
      = (level.candidates kind ignorePrivate).filter
          fun member => member.Eligible depth wantStatic := by
  rw [levels_eq_sources] at hlevel
  rw [eligible, hlevel, level.candidates_eq_declared]

/-- A level that has an eligible member is one of the levels that are climbed. -/
theorem lt_length_of_mem_eligible {depth : Nat} {member : Member}
    (h : member ∈ chain.eligible kind wantStatic ignorePrivate depth) :
    depth < (chain.levels kind).length := by
  rw [levels_eq_sources]
  by_contra hge
  have hnone : (chain.sources kind)[depth]? = none :=
    List.getElem?_eq_none (Nat.le_of_not_lt hge)
  rw [eligible, hnone] at h
  exact absurd h List.not_mem_nil

theorem takenBelow_succ {depth : Nat} {key : String} :
    chain.TakenBelow kind wantStatic ignorePrivate (depth + 1) key ↔
      chain.TakenBelow kind wantStatic ignorePrivate depth key ∨
        ∃ member ∈ chain.eligible kind wantStatic ignorePrivate depth,
          member.identityKey = key := by
  constructor
  · rintro ⟨nearer, hnearer, htaken⟩
    rcases Nat.lt_succ_iff_lt_or_eq.mp hnearer with hlt | rfl
    · exact Or.inl ⟨nearer, hlt, htaken⟩
    · exact Or.inr htaken
  · rintro (⟨nearer, hnearer, htaken⟩ | htaken)
    · exact ⟨nearer, Nat.lt_succ_of_lt hnearer, htaken⟩
    · exact ⟨depth, Nat.lt_succ_self depth, htaken⟩

/-! ### The climb

`gather` filters the candidates of a level once, by eligibility and by the keys
seen.  With keys that track the levels below, what it keeps is `unshadowed`.
-/

theorem Tracks.zero : chain.Tracks kind wantStatic ignorePrivate 0 [] := by
  intro key
  constructor
  · intro h
    exact absurd h List.not_mem_nil
  · rintro ⟨nearer, hnearer, -⟩
    exact absurd hnearer (Nat.not_lt_zero nearer)

theorem Tracks.kept_eq {depth : Nat} {seen : List String} {level : Level}
    (h : chain.Tracks kind wantStatic ignorePrivate depth seen)
    (hlevel : (chain.levels kind)[depth]? = some level) :
    ((level.candidates kind ignorePrivate).filter fun member =>
        member.isEligible depth wantStatic && !seen.contains member.identityKey)
      = chain.unshadowed kind wantStatic ignorePrivate depth := by
  rw [unshadowed, eligible_of_level hlevel, List.filter_filter]
  refine List.filter_congr fun member _ => ?_
  have hseen : seen.contains member.identityKey
      = decide (chain.TakenBelow kind wantStatic ignorePrivate depth member.identityKey) := by
    rw [List.contains_eq_mem]
    exact decide_eq_decide.mpr (h member.identityKey)
  have helig : member.isEligible depth wantStatic
      = decide (member.Eligible depth wantStatic) := by
    rw [Bool.eq_iff_iff, Member.isEligible_iff, decide_eq_true_eq]
  rw [hseen, helig, Bool.and_comm, decide_not]

/-- **One level keeps the keys right.**  A key that the level offers and that is dropped was taken
below, so the keys of the kept members are all that has to be added. -/
theorem Tracks.succ {depth : Nat} {seen : List String}
    (h : chain.Tracks kind wantStatic ignorePrivate depth seen) :
    chain.Tracks kind wantStatic ignorePrivate (depth + 1)
      (seen ++ (chain.unshadowed kind wantStatic ignorePrivate depth).map
        Member.identityKey) := by
  intro key
  rw [List.mem_append, takenBelow_succ, h key, List.mem_map]
  constructor
  · rintro (htaken | ⟨member, hmember, rfl⟩)
    · exact Or.inl htaken
    · exact Or.inr ⟨member, (mem_unshadowed.mp hmember).1, rfl⟩
  · rintro (htaken | ⟨member, hmember, rfl⟩)
    · exact Or.inl htaken
    · by_cases htaken :
          chain.TakenBelow kind wantStatic ignorePrivate depth member.identityKey
      · exact Or.inl htaken
      · exact Or.inr ⟨member, mem_unshadowed.mpr ⟨hmember, htaken⟩, rfl⟩

/-- What is gathered from a depth on is what each level from there on leaves unshadowed. -/
theorem gather_eq_flatMap :
    ∀ (rest : List Level) (depth : Nat) (seen : List String),
      (chain.levels kind).drop depth = rest →
      chain.Tracks kind wantStatic ignorePrivate depth seen →
      gather kind wantStatic ignorePrivate depth seen rest
        = (List.range' depth rest.length).flatMap
            (chain.unshadowed kind wantStatic ignorePrivate) := by
  intro rest
  induction rest with
  | nil => intro depth seen _ _; rfl
  | cons level above ih =>
      intro depth seen hdrop htracks
      have hlevel : (chain.levels kind)[depth]? = some level := by
        have hhead : ((chain.levels kind).drop depth)[0]? = some level := by rw [hdrop]; rfl
        rwa [List.getElem?_drop, Nat.add_zero] at hhead
      have habove : (chain.levels kind).drop (depth + 1) = above := by
        rw [← List.drop_drop, hdrop]
        rfl
      rw [gather, htracks.kept_eq hlevel, ih (depth + 1) _ habove htracks.succ,
        List.length_cons, List.range'_succ, List.flatMap_cons]

theorem members_eq_flatMap (chain : Chain) (kind : MemberKind) (wantStatic ignorePrivate : Bool) :
    chain.members kind wantStatic ignorePrivate
      = (List.range (chain.levels kind).length).flatMap
          (chain.unshadowed kind wantStatic ignorePrivate) := by
  rw [members, gather_eq_flatMap _ 0 [] List.drop_zero Tracks.zero, List.range_eq_range']

/-! ### The members with one key -/

/-- Of the members with one key a level gives all it has, or none if the key is taken below. -/
theorem unshadowed_filter (depth : Nat) (key : String) :
    (chain.unshadowed kind wantStatic ignorePrivate depth).filter (·.identityKey = key)
      = if chain.TakenBelow kind wantStatic ignorePrivate depth key then []
        else (chain.eligible kind wantStatic ignorePrivate depth).filter
          (·.identityKey = key) := by
  rw [unshadowed, List.filter_filter]
  split
  · rename_i htaken
    rw [List.filter_eq_nil_iff]
    intro member _ hmember
    simp only [Bool.and_eq_true, decide_eq_true_eq] at hmember
    exact hmember.2 (hmember.1 ▸ htaken)
  · rename_i hfree
    refine List.filter_congr fun member _ => ?_
    by_cases hkey : member.identityKey = key
    · simp [hkey, hfree]
    · simp [hkey]

/-- A list of levels that are all empty but one is that one. -/
private theorem flatMap_range_single {α : Type} {f : Nat → List α} {depth : Nat} :
    ∀ {n : Nat}, depth < n → (∀ d, d ≠ depth → f d = []) → (List.range n).flatMap f = f depth := by
  intro n
  induction n with
  | zero => intro hlt _; exact absurd hlt (Nat.not_lt_zero depth)
  | succ n ih =>
      intro hlt hempty
      rw [List.range_succ, List.flatMap_append, List.flatMap_singleton]
      rcases Nat.lt_succ_iff_lt_or_eq.mp hlt with hlt' | rfl
      · rw [ih hlt' hempty, hempty n (Nat.ne_of_gt hlt'), List.append_nil]
      · have hbelow : (List.range depth).flatMap f = [] :=
          List.flatMap_eq_nil_iff.mpr fun d hd =>
            hempty d (Nat.ne_of_lt (List.mem_range.mp hd))
        rw [hbelow, List.nil_append]

/-- The members with a key are the eligible ones of the first level that has any. -/
theorem members_filter {depth : Nat} {key : String}
    (hkey : ∃ member ∈ chain.eligible kind wantStatic ignorePrivate depth,
      member.identityKey = key)
    (hfree : ¬chain.TakenBelow kind wantStatic ignorePrivate depth key) :
    (chain.members kind wantStatic ignorePrivate).filter (·.identityKey = key)
      = (chain.eligible kind wantStatic ignorePrivate depth).filter (·.identityKey = key) := by
  obtain ⟨member, hmember, hmemberKey⟩ := hkey
  rw [members_eq_flatMap, List.filter_flatMap,
    flatMap_range_single (lt_length_of_mem_eligible hmember) ?_]
  · rw [unshadowed_filter, if_neg hfree]
  · intro d hne
    rw [unshadowed_filter]
    split
    · rfl
    · rename_i hfree'
      rw [List.filter_eq_nil_iff]
      intro other hother hotherKey
      -- A key that is free below `d` and below `depth` cannot be offered by both levels.
      rcases Nat.lt_or_gt_of_ne hne with hlt | hgt
      · exact hfree ⟨d, hlt, other, hother, of_decide_eq_true hotherKey⟩
      · exact hfree' ⟨depth, hgt, member, hmember, hmemberKey⟩

/-- Every key that some level makes eligible has a first level that does. -/
theorem exists_first {depth : Nat} {key : String}
    (hkey : ∃ member ∈ chain.eligible kind wantStatic ignorePrivate depth,
      member.identityKey = key) :
    ∃ first ≤ depth, (∃ member ∈ chain.eligible kind wantStatic ignorePrivate first,
      member.identityKey = key) ∧
        ¬chain.TakenBelow kind wantStatic ignorePrivate first key := by
  induction depth using Nat.strongRecOn with
  | ind depth ih =>
      by_cases htaken : chain.TakenBelow kind wantStatic ignorePrivate depth key
      · obtain ⟨nearer, hnearer, hkey'⟩ := htaken
        obtain ⟨first, hfirst, hrest⟩ := ih nearer hnearer hkey'
        exact ⟨first, Nat.le_of_lt (Nat.lt_of_le_of_lt hfirst hnearer), hrest⟩
      · exact ⟨depth, Nat.le_refl depth, hkey, htaken⟩

end Chain

end ApiSurface
