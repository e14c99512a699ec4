/-
Types on top of their bases in the public view.

A chain numbers its levels from the type that is inspected, and a private member
counts at the root only.  So a type and its base number the same levels
differently, and in general the members of a type are not those of its base with
its own put before them.  In the public view they are: what is shown can be seen
outside the assembly, whatever the depth, and of the numbers nothing is left.

`Chain.gather_filter` compares two climbs over the same levels, one of which has
more keys taken from the start.  It gives what the other one gives, less the
members with these keys, because what they keep out of it further up is taken from
it by themselves.
-/
import ApiSurface.Proofs.ClimbLimit
import ApiSurface.Proofs.ClosedView

namespace ApiSurface

/-! ### What is shown can be seen -/

theorem TypeDecl.isHidden_of_shownAccessor {decl : TypeDecl} {owner : ShownOwner}
    {binding : Binding} {ignorePrivate : Bool} {index? : Option Nat} {method : ShownMethod}
    (h : decl.shownAccessor owner binding ignorePrivate index? = some method) :
    method.isHidden = method.access.isHidden ignorePrivate := by
  obtain ⟨_, -, rfl⟩ := Option.map_eq_some_iff.mp h
  rfl

/-- The accessor that speaks for a property is one of the two, and it is not hidden. -/
theorem ShownProperty.primary?_spec {property : ShownProperty} {method : ShownMethod}
    (h : property.primary? = some method) :
    (property.getter? = some method ∨ property.setter? = some method)
      ∧ method.isHidden = false := by
  have hgetter : property.visibleGetter? = some method →
      property.getter? = some method ∧ method.isHidden = false := by
    intro hvisible
    simpa [visibleGetter?, Option.filter_eq_some_iff] using hvisible
  have hsetter : property.visibleSetter? = some method →
      property.setter? = some method ∧ method.isHidden = false := by
    intro hvisible
    simpa [visibleSetter?, Option.filter_eq_some_iff] using hvisible
  have hvisible : property.visibleGetter? = some method ∨ property.visibleSetter? = some method := by
    unfold primary? at h
    split at h
    · rename_i hget hset
      split at h
      · exact Or.inr (hset.trans h)
      · exact Or.inl (hget.trans h)
    · rename_i hget _
      exact Or.inl (hget.trans h)
    · exact Or.inr h
  rcases hvisible with hvisible | hvisible
  · exact ⟨Or.inl (hgetter hvisible).1, (hgetter hvisible).2⟩
  · exact ⟨Or.inr (hsetter hvisible).1, (hsetter hvisible).2⟩

/-- The adder speaks for an event that is shown, and it is not hidden. -/
theorem ShownEvent.exists_adder {event : ShownEvent} (h : event.isHidden = false) :
    ∃ method, event.adder? = some method ∧ method.isHidden = false := by
  unfold isHidden isComplete at h
  cases hadder : event.adder? with
  | none => simp [hadder] at h
  | some method =>
      simp only [hadder, Option.any_some, Bool.or_eq_false_iff] at h
      exact ⟨method, rfl, h.2⟩

/-- **A member that is shown has an access that is shown.** -/
theorem Level.access_of_shown {level : Level} {kind : MemberKind} {ignorePrivate : Bool}
    {member : Member} (h : member ∈ level.candidates kind ignorePrivate)
    (hshown : member.isHidden = false) : member.access.isHidden ignorePrivate = false := by
  obtain ⟨constraints, hdeclares⟩ := Level.exists_declares h
  cases hdeclares with
  | field hdecl => exact hshown
  | method hdecl => exact hshown
  | property hdecl =>
      obtain ⟨primary, hprimary⟩ :=
        Option.isSome_iff_exists.mp (Option.isNone_eq_false_iff.mp hshown)
      obtain ⟨haccessor, hvisible⟩ := ShownProperty.primary?_spec hprimary
      have haccess : primary.isHidden = primary.access.isHidden ignorePrivate :=
        haccessor.elim TypeDecl.isHidden_of_shownAccessor TypeDecl.isHidden_of_shownAccessor
      rw [Member.access, ShownProperty.access, hprimary, ← hvisible, haccess]
      rfl
  | event hdecl =>
      obtain ⟨adder, hadder, hvisible⟩ := ShownEvent.exists_adder hshown
      rw [Member.access, ShownEvent.access, hadder, ← hvisible,
        TypeDecl.isHidden_of_shownAccessor hadder]
      rfl

/-- In the public view the depth of a level says nothing about its members. -/
theorem Level.isEligible_eq_of_public {level : Level} {kind : MemberKind} {member : Member}
    (h : member ∈ level.candidates kind true) (depth depth' : Nat) (wantStatic : Bool) :
    member.isEligible depth wantStatic = member.isEligible depth' wantStatic := by
  unfold Member.isEligible
  cases hhidden : member.isHidden with
  | true => rfl
  | false =>
      have haccess : member.access ≠ .declarer := by
        intro hprivate
        have hshown := access_of_shown h hhidden
        rw [hprivate] at hshown
        exact absurd hshown (by decide)
      simp only [haccess, ne_eq, not_false_eq_true, decide_true, Bool.or_true]

/-! ### Two climbs over the same levels -/

namespace Chain

variable {kind : MemberKind} {wantStatic : Bool}

/-- One level under two lists of keys, of which the first has more taken. -/
theorem kept_filter (level : Level) (depth depth' : Nat) {seen seen' taken : List String}
    (hseen : ∀ key, key ∈ seen ↔ key ∈ taken ∨ key ∈ seen') :
    ((level.candidates kind true).filter fun member =>
        member.isEligible depth wantStatic && !seen.contains member.identityKey)
      = ((level.candidates kind true).filter fun member =>
          member.isEligible depth' wantStatic && !seen'.contains member.identityKey).filter
            fun member => member.identityKey ∉ taken := by
  rw [List.filter_filter]
  refine List.filter_congr fun member hmember => ?_
  rw [Level.isEligible_eq_of_public hmember depth depth']
  have hkey : seen.contains member.identityKey
      = (decide (member.identityKey ∈ taken) || seen'.contains member.identityKey) := by
    simp only [List.contains_eq_mem, hseen, Bool.decide_or]
  rw [hkey, Bool.not_or, decide_not, ← Bool.and_assoc, Bool.and_comm (member.isEligible _ _),
    Bool.and_assoc]

/-- **Keys that are taken from the start take the members with these keys, and no others.** -/
theorem gather_filter {taken : List String} :
    ∀ (levels : List Level) (depth depth' : Nat) (seen seen' : List String),
      (∀ key, key ∈ seen ↔ key ∈ taken ∨ key ∈ seen') →
      gather kind wantStatic true depth seen levels
        = (gather kind wantStatic true depth' seen' levels).filter
            fun member => member.identityKey ∉ taken := by
  intro levels
  induction levels with
  | nil => intro depth depth' seen seen' _; rfl
  | cons level above ih =>
      intro depth depth' seen seen' hseen
      rw [gather, gather, List.filter_append, kept_filter level depth depth' hseen]
      congr 1
      refine ih (depth + 1) (depth' + 1) _ _ fun key => ?_
      rw [List.mem_append, List.mem_append, hseen key, or_assoc]
      by_cases htaken : key ∈ taken
      · exact iff_of_true (Or.inl htaken) (Or.inl htaken)
      · refine or_congr_right (or_congr_right ?_)
        -- A key that is not taken is given by the same members in both climbs.
        rw [List.mem_map, List.mem_map]
        refine exists_congr fun member => and_congr_left fun hkey => ?_
        rw [List.mem_filter, hkey, decide_eq_true htaken, and_iff_left rfl]

/-- A chain whose first ancestor is seen as it is declared lists the members of the root and then
those of the ancestor that have other keys. -/
theorem members_on_top (root base : TypeDecl) (above : List Level) (hkind : kind ≠ .constructor) :
    let own := (⟨root, []⟩ : Chain).members kind wantStatic true
    (⟨root, ⟨base, .empty⟩ :: above⟩ : Chain).members kind wantStatic true
      = own ++ ((⟨base, above⟩ : Chain).members kind wantStatic true).filter
          fun member => member.identityKey ∉ own.map Member.identityKey := by
  intro own
  have hinherited : kind.isInherited = true := decide_eq_true hkind
  have hown : own = ((⟨root, .empty⟩ : Level).candidates kind true).filter fun member =>
      member.isEligible 0 wantStatic && !([] : List String).contains member.identityKey := by
    show gather kind wantStatic true 0 [] (levels ⟨root, []⟩ kind) = _
    rw [levels, if_pos hinherited, gather, gather, List.append_nil]
  rw [members, levels, if_pos hinherited, gather, ← hown, List.nil_append]
  congr 1
  rw [members, levels, if_pos hinherited]
  exact gather_filter _ 1 0 _ [] fun key => by simp

end Chain

/-! ### The chain of the base -/

/-- Below a base that is no instantiation stands the chain that the base has by itself. -/
theorem Answers.chain_of_base {answers : Answers} {options : Options}
    (hinherited : options.includeInherited = true) {decl base : TypeDecl} {reference : Signature}
    (hreference : decl.base? = some reference)
    (hplain : ∀ generic args, reference ≠ .instantiation generic args)
    (hbase : answers.target? reference = some base) {chain : Chain}
    (h : answers.chain options decl = .ok chain) :
    ∃ above, chain = ⟨decl, ⟨base, .empty⟩ :: above⟩
      ∧ answers.chain options base = .ok ⟨base, above⟩ := by
  obtain ⟨rfl, hclimb⟩ := chain_eq_ok h
  rw [ancestors_of_inherited hinherited, hreference] at hclimb
  have hbinding : Binding.through reference .empty = .empty := by
    unfold Binding.through
    split
    · rename_i generic args
      exact absurd rfl (hplain generic args)
    · rfl
  cases hdepth : options.maxDepth with
  | zero =>
      rw [hdepth] at hclimb
      cases hclimb
  | succ remaining =>
      rw [hdepth] at hclimb
      rcases climb_some_eq_ok hclimb with ⟨hnone, -⟩ | ⟨found, above, hfound, habove, hlevels⟩
      · rw [target?, hnone] at hbase
        cases hbase
      · rw [target?, hfound] at hbase
        cases hbase
        rw [hbinding] at habove hlevels
        refine ⟨above, congrArg (Chain.mk chain.root) hlevels, ?_⟩
        rw [Answers.chain, ancestors_of_inherited hinherited, hdepth,
          climb_of_le (Nat.le_succ remaining) habove]
        rfl

open Inquiry in
/--
**In the public view a type is put on top of its base.**  Let a source give fixed answers, and let a
type have a base that is no instantiation and that resolves.  If the type has a chain, so has its
base, at any time.  Constructors apart, the members of the type are its own, which are those it has
without inheritance, followed by the members of its base whose keys are not among theirs: the same
members, in the same order.
-/
theorem members_eq_own_append_base {σ : Type} [Source σ] {states : σ → Prop} {answers : Answers}
    (hfixed : Source.Fixed states answers) {options : Options}
    (hpublic : options.ignorePrivate = true) (hinherited : options.includeInherited = true)
    {decl base : TypeDecl} {reference : Signature} (hreference : decl.base? = some reference)
    (hplain : ∀ generic args, reference ≠ .instantiation generic args)
    (hbase : reference.typeName?.bind answers = some base) {session after : Session σ}
    (hsession : states session.source) {chain : Chain}
    (hchain : Gives (Inspection.chain options decl) session chain after) {session' : Session σ}
    (hsession' : states session'.source) :
    ∃ baseChain ownChain after' after'',
      Gives (Inspection.chain options base) session' baseChain after' ∧
      Gives (Inspection.chain { options with includeInherited := false } decl) session' ownChain
        after'' ∧
      ∀ kind wantStatic, kind ≠ .constructor →
        let own := ownChain.members kind wantStatic options.ignorePrivate
        chain.members kind wantStatic options.ignorePrivate
          = own ++ (baseChain.members kind wantStatic options.ignorePrivate).filter
              fun member => member.identityKey ∉ own.map Member.identityKey := by
  have hanswer := ((Inspection.settles_chain hfixed options decl).gives_iff hsession).mp
    ⟨after, hchain⟩
  obtain ⟨above, rfl, hbaseChain⟩ :=
    Answers.chain_of_base hinherited hreference hplain hbase hanswer
  obtain ⟨after', hafter'⟩ :=
    ((Inspection.settles_chain hfixed options base).gives_iff hsession').mpr hbaseChain
  obtain ⟨after'', hafter''⟩ := ((Inspection.settles_chain hfixed
    { options with includeInherited := false } decl).gives_iff hsession').mpr
      (show _ = Except.ok (⟨decl, []⟩ : Chain) from rfl)
  refine ⟨_, _, after', after'', hafter', hafter'', fun kind wantStatic hkind => ?_⟩
  rw [hpublic]
  exact Chain.members_on_top decl base above hkind

/-! ### A class over another one -/

/-- The class `Hero` with the methods `Strike` and `Rest`. -/
def heroDecl : TypeDecl :=
  { derivedDecl "Hero" "Being" with methods := [.bare "Strike", .bare "Rest"] }

/-- The class `Knight : Hero` with a `Strike` of its own. -/
def knightDecl : TypeDecl := { derivedDecl "Knight" "Hero" with methods := [.bare "Strike"] }

open Inquiry in
/-- `Knight` has its own `Strike` and then, of the methods of `Hero`, `Rest`. -/
theorem members_eq_own_append_base_knight :
    let session : Session Shelf := ⟨⟨[heroDecl, knightDecl]⟩, []⟩
    let knight : Chain := ⟨knightDecl, [⟨heroDecl, .empty⟩]⟩
    let own := (⟨knightDecl, []⟩ : Chain).members .method false true
    let hero := (⟨heroDecl, []⟩ : Chain).members .method false true
    (∃ after, Gives (Inspection.chain .publicApi knightDecl) session knight after)
      ∧ own.map Member.identityKey = ["Strike()"]
      ∧ hero.map Member.identityKey = ["Strike()", "Rest()"]
      ∧ knight.members .method false true
        = own ++ hero.filter fun member => member.identityKey ∉ own.map Member.identityKey := by
  intro session knight own hero
  have hfixed := Shelf.fixed session.source
  obtain ⟨after, hknight⟩ := ((Inspection.settles_chain hfixed .publicApi knightDecl).gives_iff
    (show session.source = session.source from rfl)).mpr (show _ = Except.ok knight from rfl)
  obtain ⟨heroChain, ownChain, after', after'', hhero, hown, hmembers⟩ :=
    @members_eq_own_append_base Shelf _ _ _ hfixed .publicApi rfl rfl knightDecl heroDecl _ rfl
      (by intro generic args h; cases h) rfl session after rfl knight hknight session rfl
  have hheroRun : (Inspection.chain .publicApi heroDecl).result session = .ok ⟨heroDecl, []⟩ := rfl
  have hownRun : (Inspection.chain .declaredOnly knightDecl).result session
      = .ok ⟨knightDecl, []⟩ := rfl
  cases hheroRun.symm.trans (congrArg Prod.fst hhero)
  cases hownRun.symm.trans (congrArg Prod.fst hown)
  exact ⟨⟨after, hknight⟩, by decide, by decide, hmembers .method false (by decide)⟩

end ApiSurface
