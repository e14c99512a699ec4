/-
Batches of inspections and their order.

`Inspection.surfaces` inspects the types of a list one after the other, and each
inspection works with what the ones before it have left of the store.  Whether
that can be seen in the results depends on the references that are followed on the
way.  `Store.directs_iff` says which references have the same answer at any time;
if those of all definitions do, the result of a name is a function of the name
alone.  Then neither the order of a batch nor a name that leads nowhere can change
what its other names come to.

It takes only one reference into the wrong assembly to lose this.  The class `Gem`
at the end of this file has its base in another assembly than it says: its base is
found after any search that failed, and not before.
-/
import ApiSurface.Proofs.FixedSource
import ApiSurface.Proofs.StoreGrowth

namespace ApiSurface

namespace Store

/-- The references of every definition have one answer at any time. -/
def Steers (store : Store) : Prop :=
  ∀ decl ∈ store.eventual, ∀ name ∈ decl.references, store.Directs name

/-- The states of a store during a batch. -/
def Later (store later : Store) : Prop := ∃ assemblies, store.Grows assemblies later

/-- What a name comes to: its definition and then the surface of that, with the answers that the
store gives as it is. -/
def result (store : Store) (options : Options) (fullName : String) : Except Error Surface :=
  Answers.definition (fun name => (store.find name).found?) fullName
    >>= Answers.surface (fun name => (store.resolve name).found?) options

section Later

variable {store : Store} (hindexed : store.Indexed) (hdistinct : store.Distinct)

include hindexed hdistinct

theorem finds_later :
    Source.Finds store.Later fun fullName => (store.find fullName).found? where
  found := by
    rintro later ⟨assemblies, hgrows⟩ fullName
    refine Option.ext fun decl => ?_
    show (later.find fullName).found? = some decl ↔ _
    rw [find_eq_some_iff (hgrows.indexed hindexed) (hgrows.distinct hdistinct),
      find_eq_some_iff hindexed hdistinct, hgrows.mem_eventual]
  stays := by
    rintro later ⟨assemblies, hgrows⟩ fullName
    obtain ⟨others, hfind⟩ := exists_grows_find later fullName
    exact ⟨assemblies ++ others, hgrows.trans hfind⟩

theorem Steers.steady (hsteers : store.Steers) :
    Source.Steady store.Later store.Directs fun name => (store.resolve name).found? where
  found := by
    rintro later ⟨assemblies, hgrows⟩ name hname
    exact hname.found_eq hindexed hdistinct hgrows
  stays := by
    rintro later ⟨assemblies, hgrows⟩ name -
    obtain ⟨others, hresolve⟩ := exists_grows_resolve later name
    exact ⟨assemblies ++ others, hgrows.trans hresolve⟩
  asks := by
    intro name _ decl hdecl
    obtain ⟨hsearched, -⟩ := (resolve_eq_some_iff hindexed hdistinct).mp hdecl
    exact hsteers decl (mem_eventual_of_mem_searched hsearched)

/-- In a store that steers, each name of a batch has a result of its own. -/
theorem Steers.settles_surfaces (hsteers : store.Steers) (options : Options)
    (fullNames : List String) :
    Inquiry.Settles store.Later (Inspection.surfaces options fullNames)
      (.ok (fullNames.map (store.result options))) := by
  refine Inquiry.settles_mapM (fun fullName => Inquiry.Settles.attempt ?_) fullNames
  refine (hsteers.steady hindexed hdistinct).settles_surface (finds_later hindexed hdistinct)
    options fun decl hdecl => ?_
  exact hsteers decl ((find_eq_some_iff hindexed hdistinct).mp hdecl).1

end Later

end Store

open Inquiry in
/--
**The order of a batch does not matter where every reference has one answer.**  Let a store be built
in any way, and let the definitions that it has or can load differ in their names.  A reference has
the same answer after any lookups exactly if it directs: if the definition it names is at hand or in
its scope, unless its scope is not registered.  If the references of all definitions do, then there
is one result for each name, a surface or an error, and every batch gives just these results,
whatever its order and whatever was looked up before.
-/
theorem surfaces_orderless {store : Store} (hbuilt : store.Built) (hdistinct : store.Distinct) :
    (∀ name, store.Directs name ↔ ∀ later, store.AskedFrom later →
      (later.resolve name).found? = (store.resolve name).found?) ∧
    (store.Steers → ∀ options, ∃ result : String → Except Error Surface,
      ∀ later, store.AskedFrom later → ∀ fullNames journal, ∃ after,
        Gives (Inspection.surfaces options fullNames) ⟨later, journal⟩ (fullNames.map result)
          after) := by
  have hindexed := hbuilt.indexed
  refine ⟨Store.directs_iff hindexed hdistinct, fun hsteers options => ⟨store.result options, ?_⟩⟩
  intro later hlater fullNames journal
  have hstate : store.Later later := hlater.exists_grows
  exact ((hsteers.settles_surfaces hindexed hdistinct options fullNames).gives_iff hstate).mpr rfl

/-! ### A base in the wrong assembly -/

/-- The class `Item`. -/
def itemDecl : TypeDecl := .bare (.top "Game" "Item" none)

/-- The reference to `Item`, which is said to be in the given assembly. -/
def itemName (assembly : String) : TypeName := itemDecl.name.withScope assembly

/-- The class `Gem`, which looks for its base `Item` in the given assembly. -/
def gemDecl (assembly : String) : TypeDecl :=
  { TypeDecl.bare (.top "Game" "Gem" none) with base? := some (.named (itemName assembly)) }

/-- A store that has `Gem` at hand and can load `Item` from `Extra`. -/
def gemStore (assembly : String) : Store :=
  ((Store.empty.register "Core" fun _ => .ok []).register "Extra" fun _ => .ok [itemDecl]).insert
    (gemDecl assembly)

theorem gemStore_built (assembly : String) : (gemStore assembly).Built :=
  .insert _ (.register _ _ (.register _ _ .empty))

theorem gemStore_distinct (assembly : String) : (gemStore assembly).Distinct := by
  refine Store.distinct_of_nodup ?_
  show [(gemDecl "").name.dottedName, itemDecl.name.dottedName].Nodup
  decide

/-- `Gem` refers to nothing but its base, and that is in `Extra`. -/
theorem gemStore_steers : (gemStore "Extra").Steers := by
  intro decl hdecl name hname other hother _
  rcases List.mem_pair.mp hdecl with rfl | rfl
  · rw [List.mem_singleton.mp hname]
    exact hother
  · exact absurd hname List.not_mem_nil

/-- Where `Gem` looks for its base in `Core`, the answer is not always the same.  Where it looks in
`Extra`, batches give the same results in any order. -/
theorem surfaces_orderless_gem :
    (∃ later, (gemStore "Core").AskedFrom later ∧ (later.resolve (itemName "Core")).found?
      ≠ ((gemStore "Core").resolve (itemName "Core")).found?)
    ∧ ∀ options, ∃ result : String → Except Error Surface, ∀ fullNames journal, ∃ after,
      Inquiry.Gives (Inspection.surfaces options fullNames) ⟨gemStore "Extra", journal⟩
        (fullNames.map result) after := by
  constructor
  · have hdirects := (surfaces_orderless (gemStore_built "Core") (gemStore_distinct "Core")).1
      (itemName "Core")
    have hreach : (gemStore "Core").searched (itemName "Core") = [gemDecl "Core"] := rfl
    have hstray : ¬(gemStore "Core").Directs (itemName "Core") := by
      intro h
      have hitem := h itemDecl (List.mem_cons_of_mem _ List.mem_cons_self) (Or.inl rfl)
      rw [hreach, List.mem_singleton] at hitem
      exact absurd (congrArg TypeDecl.fullName hitem) (by decide)
    by_contra hsame
    refine hstray (hdirects.mpr fun later hlater => ?_)
    by_contra hother
    exact hsame ⟨later, hlater, hother⟩
  · intro options
    obtain ⟨result, hresult⟩ :=
      (surfaces_orderless (gemStore_built "Extra") (gemStore_distinct "Extra")).2 gemStore_steers
        options
    exact ⟨result, hresult _ .start⟩

end ApiSurface
