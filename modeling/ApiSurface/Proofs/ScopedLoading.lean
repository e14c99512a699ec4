/-
What a lookup loads.

A definition that is at hand costs nothing: the store is the same afterwards.  A
reference that is not, and whose scope has a loader, costs at most that scope.
`Store.LoadsOnly` says what that leaves alone: the outcomes of all other
assemblies, the loaders, and the place of every definition in the store.  A
reference without such a scope is searched for like a bare name.
-/
import ApiSurface.Proofs.LastInsertion

namespace ApiSurface

namespace Store

/-! ### Loading one assembly -/

/-- `later` is the store after the assembly, and no other, was asked for. -/
structure LoadsOnly (store : Store) (assembly : String) (later : Store) : Prop where
  /-- No other assembly gets an outcome, or another one than it has. -/
  outcomes : ∀ other, other ≠ assembly → later.outcome? other = store.outcome? other
  /-- What the loader produces is appended, but nothing if the assembly was asked for before. -/
  types : later.types.toList = store.types.toList
    ++ if (store.outcome? assembly).isSome then [] else store.offers assembly
  /-- Every definition keeps its place. -/
  places : ∀ (place : Nat) (decl : TypeDecl),
    store.types[place]? = some decl → later.types[place]? = some decl
  loaders : later.loaders = store.loaders

theorem outcome?_loaded_of_notMem {store : Store} {assemblies : List String} {other : String}
    (h : other ∉ assemblies) : (store.loaded assemblies).outcome? other = store.outcome? other := by
  have hnew : (assemblies.map fun assembly => (assembly, store.verdict assembly)).lookup other
      = none := by
    rw [lookup_eq_none_iff_notMem, List.map_map]
    simpa [Function.comp_def] using h
  simp [outcome?, loaded, List.lookup_append, hnew]

theorem toList_types_loaded (store : Store) (assemblies : List String) :
    (store.loaded assemblies).types.toList
      = store.types.toList ++ assemblies.flatMap store.offers :=
  (insertAll_spec (assemblies.flatMap store.offers) store).1

/-- What is appended moves nothing that was there. -/
theorem getElem?_types_of_append {store later : Store} {decls : List TypeDecl}
    (h : later.types.toList = store.types.toList ++ decls) {place : Nat} {decl : TypeDecl}
    (hdecl : store.types[place]? = some decl) : later.types[place]? = some decl := by
  have hlt : place < store.types.toList.length := by
    simpa using (Array.getElem?_eq_some_iff.mp hdecl).1
  rw [← Array.getElem?_toList, h, List.getElem?_append_left hlt, Array.getElem?_toList, hdecl]

theorem loadsOnly_ensureLoaded (store : Store) (assembly : String) :
    store.LoadsOnly assembly (store.ensureLoaded assembly).store := by
  have hbrought : (store.fresh [assembly]).flatMap store.offers
      = if (store.outcome? assembly).isSome then [] else store.offers assembly := by
    by_cases hasked : assembly ∈ store.asked
    · have hsome : (store.outcome? assembly).isSome = true := by
        rw [Option.isSome_iff_ne_none]
        exact fun hnone => outcome?_eq_none_iff.mp hnone hasked
      simp [fresh, hasked, hsome]
    · simp [fresh, hasked, outcome?_eq_none_iff.mpr hasked]
  have htypes := toList_types_loaded store (store.fresh [assembly])
  rw [hbrought] at htypes
  rw [ensureLoaded_eq_loaded]
  refine ⟨fun other hother => ?_, htypes, fun place decl => getElem?_types_of_append htypes, rfl⟩
  exact outcome?_loaded_of_notMem fun hmem => hother (by simpa using (mem_fresh.mp hmem).1)

/-! ### Lookups -/

/-- A reference with a registered scope asks for its scope. -/
theorem resolve_of_scope {store : Store} {name : TypeName} {assembly : String}
    (hlookup : store.lookup name.fullName = none) (hscope : name.scope = some assembly)
    (hregistered : assembly ∈ store.registered) :
    (store.resolve name).source = (store.ensureLoaded assembly).store
      ∧ (store.resolve name).found? = (store.resolve name).source.lookup name.fullName := by
  have hfilter : name.scope.filter store.registered.contains = some assembly := by
    simp [hscope, Option.filter, hregistered]
  have hsource : (store.loadEach [assembly]).2.1 = (store.ensureLoaded assembly).store :=
    loadEach_cons store assembly []
  simp only [resolve, hlookup, hfilter, hsource, and_self]

/-- **Lookups load only what they need.**  Whatever the state of the store: if the full name leads
to a definition, then resolving the reference and finding the name give it and leave the store as
it is.  If it does not and the scope of the reference is registered, then resolving loads the scope
at most, and gives what the name leads to afterwards.  In all other cases resolving the reference
is finding its name. -/
theorem resolve_loads_only_scope (store : Store) (name : TypeName) :
    (∀ decl, store.lookup name.fullName = some decl →
      store.resolve name = ⟨some decl, store, []⟩
        ∧ store.find name.fullName = ⟨some decl, store, []⟩) ∧
    (store.lookup name.fullName = none → ∀ assembly, name.scope = some assembly →
      assembly ∈ store.registered → store.LoadsOnly assembly (store.resolve name).source
        ∧ (store.resolve name).found? = (store.resolve name).source.lookup name.fullName) ∧
    (store.lookup name.fullName = none →
      (∀ assembly, name.scope = some assembly → assembly ∉ store.registered) →
        store.resolve name = store.find name.fullName) := by
  refine ⟨fun decl hlookup => ?_, fun hlookup assembly hscope hregistered => ?_,
    fun hlookup hscope => ?_⟩
  · simp [resolve, find, hlookup]
  · obtain ⟨hsource, hfound⟩ := resolve_of_scope hlookup hscope hregistered
    refine ⟨?_, hfound⟩
    rw [hsource]
    exact loadsOnly_ensureLoaded store assembly
  · have hfilter : name.scope.filter store.registered.contains = none := by
      rw [Option.filter_eq_none_iff]
      intro assembly hassembly
      simpa using hscope assembly hassembly
    simp only [resolve, hlookup, hfilter]

/-- `Gem` is at hand.  `Coin` is loaded from `Core`, which leaves `Extra` with its outcome and `Gem`
in its place.  `Item` cannot come from a scope that has no loader, so it is searched for. -/
theorem resolve_loads_only_scope_coin :
    let coin : TypeName := .top "Game" "Coin" (some "Core")
    let item : TypeName := .top "Game" "Item" (some "Missing")
    (lateStore.resolve (.top "Game" "Gem" none)).source = lateStore ∧
      lateStore.LoadsOnly "Core" (lateStore.resolve coin).source ∧
      lateStore.resolve item = lateStore.find "Game.Item" := by
  intro coin item
  have hlookup : ∀ name, lateStore.lookup name = _ := lateStore_leads.lookup_eq
  have hgem : lateStore.lookup "Game.Gem" = some (.bare (.top "Game" "Gem" none)) := hlookup _
  refine ⟨?_, ?_, ?_⟩
  · rw [((resolve_loads_only_scope lateStore (.top "Game" "Gem" none)).1 _ hgem).1]
  · exact ((resolve_loads_only_scope lateStore coin).2.1 (hlookup _) "Core" rfl (by decide)).1
  · refine (resolve_loads_only_scope lateStore item).2.2 (hlookup _) fun assembly hassembly => ?_
    rw [← Option.some.inj hassembly]
    decide

end Store

end ApiSurface
