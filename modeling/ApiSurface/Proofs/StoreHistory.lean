/-
The history of a store.

A store is used through six calls.  Two of them give it something, a definition
or a loader.  The other four ask: for an assembly, for everything that has a
loader, or for a definition, which may mean asking for some assemblies.  Asking
for an assembly has an effect only the first time, so a call that asks comes to
loading those assemblies that were never asked for before, one after the other.
`Store.after_cases` says that this is all that calls do, and `Store.Leads.induct`
what follows from it for any number of them.

`Store.Leads` is the relation between a store and what calls make of it.  It keeps
the calls and the definitions that they brought in.  The registered assemblies
come in no order that could be relied on, so between two calls they may be put
into another one.
-/
import ApiSurface.Proofs.StoreGrowth
import Mathlib.Data.List.Induction

namespace ApiSurface

namespace Store

/-! ### Calls -/

/-- What a store can be called for. -/
inductive Call where
  | insert (decl : TypeDecl)
  | register (assembly : String) (loader : Loader)
  | ensureLoaded (assembly : String)
  | find (fullName : String)
  | resolve (name : TypeName)
  | loadAll

/-- The call gives the store nothing. -/
def Call.isQuestion : Call → Bool
  | .insert _ | .register .. => false
  | _ => true

/-- The store after a call. -/
def after (store : Store) : Call → Store
  | .insert decl => store.insert decl
  | .register assembly loader => store.register assembly loader
  | .ensureLoaded assembly => (store.ensureLoaded assembly).store
  | .find fullName => (store.find fullName).source
  | .resolve name => (store.resolve name).source
  | .loadAll => store.loadAll.2.1

/-- The assemblies that a call asks for.  A search asks for none if the definition is at hand. -/
def asks (store : Store) : Call → List String
  | .insert _ | .register .. => []
  | .ensureLoaded assembly => [assembly]
  | .find fullName => if (store.lookup fullName).isSome then [] else store.pending
  | .resolve name =>
    if (store.lookup name.fullName).isSome then []
    else match name.scope.filter store.registered.contains with
      | some assembly => [assembly]
      | none => store.pending
  | .loadAll => store.registered

/-- The assemblies that were asked for, in that order. -/
def asked (store : Store) : List String := store.outcomes.map Prod.fst

/-- Those of the assemblies that were never asked for. -/
def fresh (store : Store) (assemblies : List String) : List String :=
  assemblies.filter (· ∉ store.asked)

/-- The definitions that a call brings in, in order: the one that is inserted, or those that the
loaders of the assemblies produce that are asked for the first time. -/
def brings (store : Store) : Call → List TypeDecl
  | .insert decl => [decl]
  | call => (store.fresh (store.asks call)).flatMap store.offers

/-- `store.Leads calls decls later`: the calls make `later` of the store and bring in `decls`. -/
inductive Leads (store : Store) : List Call → List TypeDecl → Store → Prop where
  | start : Leads store [] [] store
  | call {calls : List Call} {decls : List TypeDecl} {later : Store} (call : Call) :
      Leads store calls decls later →
        Leads store (calls ++ [call]) (decls ++ later.brings call) (later.after call)
  /-- The registered assemblies may come in another order. -/
  | reorder {calls : List Call} {decls : List TypeDecl} {later : Store}
      {loaders : List (String × Loader)} :
      Leads store calls decls later → loaders.Perm later.loaders →
        Leads store calls decls { later with loaders }

/-- Any calls, one after the other, are a history. -/
theorem exists_leads (store : Store) (calls : List Call) :
    ∃ decls, store.Leads calls decls (calls.foldl after store) := by
  induction calls using List.reverseRecOn with
  | nil => exact ⟨[], .start⟩
  | append_singleton calls call ih =>
      obtain ⟨decls, h⟩ := ih
      rw [List.foldl_append]
      exact ⟨_, h.call call⟩

/-! ### What asking does -/

theorem loaded_nil (store : Store) : store.loaded [] = store := by
  simp [loaded, insertAll]

theorem loaded_cons (store : Store) (assembly : String) (rest : List String) :
    store.loaded (assembly :: rest) = (store.loaded [assembly]).loaded rest := by
  have hoffers : (store.loaded [assembly]).offers = store.offers := rfl
  have hverdict : (store.loaded [assembly]).verdict = store.verdict := rfl
  have hregistered : (store.loaded [assembly]).registered = store.registered := rfl
  refine eq_of_contents ?_ rfl ?_ ?_
  · simp only [contents_loaded, hoffers, ← insertAll_append, List.flatMap_cons, List.flatMap_nil,
      List.append_nil]
  · show _ ++ _ = (_ ++ _) ++ _
    rw [hverdict, List.append_assoc]
    rfl
  · show _ ++ _ = (_ ++ _) ++ _
    rw [hregistered, List.append_assoc, ← List.filter_append]
    rfl

theorem outcome?_eq_none_iff {store : Store} {assembly : String} :
    store.outcome? assembly = none ↔ assembly ∉ store.asked :=
  lookup_eq_none_iff_notMem

theorem mem_fresh {store : Store} {assemblies : List String} {assembly : String} :
    assembly ∈ store.fresh assemblies ↔ assembly ∈ assemblies ∧ assembly ∉ store.asked := by
  simp [fresh]

theorem pending_eq_fresh (store : Store) : store.pending = store.fresh store.registered := by
  refine List.filter_congr fun assembly _ => ?_
  rw [Bool.eq_iff_iff, Option.isNone_iff_eq_none, outcome?_eq_none_iff, decide_eq_true_iff]

theorem asked_loaded (store : Store) (assemblies : List String) :
    (store.loaded assemblies).asked = store.asked ++ assemblies := by
  simp [asked, loaded, Function.comp_def]

/-- Asking for an assembly loads it, if it was never asked for. -/
theorem ensureLoaded_eq_loaded (store : Store) (assembly : String) :
    (store.ensureLoaded assembly).store = store.loaded (store.fresh [assembly]) := by
  unfold ensureLoaded
  cases houtcome : store.outcome? assembly with
  | none =>
      have hfresh : store.fresh [assembly] = [assembly] := by
        simpa [fresh] using outcome?_eq_none_iff.mp houtcome
      rw [hfresh]
      exact (load_eq store assembly).1
  | some outcome =>
      have hasked : assembly ∈ store.asked := by
        by_contra hnew
        exact absurd (houtcome.symm.trans (outcome?_eq_none_iff.mpr hnew)) (by simp)
      simp [fresh, hasked, loaded_nil]

/-- Asking for assemblies, each of them once, loads those that were never asked for. -/
theorem loadEach_eq_loaded {assemblies : List String} (hnodup : assemblies.Nodup) :
    ∀ store : Store, (store.loadEach assemblies).2.1 = store.loaded (store.fresh assemblies) := by
  induction assemblies with
  | nil => exact fun store => (loaded_nil store).symm
  | cons assembly rest ih =>
      intro store
      obtain ⟨hnew, hrest⟩ := List.nodup_cons.mp hnodup
      -- the rest is as fresh as before, since it does not hold the assembly again
      have hfresh : (store.loaded (store.fresh [assembly])).fresh rest = store.fresh rest := by
        refine List.filter_congr fun other hother => ?_
        have hother : other ≠ assembly := fun h => hnew (h ▸ hother)
        simp [asked_loaded, mem_fresh, hother]
      rw [loadEach_cons, ensureLoaded_eq_loaded, ih hrest, hfresh]
      by_cases hasked : assembly ∈ store.asked
      · simp [fresh, hasked, loaded_nil]
      · simp only [fresh, hasked, not_false_eq_true, decide_true, List.filter_cons_of_pos,
          List.filter_nil]
        exact (loaded_cons store assembly _).symm

theorem find_source_eq_loaded {store : Store} (hnodup : store.registered.Nodup)
    (fullName : String) :
    (store.find fullName).source = store.loaded (store.fresh (store.asks (.find fullName))) := by
  have hpending : store.pending.Nodup := hnodup.filter _
  unfold find
  cases hlookup : store.lookup fullName with
  | some decl => simp [asks, hlookup, fresh, loaded_nil]
  | none => simpa [asks, hlookup] using loadEach_eq_loaded hpending store

theorem resolve_source_eq_loaded {store : Store} (hnodup : store.registered.Nodup)
    (name : TypeName) :
    (store.resolve name).source = store.loaded (store.fresh (store.asks (.resolve name))) := by
  unfold resolve
  cases hlookup : store.lookup name.fullName with
  | some decl => simp [asks, hlookup, fresh, loaded_nil]
  | none =>
      cases hscope : name.scope.filter store.registered.contains with
      | some assembly =>
          simp [asks, hlookup, hscope, loadEach_eq_loaded (List.nodup_singleton assembly)]
      | none => simp [asks, hlookup, hscope, find_source_eq_loaded hnodup]

/-- **All that a call does**: it inserts a definition, registers a loader, or loads the assemblies
that it asks for the first time. -/
theorem after_cases {store : Store} (hnodup : store.registered.Nodup) (call : Call) :
    (∃ decl, call = .insert decl) ∨ (∃ assembly loader, call = .register assembly loader) ∨
      call.isQuestion = true
        ∧ store.brings call = (store.fresh (store.asks call)).flatMap store.offers
        ∧ store.after call = store.loaded (store.fresh (store.asks call)) := by
  cases call with
  | insert decl => exact .inl ⟨decl, rfl⟩
  | register assembly loader => exact .inr (.inl ⟨assembly, loader, rfl⟩)
  | ensureLoaded assembly => exact .inr (.inr ⟨rfl, rfl, ensureLoaded_eq_loaded store assembly⟩)
  | find fullName => exact .inr (.inr ⟨rfl, rfl, find_source_eq_loaded hnodup fullName⟩)
  | resolve name => exact .inr (.inr ⟨rfl, rfl, resolve_source_eq_loaded hnodup name⟩)
  | loadAll => exact .inr (.inr ⟨rfl, rfl, loadEach_eq_loaded hnodup store⟩)

/-! ### What every history keeps -/

theorem map_fst_putLoader (assembly : String) (loader : Loader) :
    ∀ entries : List (String × Loader), (putLoader assembly loader entries).map Prod.fst
      = if assembly ∈ entries.map Prod.fst then entries.map Prod.fst
        else entries.map Prod.fst ++ [assembly] := by
  intro entries
  induction entries with
  | nil => rfl
  | cons entry rest ih =>
      by_cases hentry : entry.1 = assembly
      · simp [putLoader, hentry]
      · by_cases hrest : assembly ∈ rest.map Prod.fst
        · simp only [putLoader, if_neg hentry, List.map_cons, ih, if_pos hrest,
            if_pos (List.mem_cons_of_mem _ hrest)]
        · have hnew : assembly ∉ entry.1 :: rest.map Prod.fst := by
            simpa [Ne.symm hentry] using hrest
          simp only [putLoader, if_neg hentry, List.map_cons, ih, if_neg hrest, if_neg hnew,
            List.cons_append]

theorem registered_register (store : Store) (assembly : String) (loader : Loader) :
    (store.register assembly loader).registered
      = if assembly ∈ store.registered then store.registered
        else store.registered ++ [assembly] :=
  map_fst_putLoader assembly loader store.loaders

theorem nodup_registered_after {store : Store} (hnodup : store.registered.Nodup) (call : Call) :
    (store.after call).registered.Nodup := by
  obtain ⟨decl, rfl⟩ | ⟨assembly, loader, rfl⟩ | ⟨-, -, hafter⟩ := after_cases hnodup call
  · exact hnodup
  · show (store.register assembly loader).registered.Nodup
    rw [registered_register]
    split
    · exact hnodup
    · rw [← List.concat_eq_append]
      exact hnodup.concat ‹_›
  · rw [hafter]
    exact hnodup

/-- No assembly is registered twice. -/
theorem Leads.nodup_registered {store later : Store} {calls : List Call} {decls : List TypeDecl}
    (h : store.Leads calls decls later) (hnodup : store.registered.Nodup) :
    later.registered.Nodup := by
  induction h with
  | start => exact hnodup
  | call call _ ih => exact nodup_registered_after ih call
  | reorder _ hperm ih => exact (hperm.map Prod.fst).nodup_iff.mpr ih

theorem nodup_registered_empty : empty.registered.Nodup := List.nodup_nil

/-- What inserting, registering, asking and another order keep, every history keeps. -/
theorem Leads.induct {store : Store} (hnodup : store.registered.Nodup)
    {motive : List Call → List TypeDecl → Store → Prop}
    (start : motive [] [] store)
    (insert : ∀ {calls decls later} (decl : TypeDecl), motive calls decls later →
      motive (calls ++ [.insert decl]) (decls ++ [decl]) (later.insert decl))
    (register : ∀ {calls decls later} (assembly : String) (loader : Loader),
      motive calls decls later →
        motive (calls ++ [.register assembly loader]) decls (later.register assembly loader))
    (ask : ∀ {calls decls later} (call : Call), call.isQuestion = true → later.registered.Nodup →
      motive calls decls later →
        motive (calls ++ [call]) (decls ++ (later.fresh (later.asks call)).flatMap later.offers)
          (later.loaded (later.fresh (later.asks call))))
    (reorder : ∀ {calls decls later} {loaders : List (String × Loader)},
      loaders.Perm later.loaders → motive calls decls later →
        motive calls decls { later with loaders })
    {calls : List Call} {decls : List TypeDecl} {later : Store}
    (h : store.Leads calls decls later) : motive calls decls later := by
  induction h with
  | start => exact start
  | reorder _ hperm ih => exact reorder hperm ih
  | @call calls decls later call h ih =>
      have hlater := h.nodup_registered hnodup
      obtain ⟨decl, rfl⟩ | ⟨assembly, loader, rfl⟩ | ⟨hquestion, hbrings, hafter⟩ :=
        after_cases hlater call
      · exact insert decl ih
      · have hnone : later.brings (.register assembly loader) = [] := rfl
        rw [hnone, List.append_nil]
        exact register assembly loader ih
      · rw [hbrings, hafter]
        exact ask call hquestion hlater ih

/-! ### A loader that comes late -/

/-- `Gem` is inserted, and `Extra` is asked for before it has a loader. -/
def lateCalls : List Call :=
  [.insert (.bare (.top "Game" "Gem" none)), .ensureLoaded "Extra",
    .register "Core" fun _ => .ok [.bare (.top "Game" "Coin" none)],
    .register "Extra" fun _ => .ok [.bare (.top "Game" "Item" none)]]

/-- The store after these calls. -/
def lateStore : Store := lateCalls.foldl after empty

theorem lateStore_leads :
    empty.Leads lateCalls [.bare (.top "Game" "Gem" none)] lateStore :=
  (((Leads.start.call _).call _).call _).call _

end Store

end ApiSurface
