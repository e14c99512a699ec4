/-
What came of loading an assembly is final.

A store keeps the outcome of every assembly that was asked for, and asks no loader
twice.  So whatever is called later, and whichever loaders are registered or
replaced, the outcomes that are there stay, in their order, and new ones are
appended: `Store.Leads.outcomes_isPrefix`.  Everything else follows.  A loader is
run only together with a new outcome, so the runs are among the assemblies that
were asked for, of which none comes twice.  A good outcome holds the number of
definitions that were inserted with it, so the size of a store is what was
inserted by hand and the sum of these numbers.
-/
import ApiSurface.Proofs.StoreHistory
import Mathlib.Algebra.GroupWithZero.Nat

namespace ApiSurface

/-- How many definitions came of loading. -/
def Outcome.count : Outcome → Nat
  | .ok count => count
  | .error _ => 0

namespace Store

/-! ### Outcomes are only appended -/

theorem Leads.outcomes_isPrefix {store later : Store} {calls : List Call} {decls : List TypeDecl}
    (h : store.Leads calls decls later) (hnodup : store.registered.Nodup) :
    store.outcomes <+: later.outcomes := by
  refine h.induct hnodup (motive := fun _ _ later => store.outcomes <+: later.outcomes)
    List.prefix_rfl ?insert ?register ?ask ?reorder
  case insert => exact fun _ ih => ih
  case register => exact fun _ _ ih => ih
  case ask => exact fun _ _ _ ih => ih.trans (List.prefix_append _ _)
  case reorder => exact fun _ ih => ih

theorem outcome?_eq_of_isPrefix {store later : Store} (h : store.outcomes <+: later.outcomes)
    {assembly : String} {outcome : Outcome} (houtcome : store.outcome? assembly = some outcome) :
    later.outcome? assembly = some outcome := by
  obtain ⟨more, hmore⟩ := h
  unfold outcome? at houtcome ⊢
  rw [← hmore, List.lookup_append, houtcome]
  rfl

/-- An outcome that is kept is what asking again gives. -/
theorem ensureLoaded_outcome_of_outcome? {store : Store} {assembly : String} {outcome : Outcome}
    (h : store.outcome? assembly = some outcome) :
    (store.ensureLoaded assembly).outcome = outcome := by
  unfold ensureLoaded
  rw [h]

/-- What asking gives is kept. -/
theorem outcome?_ensureLoaded (store : Store) (assembly : String) :
    (store.ensureLoaded assembly).store.outcome? assembly
      = some (store.ensureLoaded assembly).outcome := by
  unfold ensureLoaded
  cases houtcome : store.outcome? assembly with
  | some outcome => exact houtcome
  | none =>
      obtain ⟨hstore, houtcome'⟩ := load_eq store assembly
      show (store.load assembly).store.outcome? assembly = some (store.load assembly).outcome
      rw [hstore, houtcome']
      unfold outcome? at houtcome ⊢
      simp [loaded, List.lookup_append, houtcome]

theorem loadedAssemblies_subset {store later : Store} (h : store.outcomes <+: later.outcomes) :
    store.loadedAssemblies ⊆ later.loadedAssemblies :=
  List.map_subset _ (h.filter _).subset

/-! ### No loader is run twice -/

/-- No assembly has two outcomes, and loaders were run for some of those that have one. -/
structure Orderly (store : Store) : Prop where
  nodup_asked : store.asked.Nodup
  runs_sublist : store.runs.Sublist store.asked

theorem nodup_asks {store : Store} (hnodup : store.registered.Nodup) (call : Call) :
    (store.asks call).Nodup := by
  have hpending : store.pending.Nodup := hnodup.filter _
  cases call with
  | insert decl => exact List.nodup_nil
  | register assembly loader => exact List.nodup_nil
  | ensureLoaded assembly => exact List.nodup_singleton assembly
  | loadAll => exact hnodup
  | find fullName =>
      simp only [asks]
      split
      · exact List.nodup_nil
      · exact hpending
  | resolve name =>
      simp only [asks]
      split
      · exact List.nodup_nil
      · split
        · exact List.nodup_singleton _
        · exact hpending

theorem Orderly.loaded_fresh {store : Store} (h : store.Orderly) {assemblies : List String}
    (hnodup : assemblies.Nodup) : (store.loaded (store.fresh assemblies)).Orderly where
  nodup_asked := by
    rw [asked_loaded]
    refine h.nodup_asked.append (hnodup.filter _) fun assembly hasked hfresh => ?_
    exact (mem_fresh.mp hfresh).2 hasked
  runs_sublist := by
    rw [asked_loaded]
    exact h.runs_sublist.append List.filter_sublist

theorem Leads.orderly {store : Store} {calls : List Call} {decls : List TypeDecl}
    (h : empty.Leads calls decls store) : store.Orderly := by
  refine h.induct nodup_registered_empty (motive := fun _ _ store => store.Orderly)
    ?start ?insert ?register ?ask ?reorder
  case start => exact ⟨List.nodup_nil, List.Sublist.refl []⟩
  case insert => exact fun _ ih => ⟨ih.nodup_asked, ih.runs_sublist⟩
  case register => exact fun _ _ ih => ⟨ih.nodup_asked, ih.runs_sublist⟩
  case ask => exact fun call _ hnodup ih => ih.loaded_fresh (nodup_asks hnodup call)
  case reorder => exact fun _ ih => ⟨ih.nodup_asked, ih.runs_sublist⟩

/-! ### What the size is made of -/

/-- The call inserts a definition. -/
def Call.isInsert : Call → Bool
  | .insert _ => true
  | _ => false

theorem Call.isInsert_of_isQuestion {call : Call} (h : call.isQuestion = true) :
    call.isInsert = false := by
  cases call with
  | insert decl => cases h
  | _ => rfl

theorem count_verdict (store : Store) (assembly : String) :
    (store.verdict assembly).count = (store.offers assembly).length := by
  unfold verdict offers
  cases store.loaders.lookup assembly with
  | none => rfl
  | some loader => cases h : loader assembly <;> simp [Outcome.count, h]

theorem size_insertAll (store : Store) (decls : List TypeDecl) :
    (store.insertAll decls).size = store.size + decls.length := by
  have htypes := (insertAll_spec decls store).1
  simpa [size] using congrArg List.length htypes

theorem size_loaded (store : Store) (assemblies : List String) :
    (store.loaded assemblies).size
      = store.size + (assemblies.map fun assembly => (store.verdict assembly).count).sum := by
  show (store.insertAll _).size = _
  rw [size_insertAll, List.length_flatMap]
  simp only [count_verdict]

/-- The size, with the counts of all outcomes, bad ones included. -/
theorem Leads.size_eq {store : Store} {calls : List Call} {decls : List TypeDecl}
    (h : empty.Leads calls decls store) :
    store.size = calls.countP Call.isInsert
      + (store.outcomes.map fun entry => entry.2.count).sum := by
  refine h.induct nodup_registered_empty (motive := fun calls _ store => store.size
    = calls.countP Call.isInsert + (store.outcomes.map fun entry => entry.2.count).sum)
    rfl ?insert ?register ?ask ?reorder
  case insert =>
    intro calls decls store decl ih
    have hsize : (store.insert decl).size = store.size + 1 := Array.size_push decl
    have houtcomes : (store.insert decl).outcomes = store.outcomes := rfl
    have hcount : (calls ++ [Call.insert decl]).countP Call.isInsert
        = calls.countP Call.isInsert + 1 := by
      simp [Call.isInsert]
    rw [hsize, ih, houtcomes, hcount]
    omega
  case register =>
    intro calls decls store assembly loader ih
    have hcount : (calls ++ [Call.register assembly loader]).countP Call.isInsert
        = calls.countP Call.isInsert := by
      simp [Call.isInsert]
    rw [hcount]
    exact ih
  case ask =>
    intro calls decls store call hquestion _ ih
    have hcount : (calls ++ [call]).countP Call.isInsert = calls.countP Call.isInsert := by
      simp [Call.isInsert_of_isQuestion hquestion]
    rw [hcount, size_loaded, ih]
    simp only [loaded, List.map_append, List.map_map, Function.comp_def, List.sum_append]
    omega
  case reorder => exact fun _ ih => ih

/-- Where no key comes twice, each entry is found by its key. -/
theorem lookup_of_mem {β : Type} {entries : List (String × β)}
    (hnodup : (entries.map Prod.fst).Nodup) {entry : String × β} (hentry : entry ∈ entries) :
    entries.lookup entry.1 = some entry.2 := by
  obtain ⟨before, after, rfl⟩ := List.append_of_mem hentry
  refine List.lookup_eq_some_iff.mpr ⟨before, after, rfl, fun other hother => ?_⟩
  rw [List.map_append, List.map_cons] at hnodup
  have hapart := List.disjoint_of_nodup_append hnodup (List.mem_map.mpr ⟨other, hother, rfl⟩)
  exact bne_iff_ne.mpr fun hkey => hapart (hkey ▸ List.mem_cons_self)

/-- Only good outcomes count. -/
theorem sum_count_filter_isOk (entries : List (String × Outcome)) :
    ((entries.filter fun entry => entry.2.isOk).map fun entry => entry.2.count).sum
      = (entries.map fun entry => entry.2.count).sum := by
  induction entries with
  | nil => rfl
  | cons entry rest ih =>
      obtain ⟨assembly, outcome⟩ := entry
      cases outcome with
      | ok count => simpa [Except.isOk, Except.toBool] using ih
      | error reason => simpa [Except.isOk, Except.toBool, Outcome.count] using ih

/-- The counts that are kept can be had by asking for the loaded assemblies again. -/
theorem Orderly.sum_loadedAssemblies {store : Store} (h : store.Orderly) :
    (store.loadedAssemblies.map fun assembly => (store.ensureLoaded assembly).outcome.count).sum
      = (store.outcomes.map fun entry => entry.2.count).sum := by
  rw [← sum_count_filter_isOk, loadedAssemblies, List.map_map]
  refine congrArg List.sum (List.map_congr_left fun entry hentry => ?_)
  have houtcome := lookup_of_mem h.nodup_asked (List.mem_of_mem_filter hentry)
  rw [Function.comp_apply, ensureLoaded_outcome_of_outcome? houtcome]

/-- **Loaders run once and outcomes are final.**  Whatever calls a store has had, in whichever order
the registered assemblies came: no loader was run twice.  Asking for an assembly gives what it gave
before, after any further calls, and an assembly that was loaded stays so.  The size is the number
of definitions that were inserted by hand and the sum of the counts of the loaded assemblies. -/
theorem outcomes_are_final {store : Store} {calls : List Call} {decls : List TypeDecl}
    (h : empty.Leads calls decls store) :
    (∀ assembly, store.runs.count assembly ≤ 1) ∧
    (∀ assembly moreCalls moreDecls later,
      (store.ensureLoaded assembly).store.Leads moreCalls moreDecls later →
        (later.ensureLoaded assembly).outcome = (store.ensureLoaded assembly).outcome) ∧
    (∀ moreCalls moreDecls later, store.Leads moreCalls moreDecls later →
      store.loadedAssemblies ⊆ later.loadedAssemblies) ∧
    store.size = calls.countP Call.isInsert
      + (store.loadedAssemblies.map fun assembly =>
          (store.ensureLoaded assembly).outcome.count).sum := by
  have hnodup := h.nodup_registered nodup_registered_empty
  have horderly := h.orderly
  refine ⟨?_, ?_, ?_, ?_⟩
  · exact List.nodup_iff_count_le_one.mp (horderly.runs_sublist.nodup horderly.nodup_asked)
  · intro assembly moreCalls moreDecls later hlater
    have hstart := hlater.outcomes_isPrefix (nodup_registered_after hnodup (.ensureLoaded assembly))
    exact ensureLoaded_outcome_of_outcome?
      (outcome?_eq_of_isPrefix hstart (outcome?_ensureLoaded store assembly))
  · intro moreCalls moreDecls later hlater
    exact loadedAssemblies_subset (hlater.outcomes_isPrefix hnodup)
  · rw [horderly.sum_loadedAssemblies]
    exact h.size_eq

/-- After everything was loaded, `Extra` still has the outcome that it got before it had a loader,
and keeps it. -/
theorem outcomes_are_final_late :
    let store := lateStore.after .loadAll
    (∀ assembly, store.runs.count assembly ≤ 1) ∧
    (∀ moreCalls moreDecls later,
      (store.ensureLoaded "Extra").store.Leads moreCalls moreDecls later →
        (later.ensureLoaded "Extra").outcome = .error "no loader registered") ∧
    store.loadedAssemblies = ["Core"] ∧
    store.size = 1 + (["Core"].map fun assembly =>
      (store.ensureLoaded assembly).outcome.count).sum := by
  obtain ⟨hruns, hfinal, -, hsize⟩ := outcomes_are_final (lateStore_leads.call .loadAll)
  exact ⟨hruns, hfinal "Extra", rfl, hsize⟩

end Store

end ApiSurface
