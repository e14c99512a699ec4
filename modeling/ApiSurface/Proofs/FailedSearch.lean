/-
What a search has tried before it fails.

A search that does not find its definition at hand loads what is pending and looks
again.  Pending are the assemblies that have a loader and no outcome.  An assembly
that was asked for before it had a loader has an outcome, a bad one, which stays.
So it is never pending, and the loader that it gets later is never run: a search
that fails has run the loaders of all registered assemblies but these.  Which
assemblies they are can be read off the calls, see `Store.AskedEarly`.

`Store.Accounts` says how the calls account for the assemblies that were asked for
and for those whose loader was run.
-/
import ApiSurface.Proofs.LastInsertion

namespace ApiSurface

namespace Store

/-! ### Registered and asked for, by the calls -/

/-- One of the calls registers a loader for the assembly. -/
def Registers (calls : List Call) (assembly : String) : Prop :=
  ∃ loader, Call.register assembly loader ∈ calls

/-- The assembly was asked for by name before it had a loader. -/
def AskedEarly (calls : List Call) (assembly : String) : Prop :=
  ∃ before later, calls = before ++ .ensureLoaded assembly :: later ∧ ¬Registers before assembly

theorem registers_concat {calls : List Call} {call : Call} {assembly : String} :
    Registers (calls ++ [call]) assembly ↔
      Registers calls assembly ∨ ∃ loader, call = .register assembly loader := by
  simp only [Registers, List.mem_append, List.mem_singleton, exists_or, eq_comm]

theorem askedEarly_concat {calls : List Call} {call : Call} {assembly : String} :
    AskedEarly (calls ++ [call]) assembly ↔
      AskedEarly calls assembly ∨ call = .ensureLoaded assembly ∧ ¬Registers calls assembly := by
  constructor
  · rintro ⟨before, later, hsplit, hbefore⟩
    -- the call in question is the last one, or it is among those before
    rcases List.eq_nil_or_concat later with rfl | ⟨later, last, rfl⟩
    · obtain ⟨rfl, hcall⟩ := List.append_inj' hsplit rfl
      exact .inr ⟨List.singleton_inj.mp hcall, hbefore⟩
    · rw [List.concat_eq_append, ← List.cons_append, ← List.append_assoc] at hsplit
      obtain ⟨hcalls, -⟩ := List.append_inj' hsplit rfl
      exact .inl ⟨before, later, hcalls, hbefore⟩
  · rintro (⟨before, later, rfl, hbefore⟩ | ⟨rfl, hcalls⟩)
    · exact ⟨before, later ++ [call], by simp, hbefore⟩
    · exact ⟨calls, [], rfl, hcalls⟩

theorem registers_concat_of_ne {calls : List Call} {call : Call} {assembly : String}
    (hcall : ∀ loader, call ≠ .register assembly loader) :
    Registers (calls ++ [call]) assembly ↔ Registers calls assembly := by
  rw [registers_concat, or_iff_left (not_exists.mpr hcall)]

theorem askedEarly_concat_of_ne {calls : List Call} {call : Call} {assembly : String}
    (hcall : call ≠ .ensureLoaded assembly) :
    AskedEarly (calls ++ [call]) assembly ↔ AskedEarly calls assembly := by
  rw [askedEarly_concat, or_iff_left fun hnew => hcall hnew.1]

/-! ### What the calls account for -/

/-- The calls account for the store: its registered assemblies are those that a call registers, and
of the assemblies that were asked for, those have not had their loader run that were asked for
early. -/
structure Accounts (calls : List Call) (store : Store) : Prop where
  registered : ∀ assembly, assembly ∈ store.registered ↔ Registers calls assembly
  asked : ∀ assembly, assembly ∈ store.asked ↔ assembly ∈ store.runs ∨ AskedEarly calls assembly
  runs : ∀ assembly ∈ store.runs, Registers calls assembly ∧ ¬AskedEarly calls assembly

/-- Only a call for an assembly by its name asks for one that is not registered. -/
theorem mem_registered_of_mem_asks {store : Store} {call : Call} {assembly : String}
    (h : assembly ∈ store.asks call) :
    assembly ∈ store.registered ∨ call = .ensureLoaded assembly := by
  have hpending : assembly ∈ store.pending → assembly ∈ store.registered :=
    fun hmem => (mem_pending.mp hmem).1
  cases call with
  | insert decl => exact absurd h List.not_mem_nil
  | register other loader => exact absurd h List.not_mem_nil
  | ensureLoaded other => exact .inr (congrArg _ (List.mem_singleton.mp h).symm)
  | loadAll => exact .inl h
  | find fullName =>
      simp only [asks] at h
      split at h
      · exact absurd h List.not_mem_nil
      · exact .inl (hpending h)
  | resolve name =>
      simp only [asks] at h
      split at h
      · exact absurd h List.not_mem_nil
      · split at h
        case h_1 scope hscope =>
          obtain ⟨-, hscope⟩ := Option.filter_eq_some_iff.mp hscope
          rw [List.mem_singleton.mp h]
          exact .inl (List.contains_iff_mem.mp hscope)
        case h_2 => exact .inl (hpending h)

namespace Accounts

variable {calls : List Call} {store : Store} (h : Accounts calls store)

include h

theorem insert (decl : TypeDecl) : Accounts (calls ++ [.insert decl]) (store.insert decl) where
  registered assembly := by
    rw [registers_concat_of_ne (by simp)]
    exact h.registered assembly
  asked assembly := by
    rw [askedEarly_concat_of_ne (by simp)]
    exact h.asked assembly
  runs assembly hran := by
    rw [registers_concat_of_ne (by simp), askedEarly_concat_of_ne (by simp)]
    exact h.runs assembly hran

theorem register (assembly : String) (loader : Loader) :
    Accounts (calls ++ [.register assembly loader]) (store.register assembly loader) where
  registered other := by
    have hmem : other ∈ (store.register assembly loader).registered ↔
        other ∈ store.registered ∨ assembly = other := by
      rw [registered_register]
      split
      · exact ⟨.inl, fun hother => hother.elim id fun heq => heq ▸ ‹_›⟩
      · rw [List.mem_append, List.mem_singleton, eq_comm]
    rw [hmem, h.registered, registers_concat]
    simp
  asked other := by
    rw [askedEarly_concat_of_ne (by simp)]
    exact h.asked other
  runs other hother := by
    obtain ⟨hregisters, hearly⟩ := h.runs other hother
    rw [askedEarly_concat_of_ne (by simp)]
    exact ⟨registers_concat.mpr (.inl hregisters), hearly⟩

theorem ask {call : Call} (hquestion : call.isQuestion = true) :
    Accounts (calls ++ [call]) (store.loaded (store.fresh (store.asks call))) := by
  have hregisters : ∀ assembly,
      Registers (calls ++ [call]) assembly ↔ Registers calls assembly := by
    intro assembly
    refine registers_concat_of_ne fun loader hcall => ?_
    subst hcall
    cases hquestion
  have hruns : ∀ assembly, assembly ∈ (store.loaded (store.fresh (store.asks call))).runs ↔
      assembly ∈ store.runs ∨ assembly ∈ store.fresh (store.asks call)
        ∧ Registers calls assembly := by
    intro assembly
    simp [loaded, h.registered]
  refine ⟨fun assembly => (h.registered assembly).trans (hregisters assembly).symm,
    fun assembly => ?_, fun assembly hran => ?_⟩
  · rw [asked_loaded, List.mem_append, h.asked, hruns, askedEarly_concat]
    constructor
    · rintro ((hran | hearly) | hfresh)
      · exact .inl (.inl hran)
      · exact .inr (.inl hearly)
      · by_cases hregistered : Registers calls assembly
        · exact .inl (.inr ⟨hfresh, hregistered⟩)
        · have hcall := (mem_registered_of_mem_asks (mem_fresh.mp hfresh).1).resolve_left
            (mt (h.registered assembly).mp hregistered)
          exact .inr (.inr ⟨hcall, hregistered⟩)
    · rintro ((hran | ⟨hfresh, -⟩) | hearly | ⟨rfl, -⟩)
      · exact .inl (.inl hran)
      · exact .inr hfresh
      · exact .inl (.inr hearly)
      · rw [← h.asked, mem_fresh, or_and_left]
        exact ⟨.inr List.mem_cons_self, em _⟩
  · rw [hregisters, askedEarly_concat]
    rcases (hruns assembly).mp hran with hbefore | ⟨hfresh, hregistered⟩
    · obtain ⟨hregistered, hearly⟩ := h.runs assembly hbefore
      exact ⟨hregistered, fun hcases => hcases.elim hearly fun hnew => hnew.2 hregistered⟩
    · have hnot : ¬AskedEarly calls assembly := fun hearly =>
        (mem_fresh.mp hfresh).2 ((h.asked assembly).mpr (.inr hearly))
      exact ⟨hregistered, fun hcases => hcases.elim hnot fun hnew => hnew.2 hregistered⟩

end Accounts

theorem Leads.accounts {store : Store} {calls : List Call} {decls : List TypeDecl}
    (h : empty.Leads calls decls store) : Accounts calls store := by
  refine h.induct nodup_registered_empty (motive := fun calls _ store => Accounts calls store)
    ?start ?insert ?register ?ask ?reorder
  case start =>
    refine ⟨fun assembly => ?_, fun assembly => ?_, fun assembly hran => ?_⟩
    · simp [Store.registered, empty, Registers]
    · simp [Store.asked, empty, AskedEarly]
    · exact absurd hran List.not_mem_nil
  case insert => exact fun decl ih => ih.insert decl
  case register => exact fun assembly loader ih => ih.register assembly loader
  case ask => exact fun call hquestion _ ih => ih.ask hquestion
  case reorder =>
    intro calls decls store loaders hperm ih
    refine ⟨fun assembly => ?_, ih.asked, ih.runs⟩
    rw [← ih.registered]
    exact (hperm.map Prod.fst).mem_iff

/-! ### Searches that fail -/

/-- What is found is what the name leads to afterwards. -/
theorem find_found?_eq_lookup (store : Store) (fullName : String) :
    (store.find fullName).found? = (store.find fullName).source.lookup fullName := by
  unfold find
  cases hlookup : store.lookup fullName with
  | some decl => exact hlookup.symm
  | none => rfl

/-- A search that fails has asked for everything that is registered. -/
theorem mem_asked_of_find_eq_none {store : Store} (hnodup : store.registered.Nodup)
    {fullName : String} (hnone : (store.find fullName).found? = none) {assembly : String}
    (hregistered : assembly ∈ store.registered) :
    assembly ∈ (store.find fullName).source.asked := by
  have hlookup : store.lookup fullName = none := by
    by_contra hsome
    obtain ⟨decl, hdecl⟩ := Option.ne_none_iff_exists'.mp hsome
    simp [find, hdecl] at hnone
  rw [find_source_eq_loaded hnodup, asked_loaded, List.mem_append, mem_fresh, or_and_left]
  refine ⟨?_, em _⟩
  by_cases hasked : assembly ∈ store.asked
  · exact .inl hasked
  · right
    simpa [asks, hlookup, pending_eq_fresh] using mem_fresh.mpr ⟨hregistered, hasked⟩

/-- **A search that fails has run every loader, but those of the assemblies that were asked for
early.**  Let a store have had any calls, and let a search in it fail.  Then the loader of a
registered assembly has been run exactly if the assembly was not asked for before it had a loader.
No definition that was inserted by hand or that a loader produced goes by the name. -/
theorem failed_search_ran_unless_early {store : Store} {calls : List Call} {decls : List TypeDecl}
    (h : empty.Leads calls decls store) {fullName : String}
    (hnone : (store.find fullName).found? = none) :
    (∀ assembly, Registers calls assembly →
      (assembly ∈ (store.find fullName).source.runs ↔ ¬AskedEarly calls assembly)) ∧
    ∀ decl ∈ decls ++ store.brings (.find fullName), ¬decl.GoesBy fullName := by
  have hafter := h.call (.find fullName)
  constructor
  · intro assembly hregisters
    have hearly : AskedEarly (calls ++ [.find fullName]) assembly ↔ AskedEarly calls assembly :=
      askedEarly_concat_of_ne (by simp)
    have hasked := mem_asked_of_find_eq_none (h.nodup_registered nodup_registered_empty) hnone
      ((h.accounts.registered assembly).mpr hregisters)
    rw [← hearly]
    refine ⟨fun hran => (hafter.accounts.runs assembly hran).2, fun hnot => ?_⟩
    exact ((hafter.accounts.asked assembly).mp hasked).resolve_right hnot
  · have hlookup : (store.after (.find fullName)).lookup fullName = none :=
      (find_found?_eq_lookup store fullName).symm.trans hnone
    rw [hafter.lookup_eq, Option.or_eq_none_iff, lastBy_eq_none_iff, lastBy_eq_none_iff] at hlookup
    rintro decl hdecl (hfull | hdotted)
    · exact hlookup.1 decl hdecl hfull
    · exact hlookup.2 decl hdecl hdotted

/-- The loader of `Extra` comes late and could produce `Item`.  The search for `Item` fails: it runs
the loader of `Core` and not that of `Extra`. -/
theorem failed_search_ran_unless_early_item :
    (lateStore.find "Game.Item").found? = none ∧
      "Core" ∈ (lateStore.find "Game.Item").source.runs ∧
      "Extra" ∉ (lateStore.find "Game.Item").source.runs := by
  have hlookup : lateStore.lookup "Game.Item" = none := by
    rw [lateStore_leads.lookup_eq]
    rfl
  have hnone : (lateStore.find "Game.Item").found? = none := by
    have hbrings : lateStore.brings (.find "Game.Item") = [.bare (.top "Game" "Coin" none)] := by
      simp only [brings, asks, hlookup]
      rfl
    rw [find_found?_eq_lookup]
    show (lateStore.after (.find "Game.Item")).lookup "Game.Item" = none
    rw [(lateStore_leads.call (.find "Game.Item")).lookup_eq, hbrings]
    rfl
  obtain ⟨hruns, -⟩ := failed_search_ran_unless_early lateStore_leads hnone
  have hcore : ¬AskedEarly lateCalls "Core" := by
    rintro ⟨before, later, hsplit, -⟩
    have hmem : Call.ensureLoaded "Core" ∈ lateCalls := by
      rw [hsplit]
      simp
    simp [lateCalls] at hmem
  have hextra : AskedEarly lateCalls "Extra" :=
    ⟨[.insert (.bare (.top "Game" "Gem" none))], _, rfl, by simp [Registers]⟩
  have hregisters : Registers lateCalls "Core" ∧ Registers lateCalls "Extra" := by
    simp [Registers, lateCalls]
  exact ⟨hnone, (hruns "Core" hregisters.1).mpr hcore,
    fun hran => (hruns "Extra" hregisters.2).mp hran hextra⟩

end Store

end ApiSurface
