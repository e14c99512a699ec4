/-
What a store answers while it grows.

Asking a store for a definition may load assemblies, so the same question may be
answered later by a store that holds more.  What changes is little: after any
number of lookups the store is the one it was, with some of its pending assemblies
loaded.  `Store.load_eq` says what loading does to all parts of a store,
`Store.Grows` what is left of that for lookups, and everything a lookup leaves
behind is derived from it.

`Store.eventual` lists the definitions that a store has or can load.  If no two of
them share a name, then `find` is a search among them, wherever the definitions
are: it loads what is pending before it gives up.  A reference whose scope is
registered is searched for less widely, among what is at hand and in its scope.
So its answer may depend on what was asked before, and it does exactly if the
definition is to be had from another assembly: `Store.directs_iff`.
-/
import ApiSurface.Proofs.Path
import ApiSurface.Store
import Mathlib.Data.List.Nodup

namespace ApiSurface

/-! ### Names of definitions -/

/-- The definition can be asked for by that name: it is its full name, or its dotted one. -/
def TypeDecl.GoesBy (fullName : String) (decl : TypeDecl) : Prop :=
  decl.fullName = fullName ∨ decl.name.dottedName = fullName

theorem slash_notMem_dottedName (name : TypeName) : '/' ∉ name.dottedName.toList := by
  unfold TypeName.dottedName Text.swap
  rw [String.toList_ofList, List.mem_map]
  rintro ⟨c, -, hc⟩
  split at hc
  · exact absurd hc (by decide)
  · contradiction

/-- Definitions that go by one name have the same dotted name. -/
theorem TypeDecl.GoesBy.dottedName_eq {fullName : String} {decl : TypeDecl}
    (h : decl.GoesBy fullName) : decl.name.dottedName = Text.swap '/' '.' fullName := by
  rcases h with rfl | rfl
  · rfl
  · exact (swap_of_notMem (slash_notMem_dottedName decl.name)).symm

namespace Store

/-! ### The indexes -/

/-- The index leads from names to definitions of that name, and every definition has its name in
it. -/
structure IndexedBy (key : TypeDecl → String) (index : Std.HashMap String Nat)
    (types : Array TypeDecl) : Prop where
  sound : ∀ name place, index[name]? = some place →
    ∃ decl, types[place]? = some decl ∧ key decl = name
  total : ∀ decl ∈ types, ∃ place, index[key decl]? = some place

theorem IndexedBy.push {key : TypeDecl → String} {index : Std.HashMap String Nat}
    {types : Array TypeDecl} (h : IndexedBy key index types) (decl : TypeDecl) :
    IndexedBy key (index.insert (key decl) types.size) (types.push decl) where
  sound := by
    intro name place hplace
    rw [Std.HashMap.getElem?_insert] at hplace
    by_cases hname : key decl = name
    · rw [if_pos (beq_iff_eq.mpr hname)] at hplace
      obtain rfl := Option.some.inj hplace
      exact ⟨decl, Array.getElem?_push_size, hname⟩
    · rw [if_neg (by simpa using hname)] at hplace
      obtain ⟨found, hfound, hkey⟩ := h.sound name place hplace
      refine ⟨found, ?_, hkey⟩
      have hlt : place < types.size := (Array.getElem?_eq_some_iff.mp hfound).1
      rw [Array.getElem?_push_lt hlt]
      exact (Array.getElem?_eq_getElem hlt).symm.trans hfound
  total := by
    intro other hother
    rw [Std.HashMap.getElem?_insert]
    by_cases hname : key decl = key other
    · exact ⟨types.size, if_pos (beq_iff_eq.mpr hname)⟩
    · rw [if_neg (by simpa using hname)]
      rcases Array.mem_push.mp hother with hold | rfl
      · exact h.total other hold
      · exact absurd rfl hname

/-- Both indexes of the store are in order. -/
structure Indexed (store : Store) : Prop where
  byFullName : IndexedBy TypeDecl.fullName store.byFullName store.types
  byDottedName : IndexedBy (fun decl => decl.name.dottedName) store.byDottedName store.types

theorem Indexed.insert {store : Store} (h : store.Indexed) (decl : TypeDecl) :
    (store.insert decl).Indexed :=
  ⟨h.byFullName.push decl, h.byDottedName.push decl⟩

/-- What the lookups of a store depend on besides its loaders and outcomes. -/
theorem insertAll_spec (decls : List TypeDecl) : ∀ store : Store,
    (store.insertAll decls).types.toList = store.types.toList ++ decls
      ∧ (store.Indexed → (store.insertAll decls).Indexed) := by
  induction decls with
  | nil => exact fun store => ⟨(List.append_nil _).symm, id⟩
  | cons decl rest ih =>
      intro store
      obtain ⟨htypes, hindexed⟩ := ih (store.insert decl)
      refine ⟨?_, fun h => hindexed (h.insert decl)⟩
      show ((store.insert decl).insertAll rest).types.toList = _
      rw [htypes]
      simp [Store.insert]

/-- Where the two indexes lead, there is a definition that goes by the name. -/
theorem Indexed.exists_of_place {store : Store} (h : store.Indexed) {fullName : String}
    {place : Nat}
    (hplace : (store.byFullName[fullName]? <|> store.byDottedName[fullName]?) = some place) :
    ∃ decl, store.types[place]? = some decl ∧ decl.GoesBy fullName := by
  cases hfull : store.byFullName[fullName]? with
  | some first =>
      rw [hfull] at hplace
      obtain rfl := Option.some.inj hplace
      obtain ⟨decl, hdecl, hname⟩ := h.byFullName.sound fullName first hfull
      exact ⟨decl, hdecl, Or.inl hname⟩
  | none =>
      rw [hfull] at hplace
      obtain ⟨decl, hdecl, hname⟩ := h.byDottedName.sound fullName place hplace
      exact ⟨decl, hdecl, Or.inr hname⟩

/-- A name leads to a definition that goes by it. -/
theorem Indexed.goesBy_of_lookup {store : Store} (h : store.Indexed) {fullName : String}
    {decl : TypeDecl} (hlookup : store.lookup fullName = some decl) :
    decl ∈ store.types ∧ decl.GoesBy fullName := by
  obtain ⟨place, hplace, hdecl⟩ := Option.bind_eq_some_iff.mp hlookup
  obtain ⟨found, hfound, hname⟩ := h.exists_of_place hplace
  cases hfound.symm.trans hdecl
  exact ⟨Array.mem_of_getElem? hdecl, hname⟩

/-- A name that some definition goes by leads to one. -/
theorem Indexed.exists_lookup {store : Store} (h : store.Indexed) {fullName : String}
    {decl : TypeDecl} (hmem : decl ∈ store.types) (hname : decl.GoesBy fullName) :
    ∃ found, store.lookup fullName = some found := by
  have hplaced : ∃ place, (store.byFullName[fullName]? <|> store.byDottedName[fullName]?)
      = some place := by
    cases hfull : store.byFullName[fullName]? with
    | some place => exact ⟨place, rfl⟩
    | none =>
        rcases hname with rfl | rfl
        · obtain ⟨place, hplace⟩ := h.byFullName.total decl hmem
          exact absurd (hfull.symm.trans hplace) (by simp)
        · exact h.byDottedName.total decl hmem
  obtain ⟨place, hplace⟩ := hplaced
  obtain ⟨found, hfound, -⟩ := h.exists_of_place hplace
  unfold lookup
  rw [hplace]
  exact ⟨found, hfound⟩

/-! ### Loading -/

/-- The definitions that the assembly's loader produces. -/
def offers (store : Store) (assembly : String) : List TypeDecl :=
  match store.loaders.lookup assembly with
  | none => []
  | some loader =>
    match loader assembly with
    | .ok decls => decls
    | .error _ => []

/-- What loading the assembly comes to. -/
def verdict (store : Store) (assembly : String) : Outcome :=
  match store.loaders.lookup assembly with
  | none => .error "no loader registered"
  | some loader =>
    match loader assembly with
    | .ok decls => .ok decls.length
    | .error error => .error error.message

/-- The store after the assemblies were loaded one after the other. -/
def loaded (store : Store) (assemblies : List String) : Store :=
  { store.insertAll (assemblies.flatMap store.offers) with
    loaders := store.loaders
    outcomes := store.outcomes ++ assemblies.map fun assembly => (assembly, store.verdict assembly)
    runs := store.runs ++ assemblies.filter (· ∈ store.registered) }

/-- The definitions of the store and their indexes, without the assemblies. -/
def contents (store : Store) : Store :=
  ⟨store.types, store.byFullName, store.byDottedName, [], [], []⟩

theorem eq_of_contents {store other : Store} (hcontents : store.contents = other.contents)
    (hloaders : store.loaders = other.loaders) (houtcomes : store.outcomes = other.outcomes)
    (hruns : store.runs = other.runs) : store = other := by
  cases store
  cases other
  cases hcontents
  cases hloaders
  cases houtcomes
  cases hruns
  rfl

theorem contents_insertAll (decls : List TypeDecl) : ∀ store : Store,
    (store.insertAll decls).contents = store.contents.insertAll decls := by
  induction decls with
  | nil => exact fun store => rfl
  | cons decl rest ih => exact fun store => ih (store.insert decl)

/-- Inserting definitions has to do with the contents only. -/
theorem insertAll_frame (decls : List TypeDecl) : ∀ store : Store,
    (store.insertAll decls).loaders = store.loaders
      ∧ (store.insertAll decls).outcomes = store.outcomes
      ∧ (store.insertAll decls).runs = store.runs := by
  induction decls with
  | nil => exact fun store => ⟨rfl, rfl, rfl⟩
  | cons decl rest ih => exact fun store => ih (store.insert decl)

theorem insertAll_append (store : Store) (decls others : List TypeDecl) :
    store.insertAll (decls ++ others) = (store.insertAll decls).insertAll others :=
  List.foldl_append

theorem contents_loaded (store : Store) (assemblies : List String) :
    (store.loaded assemblies).contents
      = store.contents.insertAll (assemblies.flatMap store.offers) :=
  contents_insertAll _ store

theorem lookup_eq_none_iff_notMem {β : Type} {entries : List (String × β)} {key : String} :
    entries.lookup key = none ↔ key ∉ entries.map Prod.fst := by
  rw [List.lookup_eq_none_iff, List.mem_map]
  constructor
  · rintro h ⟨entry, hentry, rfl⟩
    exact absurd (h entry hentry) (by simp)
  · intro h entry hentry
    exact bne_iff_ne.mpr fun hkey => h ⟨entry, hentry, hkey.symm⟩

theorem mem_registered_of_lookup {store : Store} {assembly : String} {loader : Loader}
    (h : store.loaders.lookup assembly = some loader) : assembly ∈ store.registered := by
  by_contra hmem
  exact absurd (h.symm.trans (lookup_eq_none_iff_notMem.mpr hmem)) (by simp)

/-- **All that loading does**: the definitions are inserted, the outcome is kept, and the run is
noted if there was a loader. -/
theorem load_eq (store : Store) (assembly : String) :
    (store.load assembly).store = store.loaded [assembly]
      ∧ (store.load assembly).outcome = store.verdict assembly := by
  cases hloader : store.loaders.lookup assembly with
  | none =>
      have hmissing : assembly ∉ store.registered := lookup_eq_none_iff_notMem.mp hloader
      simp [load, loaded, verdict, offers, insertAll, hloader, hmissing]
  | some loader =>
      have hpresent := mem_registered_of_lookup hloader
      cases hdecls : loader assembly with
      | error error => simp [load, loaded, verdict, offers, insertAll, hloader, hdecls, hpresent]
      | ok decls =>
          obtain ⟨hloaders, -, hruns⟩ :=
            insertAll_frame decls { store with runs := store.runs ++ [assembly] }
          simp only [load, verdict, hloader, hdecls, and_true]
          refine eq_of_contents ?_ hloaders ?_ ?_
          · rw [contents_loaded]
            simp only [offers, hloader, hdecls, List.flatMap_cons, List.flatMap_nil,
              List.append_nil]
            exact contents_insertAll decls { store with runs := store.runs ++ [assembly] }
          · simp [loaded, verdict, hloader, hdecls]
          · simpa [loaded, hpresent] using hruns

/-- `later` is the store after some of the assemblies were asked for: those of them that were
pending are loaded. -/
structure Grows (store : Store) (assemblies : List String) (later : Store) : Prop where
  loaders : later.loaders = store.loaders
  pending : ∀ assembly, assembly ∈ later.pending ↔ assembly ∈ store.pending ∧ assembly ∉ assemblies
  types : ∀ decl, decl ∈ later.types ↔ decl ∈ store.types
    ∨ ∃ assembly ∈ assemblies, assembly ∈ store.pending ∧ decl ∈ store.offers assembly
  indexed : store.Indexed → later.Indexed

namespace Grows

variable {store middle later : Store} {assemblies others : List String}

theorem refl (store : Store) : store.Grows [] store where
  loaders := rfl
  pending := by simp
  types := by simp
  indexed := id

theorem offers_eq (h : store.Grows assemblies later) : later.offers = store.offers := by
  unfold offers
  rw [h.loaders]

theorem registered_eq (h : store.Grows assemblies later) : later.registered = store.registered := by
  unfold registered
  rw [h.loaders]

theorem trans (h : store.Grows assemblies middle) (h' : middle.Grows others later) :
    store.Grows (assemblies ++ others) later where
  loaders := h'.loaders.trans h.loaders
  pending := by
    intro assembly
    rw [h'.pending, h.pending, List.mem_append, not_or, and_assoc]
  types := by
    intro decl
    rw [h'.types, h.types, h.offers_eq]
    constructor
    · rintro ((hdecl | ⟨assembly, hmem, hloaded⟩) | ⟨assembly, hmem, hpending, hdecl⟩)
      · exact Or.inl hdecl
      · exact Or.inr ⟨assembly, List.mem_append_left _ hmem, hloaded⟩
      · exact Or.inr ⟨assembly, List.mem_append_right _ hmem, ((h.pending assembly).mp hpending).1,
          hdecl⟩
    · rintro (hdecl | ⟨assembly, hmem, hpending, hdecl⟩)
      · exact Or.inl (Or.inl hdecl)
      · by_cases hfirst : assembly ∈ assemblies
        · exact Or.inl (Or.inr ⟨assembly, hfirst, hpending, hdecl⟩)
        · -- the second run finds it pending, since the first did not ask for it
          have hother := (List.mem_append.mp hmem).resolve_left hfirst
          exact Or.inr ⟨assembly, hother, (h.pending assembly).mpr ⟨hpending, hfirst⟩, hdecl⟩
  indexed := fun hindexed => h'.indexed (h.indexed hindexed)

end Grows

theorem mem_pending {store : Store} {assembly : String} :
    assembly ∈ store.pending ↔ assembly ∈ store.registered ∧ store.outcome? assembly = none := by
  unfold pending
  rw [List.mem_filter, Option.isNone_iff_eq_none]

/-- Only registered assemblies have something to offer. -/
theorem mem_registered_of_mem_offers {store : Store} {assembly : String} {decl : TypeDecl}
    (h : decl ∈ store.offers assembly) : assembly ∈ store.registered := by
  unfold offers at h
  cases hloader : store.loaders.lookup assembly with
  | none =>
      rw [hloader] at h
      exact absurd h List.not_mem_nil
  | some loader => exact mem_registered_of_lookup hloader

/-- Of that, what `Grows` speaks about. -/
theorem load_spec (store : Store) (assembly : String) :
    (store.load assembly).store.types.toList = store.types.toList ++ store.offers assembly
      ∧ (store.load assembly).store.loaders = store.loaders
      ∧ (store.load assembly).store.outcomes
        = store.outcomes ++ [(assembly, store.verdict assembly)]
      ∧ (store.Indexed → (store.load assembly).store.Indexed) := by
  obtain ⟨htypes, hindexed⟩ := insertAll_spec ([assembly].flatMap store.offers) store
  rw [(load_eq store assembly).1]
  refine ⟨htypes.trans ?_, rfl, rfl, fun h => ⟨(hindexed h).byFullName, (hindexed h).byDottedName⟩⟩
  rw [List.flatMap_singleton]

/-- An assembly that is loaded is no longer pending. -/
theorem grows_load {store : Store} {assembly : String} (hnew : store.outcome? assembly = none) :
    store.Grows [assembly] (store.load assembly).store := by
  obtain ⟨htypes, hloaders, houtcomes, hindexed⟩ := store.load_spec assembly
  refine ⟨hloaders, fun other => ?_, fun decl => ?_, hindexed⟩
  · rw [mem_pending, mem_pending, registered, hloaders, outcome?, houtcomes, List.lookup_append,
      Option.or_eq_none_iff, List.mem_singleton, and_assoc]
    refine and_congr_right fun _ => and_congr_right fun _ => ?_
    by_cases hother : other = assembly
    · simp [hother]
    · simp [hother, List.lookup_eq_none_iff]
  · rw [← Array.mem_toList_iff, htypes, List.mem_append, Array.mem_toList_iff]
    refine or_congr_right ⟨fun hdecl => ⟨assembly, List.mem_cons_self, ?_, hdecl⟩, ?_⟩
    · exact mem_pending.mpr ⟨mem_registered_of_mem_offers hdecl, hnew⟩
    · rintro ⟨other, hother, -, hdecl⟩
      rwa [List.mem_singleton.mp hother] at hdecl

theorem grows_ensureLoaded (store : Store) (assembly : String) :
    store.Grows [assembly] (store.ensureLoaded assembly).store := by
  unfold ensureLoaded
  cases houtcome : store.outcome? assembly with
  | none => exact grows_load houtcome
  | some outcome =>
      have hdone : assembly ∉ store.pending := by
        rw [mem_pending, houtcome]
        simp
      refine ⟨rfl, fun other => ?_, fun decl => ?_, id⟩
      · refine ⟨fun hother => ⟨hother, ?_⟩, And.left⟩
        rintro hmem
        exact hdone (List.mem_singleton.mp hmem ▸ hother)
      · refine ⟨Or.inl, ?_⟩
        rintro (hdecl | ⟨other, hother, hpending, -⟩)
        · exact hdecl
        · exact absurd (List.mem_singleton.mp hother ▸ hpending) hdone

theorem loadEach_cons (store : Store) (assembly : String) (rest : List String) :
    (store.loadEach (assembly :: rest)).2.1
      = ((store.ensureLoaded assembly).store.loadEach rest).2.1 := by
  simp only [loadEach]
  split <;> rfl

/-- **Loading assemblies one after the other** adds what those of them offer that were pending. -/
theorem grows_loadEach (assemblies : List String) : ∀ store : Store,
    store.Grows assemblies (store.loadEach assemblies).2.1 := by
  induction assemblies with
  | nil => exact fun store => .refl store
  | cons assembly rest ih =>
      intro store
      rw [loadEach_cons]
      exact (store.grows_ensureLoaded assembly).trans (ih (store.ensureLoaded assembly).store)

/-! ### Finding -/

/-- The definitions that the store has or can load. -/
def eventual (store : Store) : List TypeDecl :=
  store.types.toList ++ store.pending.flatMap store.offers

theorem mem_eventual {store : Store} {decl : TypeDecl} : decl ∈ store.eventual ↔
    decl ∈ store.types ∨ ∃ assembly ∈ store.pending, decl ∈ store.offers assembly := by
  unfold eventual
  rw [List.mem_append, Array.mem_toList_iff, List.mem_flatMap]

/-- Definitions that differ have different dotted names, and so different full names. -/
def Distinct (store : Store) : Prop :=
  ∀ a ∈ store.eventual, ∀ b ∈ store.eventual, a.name.dottedName = b.name.dottedName → a = b

theorem distinct_of_nodup {store : Store}
    (h : (store.eventual.map fun decl => decl.name.dottedName).Nodup) : store.Distinct :=
  fun _ ha _ hb hname => List.inj_on_of_nodup_map h ha hb hname

theorem Distinct.eq_of_goesBy {store : Store} (h : store.Distinct) {fullName : String}
    {a b : TypeDecl} (ha : a ∈ store.eventual) (hb : b ∈ store.eventual)
    (haname : a.GoesBy fullName) (hbname : b.GoesBy fullName) : a = b :=
  h a ha b hb (haname.dottedName_eq.trans hbname.dottedName_eq.symm)

namespace Grows

variable {store later : Store} {assemblies : List String} (h : store.Grows assemblies later)

include h

/-- Loading takes definitions from what is pending to what is at hand. -/
theorem mem_eventual {decl : TypeDecl} : decl ∈ later.eventual ↔ decl ∈ store.eventual := by
  rw [Store.mem_eventual, Store.mem_eventual, h.types, h.offers_eq]
  constructor
  · rintro ((hdecl | ⟨assembly, -, hpending⟩) | ⟨assembly, hpending, hdecl⟩)
    · exact Or.inl hdecl
    · exact Or.inr ⟨assembly, hpending⟩
    · exact Or.inr ⟨assembly, ((h.pending assembly).mp hpending).1, hdecl⟩
  · rintro (hdecl | ⟨assembly, hpending, hdecl⟩)
    · exact Or.inl (Or.inl hdecl)
    · by_cases hloaded : assembly ∈ assemblies
      · exact Or.inl (Or.inr ⟨assembly, hloaded, hpending, hdecl⟩)
      · exact Or.inr ⟨assembly, (h.pending assembly).mpr ⟨hpending, hloaded⟩, hdecl⟩

theorem distinct (hdistinct : store.Distinct) : later.Distinct :=
  fun a ha b hb hname => hdistinct a (h.mem_eventual.mp ha) b (h.mem_eventual.mp hb) hname

end Grows

section Finding

variable {store : Store} (hindexed : store.Indexed) (hdistinct : store.Distinct)

include hindexed hdistinct

theorem lookup_eq_some_iff {fullName : String} {decl : TypeDecl} :
    store.lookup fullName = some decl ↔ decl ∈ store.types ∧ decl.GoesBy fullName := by
  refine ⟨hindexed.goesBy_of_lookup, fun ⟨hmem, hname⟩ => ?_⟩
  obtain ⟨found, hfound⟩ := hindexed.exists_lookup hmem hname
  obtain ⟨hfoundMem, hfoundName⟩ := hindexed.goesBy_of_lookup hfound
  rw [hfound, hdistinct.eq_of_goesBy (mem_eventual.mpr (Or.inl hfoundMem))
    (mem_eventual.mpr (Or.inl hmem)) hfoundName hname]

/-- **Finding is a search among all definitions**, loaded or not. -/
theorem find_eq_some_iff {fullName : String} {decl : TypeDecl} :
    (store.find fullName).found? = some decl ↔ decl ∈ store.eventual ∧ decl.GoesBy fullName := by
  unfold find
  cases hlookup : store.lookup fullName with
  | some found =>
      obtain ⟨hfound, hfoundName⟩ := hindexed.goesBy_of_lookup hlookup
      have heventual := mem_eventual.mpr (Or.inl hfound)
      constructor
      · rintro ⟨⟩
        exact ⟨heventual, hfoundName⟩
      · rintro ⟨hdecl, hname⟩
        rw [hdistinct.eq_of_goesBy heventual hdecl hfoundName hname]
  | none =>
      have hgrows := grows_loadEach store.pending store
      show (store.loadEach store.pending).2.1.lookup fullName = some decl ↔ _
      rw [lookup_eq_some_iff (hgrows.indexed hindexed) (hgrows.distinct hdistinct), hgrows.types,
        mem_eventual]
      simp only [and_self_left]

end Finding

/-! ### Resolving -/

/-- Where a reference is looked for: in its scope, if that is registered, and otherwise
everywhere; among the definitions at hand in any case. -/
def searched (store : Store) (name : TypeName) : List TypeDecl :=
  match name.scope.filter store.registered.contains with
  | some assembly =>
    store.types.toList ++ if assembly ∈ store.pending then store.offers assembly else []
  | none => store.eventual

section Searched

variable {store : Store} {name : TypeName} {decl : TypeDecl}

theorem mem_searched_of_scope {assembly : String}
    (hscope : name.scope.filter store.registered.contains = some assembly) :
    decl ∈ store.searched name ↔
      decl ∈ store.types ∨ assembly ∈ store.pending ∧ decl ∈ store.offers assembly := by
  unfold searched
  rw [hscope, List.mem_append, Array.mem_toList_iff]
  by_cases hpending : assembly ∈ store.pending
  · simp [hpending]
  · simp [hpending]

theorem mem_searched_of_mem (h : decl ∈ store.types) : decl ∈ store.searched name := by
  cases hscope : name.scope.filter store.registered.contains with
  | some assembly => exact (mem_searched_of_scope hscope).mpr (Or.inl h)
  | none =>
      unfold searched
      rw [hscope]
      exact mem_eventual.mpr (Or.inl h)

theorem mem_eventual_of_mem_searched (h : decl ∈ store.searched name) :
    decl ∈ store.eventual := by
  cases hscope : name.scope.filter store.registered.contains with
  | some assembly =>
      rw [mem_eventual]
      rcases (mem_searched_of_scope hscope).mp h with hdecl | hdecl
      · exact Or.inl hdecl
      · exact Or.inr ⟨assembly, hdecl⟩
  | none =>
      unfold searched at h
      rwa [hscope] at h

/-- Growing does not take anything out of reach. -/
theorem Grows.mem_searched {later : Store} {assemblies : List String}
    (hgrows : store.Grows assemblies later) (h : decl ∈ store.searched name) :
    decl ∈ later.searched name := by
  cases hscope : name.scope.filter store.registered.contains with
  | some assembly =>
      rw [mem_searched_of_scope (hgrows.registered_eq ▸ hscope), hgrows.types, hgrows.pending,
        hgrows.offers_eq]
      rcases (mem_searched_of_scope hscope).mp h with hdecl | ⟨hpending, hdecl⟩
      · exact Or.inl (Or.inl hdecl)
      · by_cases hloaded : assembly ∈ assemblies
        · exact Or.inl (Or.inr ⟨assembly, hloaded, hpending, hdecl⟩)
        · exact Or.inr ⟨⟨hpending, hloaded⟩, hdecl⟩
  | none =>
      unfold searched at h ⊢
      rw [hscope] at h
      rw [hgrows.registered_eq, hscope]
      exact hgrows.mem_eventual.mpr h

/-- **Resolving is a search among what is within reach of the reference.** -/
theorem resolve_eq_some_iff (hindexed : store.Indexed) (hdistinct : store.Distinct) :
    (store.resolve name).found? = some decl ↔
      decl ∈ store.searched name ∧ decl.GoesBy name.fullName := by
  unfold resolve
  cases hlookup : store.lookup name.fullName with
  | some found =>
      obtain ⟨hfound, hfoundName⟩ := hindexed.goesBy_of_lookup hlookup
      constructor
      · rintro ⟨⟩
        exact ⟨mem_searched_of_mem hfound, hfoundName⟩
      · rintro ⟨hdecl, hname⟩
        rw [hdistinct.eq_of_goesBy (mem_eventual.mpr (Or.inl hfound))
          (mem_eventual_of_mem_searched hdecl) hfoundName hname]
  | none =>
      cases hscope : name.scope.filter store.registered.contains with
      | some assembly =>
          have hgrows := grows_loadEach [assembly] store
          show (store.loadEach [assembly]).2.1.lookup name.fullName = some decl ↔ _
          rw [lookup_eq_some_iff (hgrows.indexed hindexed) (hgrows.distinct hdistinct),
            hgrows.types, mem_searched_of_scope hscope]
          simp
      | none =>
          show (store.find name.fullName).found? = some decl ↔ _
          rw [find_eq_some_iff hindexed hdistinct]
          unfold searched
          rw [hscope]

end Searched

/-! ### Asking again -/

/-- The stores that lookups lead to, one after the other. -/
inductive AskedFrom (store : Store) : Store → Prop where
  | start : AskedFrom store store
  | find {later : Store} (fullName : String) :
      AskedFrom store later → AskedFrom store (later.find fullName).source
  | resolve {later : Store} (name : TypeName) :
      AskedFrom store later → AskedFrom store (later.resolve name).source

theorem exists_grows_find (store : Store) (fullName : String) :
    ∃ assemblies, store.Grows assemblies (store.find fullName).source := by
  unfold find
  split
  · exact ⟨[], .refl store⟩
  · exact ⟨store.pending, grows_loadEach store.pending store⟩

theorem exists_grows_resolve (store : Store) (name : TypeName) :
    ∃ assemblies, store.Grows assemblies (store.resolve name).source := by
  unfold resolve
  split
  · exact ⟨[], .refl store⟩
  · split
    · exact ⟨_, grows_loadEach _ store⟩
    · exact store.exists_grows_find name.fullName

/-- After any lookups, some of the pending assemblies are loaded. -/
theorem AskedFrom.exists_grows {store later : Store} (h : store.AskedFrom later) :
    ∃ assemblies, store.Grows assemblies later := by
  induction h with
  | start => exact ⟨[], .refl store⟩
  | find fullName _ ih =>
      obtain ⟨assemblies, hgrows⟩ := ih
      obtain ⟨others, hfind⟩ := exists_grows_find _ fullName
      exact ⟨assemblies ++ others, hgrows.trans hfind⟩
  | resolve name _ ih =>
      obtain ⟨assemblies, hgrows⟩ := ih
      obtain ⟨others, hresolve⟩ := exists_grows_resolve _ name
      exact ⟨assemblies ++ others, hgrows.trans hresolve⟩

/-- Every definition that the reference could be meant for is within its reach. -/
def Directs (store : Store) (name : TypeName) : Prop :=
  ∀ decl ∈ store.eventual, decl.GoesBy name.fullName → decl ∈ store.searched name

/-- A definition that has been found is at hand. -/
theorem mem_types_of_find {store : Store} (hindexed : store.Indexed) (hdistinct : store.Distinct)
    {fullName : String} {decl : TypeDecl} (hdecl : decl ∈ store.eventual)
    (hname : decl.GoesBy fullName) : decl ∈ (store.find fullName).source.types := by
  unfold find
  cases hlookup : store.lookup fullName with
  | some found =>
      obtain ⟨hfound, hfoundName⟩ := hindexed.goesBy_of_lookup hlookup
      rwa [hdistinct.eq_of_goesBy (mem_eventual.mpr (Or.inl hfound)) hdecl hfoundName hname]
        at hfound
  | none =>
      show decl ∈ (store.loadEach store.pending).2.1.types
      rw [(grows_loadEach store.pending store).types]
      rcases mem_eventual.mp hdecl with hmem | ⟨assembly, hpending, hoffered⟩
      · exact Or.inl hmem
      · exact Or.inr ⟨assembly, hpending, hpending, hoffered⟩

/-- What is within reach of a reference that directs is found whatever was loaded. -/
theorem Directs.found_eq {store later : Store} {name : TypeName} (h : store.Directs name)
    (hindexed : store.Indexed) (hdistinct : store.Distinct) {assemblies : List String}
    (hgrows : store.Grows assemblies later) :
    (later.resolve name).found? = (store.resolve name).found? := by
  refine Option.ext fun decl => ?_
  rw [resolve_eq_some_iff hindexed hdistinct,
    resolve_eq_some_iff (hgrows.indexed hindexed) (hgrows.distinct hdistinct)]
  refine and_congr_left fun hname => ⟨fun hdecl => ?_, hgrows.mem_searched⟩
  exact h decl (hgrows.mem_eventual.mp (mem_eventual_of_mem_searched hdecl)) hname

/-- **A reference has one answer, whatever was asked before, exactly if it directs.** -/
theorem directs_iff {store : Store} (hindexed : store.Indexed) (hdistinct : store.Distinct)
    (name : TypeName) : store.Directs name ↔ ∀ later, store.AskedFrom later →
      (later.resolve name).found? = (store.resolve name).found? := by
  constructor
  · intro h later hlater
    obtain ⟨assemblies, hgrows⟩ := hlater.exists_grows
    exact h.found_eq hindexed hdistinct hgrows
  · intro h decl hdecl hname
    -- ask for the definition itself first: then it is at hand
    obtain ⟨assemblies, hgrows⟩ := store.exists_grows_find name.fullName
    have hfound := h _ (AskedFrom.start.find name.fullName)
    have hlater := (resolve_eq_some_iff (hgrows.indexed hindexed) (hgrows.distinct hdistinct)).mpr
      ⟨mem_searched_of_mem (mem_types_of_find hindexed hdistinct hdecl hname), hname⟩
    exact ((resolve_eq_some_iff hindexed hdistinct).mp (hfound.symm.trans hlater)).1

/-! ### Stores that can be built -/

/-- The stores that come from the empty one by inserting definitions, registering loaders and
loading assemblies. -/
inductive Built : Store → Prop where
  | empty : Built .empty
  | insert {store : Store} (decl : TypeDecl) : Built store → Built (store.insert decl)
  | register {store : Store} (assembly : String) (loader : Loader) :
      Built store → Built (store.register assembly loader)
  | ensureLoaded {store : Store} (assembly : String) :
      Built store → Built (store.ensureLoaded assembly).store

theorem Built.indexed {store : Store} (h : store.Built) : store.Indexed := by
  induction h with
  | empty => constructor <;> constructor <;> simp [Store.empty]
  | insert decl _ ih => exact ih.insert decl
  | register assembly loader _ ih => exact ⟨ih.byFullName, ih.byDottedName⟩
  | ensureLoaded assembly _ ih => exact (grows_ensureLoaded _ assembly).indexed ih

end Store

end ApiSurface
