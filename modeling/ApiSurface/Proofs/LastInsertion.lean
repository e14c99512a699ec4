/-
The indexes of a store and the order of insertion.

Definitions come into a store in two ways, by hand and from loaders, and either
may happen at any time.  Neither changes anything but by appending definitions, so
the contents of a store are those of a store that was filled with the same
definitions in the same order: `Store.Leads.contents_eq`.  What the indexes lead
to has to be found out for such stores only.  Each of them leads from a name to
the last definition that has it, since a later definition takes the place of an
earlier one in the index and not in the store.

A full name may be the dotted name of another definition.  `Store.lookup_eq_last`
says which of the two is found: the one with the full name, even if the other was
inserted after it.
-/
import ApiSurface.Proofs.StoreHistory

namespace ApiSurface

/-- The last of the definitions that has the name as its key. -/
def lastBy (key : TypeDecl → String) (name : String) (decls : List TypeDecl) : Option TypeDecl :=
  decls.reverse.find? fun decl => key decl = name

theorem lastBy_append {key : TypeDecl → String} {name : String} (decls others : List TypeDecl) :
    lastBy key name (decls ++ others) = (lastBy key name others).or (lastBy key name decls) := by
  simp [lastBy]

theorem lastBy_eq_none_iff {key : TypeDecl → String} {name : String} {decls : List TypeDecl} :
    lastBy key name decls = none ↔ ∀ decl ∈ decls, key decl ≠ name := by
  simp [lastBy]

namespace Store

/-! ### One index -/

theorem IndexedBy.lt_size {key : TypeDecl → String} {index : Std.HashMap String Nat}
    {types : Array TypeDecl} (h : IndexedBy key index types) {name : String} {place : Nat}
    (hplace : index[name]? = some place) : place < types.size := by
  obtain ⟨decl, hdecl, -⟩ := h.sound name place hplace
  exact (Array.getElem?_eq_some_iff.mp hdecl).1

/-- The index leads from each name to the last definition that has it. -/
def LeadsToLast (key : TypeDecl → String) (index : Std.HashMap String Nat)
    (types : Array TypeDecl) : Prop :=
  ∀ name, (index[name]?.bind fun place => types[place]?) = lastBy key name types.toList

theorem LeadsToLast.push {key : TypeDecl → String} {index : Std.HashMap String Nat}
    {types : Array TypeDecl} (h : LeadsToLast key index types)
    (hindex : IndexedBy key index types) (decl : TypeDecl) :
    LeadsToLast key (index.insert (key decl) types.size) (types.push decl) := by
  intro name
  rw [Array.toList_push, lastBy_append, Std.HashMap.getElem?_insert]
  by_cases hname : key decl = name
  · simp [lastBy, hname]
  · have hplace : ∀ place, index[name]? = some place →
        (types.push decl)[place]? = types[place]? := by
      intro place hplace
      have hlt := hindex.lt_size hplace
      rw [Array.getElem?_push_lt hlt, Array.getElem?_eq_getElem hlt]
    have hskip : lastBy key name [decl] = none := by
      simp [lastBy, hname]
    rw [if_neg (by simpa using hname), hskip, Option.none_or, ← h name]
    exact Option.bind_congr hplace

/-! ### Stores that were filled in order -/

theorem ofDecls_concat (decls : List TypeDecl) (decl : TypeDecl) :
    ofDecls (decls ++ [decl]) = (ofDecls decls).insert decl :=
  insertAll_append empty decls [decl]

theorem toList_types_ofDecls (decls : List TypeDecl) : (ofDecls decls).types.toList = decls :=
  (insertAll_spec decls empty).1

theorem indexed_ofDecls (decls : List TypeDecl) : (ofDecls decls).Indexed :=
  (insertAll_spec decls empty).2 Built.empty.indexed

theorem leadsToLast_ofDecls (decls : List TypeDecl) :
    LeadsToLast TypeDecl.fullName (ofDecls decls).byFullName (ofDecls decls).types
      ∧ LeadsToLast (fun decl => decl.name.dottedName) (ofDecls decls).byDottedName
        (ofDecls decls).types := by
  induction decls using List.reverseRecOn with
  | nil => simp [LeadsToLast, ofDecls, insertAll, empty, lastBy]
  | append_singleton decls decl ih =>
      have hindexed := indexed_ofDecls decls
      rw [ofDecls_concat]
      exact ⟨ih.1.push hindexed.byFullName decl, ih.2.push hindexed.byDottedName decl⟩

/-- A full name goes before a dotted one, and of equal names the last. -/
theorem lookup_ofDecls (decls : List TypeDecl) (name : String) :
    (ofDecls decls).lookup name = (lastBy TypeDecl.fullName name decls).or
      (lastBy (fun decl => decl.name.dottedName) name decls) := by
  obtain ⟨hfull, hdotted⟩ := leadsToLast_ofDecls decls
  have hfull := hfull name
  have hdotted := hdotted name
  rw [toList_types_ofDecls] at hfull hdotted
  unfold lookup
  rw [← hfull, ← hdotted]
  cases hplace : (ofDecls decls).byFullName[name]? with
  | none => rfl
  | some place =>
      obtain ⟨decl, hdecl, -⟩ := (indexed_ofDecls decls).byFullName.sound name place hplace
      show (ofDecls decls).types[place]? = ((ofDecls decls).types[place]?).or _
      rw [hdecl]
      rfl

/-! ### Every store -/

/-- **Whatever its history, a store holds what was inserted, in that order.** -/
theorem Leads.contents_eq {store : Store} {calls : List Call} {decls : List TypeDecl}
    (h : empty.Leads calls decls store) : store.contents = ofDecls decls := by
  refine h.induct nodup_registered_empty (motive := fun _ decls store =>
    store.contents = ofDecls decls) rfl ?insert ?register ?ask ?reorder
  case insert =>
    intro calls decls store decl ih
    rw [ofDecls_concat, ← ih]
    rfl
  case register => exact fun _ _ ih => ih
  case ask =>
    intro calls decls store call _ _ ih
    rw [contents_loaded, ih]
    exact (insertAll_append empty decls _).symm
  case reorder => exact fun _ ih => ih

theorem Leads.toList_types {store : Store} {calls : List Call} {decls : List TypeDecl}
    (h : empty.Leads calls decls store) : store.types.toList = decls := by
  have htypes : store.contents.types.toList = decls := by
    rw [h.contents_eq, toList_types_ofDecls]
  exact htypes

theorem Leads.indexed {store : Store} {calls : List Call} {decls : List TypeDecl}
    (h : empty.Leads calls decls store) : store.Indexed := by
  have hindexed : store.contents.Indexed := h.contents_eq ▸ indexed_ofDecls decls
  exact ⟨hindexed.byFullName, hindexed.byDottedName⟩

theorem Leads.lookup_eq {store : Store} {calls : List Call} {decls : List TypeDecl}
    (h : empty.Leads calls decls store) (name : String) :
    store.lookup name = (lastBy TypeDecl.fullName name decls).or
      (lastBy (fun decl => decl.name.dottedName) name decls) := by
  show store.contents.lookup name = _
  rw [h.contents_eq, lookup_ofDecls]

/-- A definition that no later one of its name takes the place of is the last of its name. -/
theorem lastBy_eq_of_unshadowed {key : TypeDecl → String} {decl : TypeDecl}
    (before : List TypeDecl) {later : List TypeDecl}
    (hlater : ∀ other ∈ later, key other ≠ key decl) :
    lastBy key (key decl) (before ++ decl :: later) = some decl := by
  have hskip : lastBy key (key decl) later = none := lastBy_eq_none_iff.mpr hlater
  have hself : lastBy key (key decl) [decl] = some decl := by
    simp [lastBy]
  rw [lastBy_append, ← List.singleton_append, lastBy_append, hskip, hself]
  rfl

/-- **The indexes follow the store.**  Whatever calls a store has had, all places in its indexes are
places in the store.  A name leads to the last definition that was inserted with it as its full
name, or else to the last one with it as its dotted name, or else nowhere.  So each definition is
found by its full name until another one of that name is inserted, and the names of all are listed
in the order of insertion. -/
theorem lookup_eq_last {store : Store} {calls : List Call} {decls : List TypeDecl}
    (h : empty.Leads calls decls store) :
    (∀ (name : String) (place : Nat), store.byFullName[name]? = some place → place < store.size) ∧
    (∀ (name : String) (place : Nat), store.byDottedName[name]? = some place → place < store.size) ∧
    (∀ name, store.lookup name = (lastBy TypeDecl.fullName name decls).or
      (lastBy (fun decl => decl.name.dottedName) name decls)) ∧
    (∀ before decl later, decls = before ++ decl :: later →
      (∀ other ∈ later, other.fullName ≠ decl.fullName) →
        store.lookup decl.fullName = some decl) ∧
    store.typeNames = decls.map TypeDecl.fullName := by
  refine ⟨fun _ _ => h.indexed.byFullName.lt_size, fun _ _ => h.indexed.byDottedName.lt_size,
    h.lookup_eq, ?_, ?_⟩
  · rintro before decl later rfl hlater
    rw [h.lookup_eq, lastBy_eq_of_unshadowed before hlater]
    rfl
  · unfold typeNames
    rw [h.toList_types]

/-- `Part` of the namespace `Game.Body` is found by its full name, although `Part` inside of
`Game.Body` has the same dotted name and was inserted later. -/
theorem lookup_eq_last_part :
    let part := TypeDecl.bare (.top "Game.Body" "Part" none)
    let inner := TypeDecl.bare (.nested (.top "Game" "Body" none) "Part" none)
    let store := [Call.insert part, Call.insert inner].foldl after empty
    store.lookup "Game.Body.Part" = some part ∧ store.lookup "Game.Body/Part" = some inner
      ∧ store.typeNames = ["Game.Body.Part", "Game.Body/Part"] := by
  intro part inner store
  have h : empty.Leads [.insert part, .insert inner] [part, inner] store :=
    (Leads.start.call _).call _
  obtain ⟨-, -, hlookup, -, hnames⟩ := lookup_eq_last h
  refine ⟨?_, ?_, hnames⟩
  · rw [hlookup]
    rfl
  · rw [hlookup]
    rfl

end Store

end ApiSurface
