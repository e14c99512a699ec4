/-
A store of type definitions that loads assemblies when they are needed.

Definitions are appended to an arena and never move.  Two indexes lead from the
full name and from the dotted name to the place in the arena; a later definition
of the same name takes the place of the earlier one in the index.  An assembly is
loaded at most once: its outcome, good or bad, is kept.
-/
import ApiSurface.Source
import Std.Data.HashMap

namespace ApiSurface

/-- Produces the definitions of an assembly. -/
abbrev Loader := String → Except Error (List TypeDecl)

/-- What came of loading an assembly: how many definitions, or why none. -/
abbrev Outcome := Except String Nat

/-- Definitions, their indexes, and the assemblies that can be loaded. -/
structure Store where
  /-- The definitions in the order of insertion. -/
  types : Array TypeDecl
  byFullName : Std.HashMap String Nat
  byDottedName : Std.HashMap String Nat
  /-- The loaders by assembly, in the order of first registration. -/
  loaders : List (String × Loader)
  /-- The outcomes of the assemblies that were asked for, in that order. -/
  outcomes : List (String × Outcome)
  /-- The assemblies whose loader was run, in that order. -/
  runs : List String

namespace Store

/-- The store without definitions and loaders. -/
def empty : Store := ⟨#[], ∅, ∅, [], [], []⟩

/-- Appends a definition, which from now on is the one that its names lead to. -/
def insert (store : Store) (decl : TypeDecl) : Store :=
  { store with
    types := store.types.push decl
    byFullName := store.byFullName.insert decl.fullName store.types.size
    byDottedName := store.byDottedName.insert decl.name.dottedName store.types.size }

/-- Appends definitions in order. -/
def insertAll (store : Store) (decls : List TypeDecl) : Store := decls.foldl insert store

/-- The store of the given definitions. -/
def ofDecls (decls : List TypeDecl) : Store := empty.insertAll decls

/-- Replaces the value of a key, or appends the key if it is new. -/
def putLoader (assembly : String) (loader : Loader) :
    List (String × Loader) → List (String × Loader)
  | [] => [(assembly, loader)]
  | entry :: rest =>
    if entry.1 = assembly then (assembly, loader) :: rest
    else entry :: putLoader assembly loader rest

/-- Registers the loader of an assembly; it runs when the assembly is first needed. -/
def register (store : Store) (assembly : String) (loader : Loader) : Store :=
  { store with loaders := putLoader assembly loader store.loaders }

/-- The definition that a full name leads to, or else the one that it leads to as a dotted
name. -/
def lookup (store : Store) (fullName : String) : Option TypeDecl :=
  (store.byFullName[fullName]? <|> store.byDottedName[fullName]?).bind fun index =>
    store.types[index]?

/-- The full names of all definitions in the order of insertion. -/
def typeNames (store : Store) : List String := store.types.toList.map TypeDecl.fullName

/-- How many definitions there are, shadowed ones included. -/
def size (store : Store) : Nat := store.types.size

/-! ### Loading -/

/-- The outcome of an assembly that was asked for before. -/
def outcome? (store : Store) (assembly : String) : Option Outcome :=
  store.outcomes.lookup assembly

/-- A store after loading, with the outcome and what is to be reported. -/
structure Loading where
  outcome : Outcome
  store : Store
  notices : List Notice

/-- Loads an assembly that was not asked for before, and keeps the outcome. -/
def load (store : Store) (assembly : String) : Loading :=
  match store.loaders.lookup assembly with
  | none =>
    let outcome : Outcome := .error "no loader registered"
    ⟨outcome, { store with outcomes := store.outcomes ++ [(assembly, outcome)] }, []⟩
  | some loader =>
    let notice : Notice := .debug ("loading assembly '" ++ assembly ++ "'")
    let store' := { store with runs := store.runs ++ [assembly] }
    match loader assembly with
    | .ok decls =>
      let outcome : Outcome := .ok decls.length
      ⟨outcome, { store'.insertAll decls with
        outcomes := store.outcomes ++ [(assembly, outcome)] }, [notice]⟩
    | .error error =>
      let outcome : Outcome := .error error.message
      ⟨outcome, { store' with outcomes := store.outcomes ++ [(assembly, outcome)] }, [notice]⟩

/-- Makes sure that an assembly was loaded, running its loader if it is asked for the first
time. -/
def ensureLoaded (store : Store) (assembly : String) : Loading :=
  match store.outcome? assembly with
  | some outcome => ⟨outcome, store, []⟩
  | none => store.load assembly

/-- The error that a bad outcome of an assembly stands for. -/
def loadError (assembly reason : String) : Error := .assemblyLoad assembly reason

/-- Loads the assemblies one after the other and reports each failure.  The first failure is
given back; it does not keep the others from being loaded. -/
def loadEach (store : Store) : List String → Option Error × Store × List Notice
  | [] => (none, store, [])
  | assembly :: rest =>
    let loading := store.ensureLoaded assembly
    let (later?, store', notices) := loadEach loading.store rest
    match loading.outcome with
    | .ok _ => (later?, store', loading.notices ++ notices)
    | .error reason =>
      let error := loadError assembly reason
      (some error, store', loading.notices ++ .warning error.message :: notices)

/-- The assemblies that have a loader. -/
def registered (store : Store) : List String := store.loaders.map Prod.fst

/-- The assemblies that have a loader and were never asked for. -/
def pending (store : Store) : List String :=
  store.registered.filter fun assembly => (store.outcome? assembly).isNone

/-- Loads every assembly that has a loader. -/
def loadAll (store : Store) : Option Error × Store × List Notice :=
  store.loadEach store.registered

/-- The assemblies that were loaded without failure. -/
def loadedAssemblies (store : Store) : List String :=
  (store.outcomes.filter fun entry => entry.2.isOk).map Prod.fst

/-- How often the loader of each assembly was run, for those that were run at all. -/
def runCounts (store : Store) : List (String × Nat) :=
  store.runs.eraseDups.map fun assembly => (assembly, store.runs.count assembly)

/-! ### Finding -/

/-- The definition of a name; everything pending is loaded before the store gives up. -/
def find (store : Store) (fullName : String) : Lookup Store :=
  match store.lookup fullName with
  | some decl => ⟨some decl, store, []⟩
  | none =>
    let (_, store', notices) := store.loadEach store.pending
    ⟨store'.lookup fullName, store', notices⟩

/-- The definition that a reference names.  If its scope can be loaded, that is all that is
loaded. -/
def resolve (store : Store) (name : TypeName) : Lookup Store :=
  match store.lookup name.fullName with
  | some decl => ⟨some decl, store, []⟩
  | none =>
    match name.scope.filter store.registered.contains with
    | some assembly =>
      let (_, store', notices) := store.loadEach [assembly]
      ⟨store'.lookup name.fullName, store', notices⟩
    | none => store.find name.fullName

instance : Source Store where
  find := find
  resolve := resolve
  typeNames := typeNames

end Store

end ApiSurface
