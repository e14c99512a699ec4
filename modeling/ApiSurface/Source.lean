/-
Sources of type definitions.

A source finds a definition by its full name and resolves references.  Finding
may change the source, because it may load more definitions, so a lookup gives
back the source as it is afterwards.  An `Inquiry` runs lookups one after the
other and keeps the notices of all of them in order.
-/
import ApiSurface.Notice

namespace ApiSurface

/-- The result of looking a name up: what was found, the source afterwards, and what is to be
reported. -/
structure Lookup (σ : Type) where
  found? : Option TypeDecl
  source : σ
  notices : List Notice

/-- Where definitions come from. -/
class Source (σ : Type) where
  /-- The definition of a full name. -/
  find : σ → String → Lookup σ
  /-- The definition that a reference names. -/
  resolve : σ → TypeName → Lookup σ
  /-- The full names of the definitions at hand. -/
  typeNames : σ → List String

/-! ### A fixed collection of definitions -/

/-- Definitions that are all at hand and found by their exact full name. -/
structure Shelf where
  decls : List TypeDecl

/-- The last definition with the full name. -/
def Shelf.find? (shelf : Shelf) (fullName : String) : Option TypeDecl :=
  shelf.decls.reverse.find? fun decl => decl.fullName = fullName

instance : Source Shelf where
  find shelf fullName := ⟨shelf.find? fullName, shelf, []⟩
  resolve shelf name := ⟨shelf.find? name.fullName, shelf, []⟩
  typeNames shelf := shelf.decls.map TypeDecl.fullName

/-! ### Inquiries -/

/-- The source of an inquiry and what has been reported so far. -/
structure Session (σ : Type) where
  source : σ
  journal : List Notice

/-- A computation that looks definitions up, reports, and may fail. -/
abbrev Inquiry (σ : Type) := ExceptT Error (StateM (Session σ))

namespace Inquiry

variable {σ : Type}

/-- Adds notices to the journal. -/
def report (notices : List Notice) : Inquiry σ Unit :=
  modify fun session => { session with journal := session.journal ++ notices }

/-- Runs one lookup on the source. -/
def look (lookup : σ → Lookup σ) : Inquiry σ (Option TypeDecl) := do
  let session ← get
  let result := lookup session.source
  set (⟨result.source, session.journal ++ result.notices⟩ : Session σ)
  return result.found?

/-- The definition of a full name. -/
def find [Source σ] (fullName : String) : Inquiry σ (Option TypeDecl) :=
  look fun source => Source.find source fullName

/-- The definition that a reference names. -/
def resolve [Source σ] (name : TypeName) : Inquiry σ (Option TypeDecl) :=
  look fun source => Source.resolve source name

/-- The result of an inquiry as a value, so that a failure does not stop what follows. -/
def attempt {α : Type} (inquiry : Inquiry σ α) : Inquiry σ (Except Error α) :=
  ExceptT.lift (ExceptT.run inquiry)

end Inquiry

end ApiSurface
