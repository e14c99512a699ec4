/-
The prose of a documentation file.

A documentation file lists members by their documentation identifiers.  The index
keeps one entry for each identifier, the last one of the file.
-/
import ApiSurface.Error
import ApiSurface.Markup.Attribute
import ApiSurface.Notice
import ApiSurface.Text.Words

namespace ApiSurface.Prose

open Markup

/-- The prose about one identifier. -/
structure Entry where
  id : String
  /-- Everything inside the member, trimmed. -/
  markup : String
  /-- The text of the first summary with its white space collapsed, or nothing. -/
  summary : String
  deriving DecidableEq, Repr

/-- The entries of a documentation file. -/
structure Index where
  assembly : String
  /-- One entry for each identifier, in the order in which they first occur. -/
  entries : List Entry
  deriving DecidableEq, Repr

namespace Index

/-- The index of a file that documents nothing. -/
def empty : Index := ⟨"", []⟩

/-- Replaces the entry with the same identifier, or appends the entry if there is none. -/
def putEntry (entry : Entry) : List Entry → List Entry
  | [] => [entry]
  | first :: rest => if first.id = entry.id then entry :: rest else first :: putEntry entry rest

/-- Files an entry under its identifier. -/
def put (index : Index) (entry : Entry) : Index :=
  { index with entries := putEntry entry index.entries }

/-- The entry of an identifier. -/
def get? (index : Index) (id : String) : Option Entry :=
  index.entries.find? fun entry => entry.id = id

/-- How many identifiers are documented. -/
def size (index : Index) : Nat := index.entries.length

/-- The entries in the order of their identifiers. -/
def sorted (index : Index) : List Entry := index.entries.mergeSort fun a b => a.id ≤ b.id

end Index

/-! ### Reading a file -/

/-- The element that says which assembly is documented. -/
def assemblyTag : List Char := "assembly".toList

/-- The element with the name of the assembly, and the attribute with the identifier of a
member. -/
def nameTag : List Char := "name".toList

/-- The element with the prose about one identifier. -/
def memberTag : List Char := "member".toList

/-- The element with the short description of a member. -/
def summaryTag : List Char := "summary".toList

/-- The identifier that a member element names. -/
def memberId (content : List Char) : Except ProseFault String :=
  match attributeValue nameTag (content.drop (tagName content).length) with
  | none => .error .illFormed
  | some none => .error .unnamedMember
  | some (some raw) =>
    match unescape raw with
    | some id => .ok (String.ofList id)
    | none => .error .illFormed

/-- The text of the first summary that the reader meets, its white space collapsed. -/
def summaryFrom (reader : Reader) : Except ProseFault String :=
  match _hstep : reader.step with
  | .done => .ok ""
  | .broken => .error .illFormed
  | .event _ event next =>
    match event with
    | .start content =>
      if tagName content = summaryTag then
        match elementText summaryTag next with
        | some (text, _) => .ok (Text.collapse text)
        | none => .error .illFormed
      else summaryFrom next
    | .empty _ => summaryFrom next
    | .finish _ => summaryFrom next
    | .other => summaryFrom next
  termination_by reader.rest.length
  decreasing_by all_goals exact Reader.step_length _hstep

/-- The entry of a member with the given raw text inside. -/
def entryOf (id : String) (inside : List Char) : Except ProseFault Entry := do
  let summary ← summaryFrom (Reader.start (String.ofList inside))
  return ⟨id, String.ofList (Text.trim inside), summary⟩

/-- Reads the rest of a file; `inAssembly` says whether the reader is inside the element that
names the assembly. -/
def readFrom (inAssembly : Bool) (index : Index) (reader : Reader) : Except ProseFault Index :=
  match _hstep : reader.step with
  | .done => .ok index
  | .broken => .error .illFormed
  | .event _ event next =>
    match event with
    | .start content =>
      let tag := tagName content
      if tag = assemblyTag then readFrom true index next
      else if tag = nameTag ∧ inAssembly then
        match _htext : elementText nameTag next with
        | none => .error .illFormed
        | some (text, after) =>
          readFrom inAssembly { index with assembly := String.ofList (Text.trim text) } after
      else if tag = memberTag then
        match memberId content with
        | .error fault => .error fault
        | .ok id =>
          match _htext : elementText memberTag next with
          | none => .error .illFormed
          | some (text, after) =>
            match entryOf id text with
            | .error fault => .error fault
            | .ok entry => readFrom inAssembly (index.put entry) after
      else readFrom inAssembly index next
    | .empty content =>
      if tagName content = memberTag then
        match memberId content with
        | .error fault => .error fault
        | .ok id => readFrom inAssembly (index.put ⟨id, "", ""⟩) next
      else readFrom inAssembly index next
    | .finish name =>
      readFrom (if name = assemblyTag then false else inAssembly) index next
    | .other => readFrom inAssembly index next
  termination_by reader.rest.length
  decreasing_by
    all_goals have h₁ := Reader.step_length _hstep
    all_goals first
      | exact h₁
      | exact Nat.lt_trans (elementText_length _htext) h₁

/-- Reads a documentation file. -/
def Index.read (text : String) : Except ProseFault Index :=
  readFrom false .empty (Reader.start text)

/-- Reads a documentation file from its contents, which are missing if it cannot be opened. -/
def Index.load (contents? : Option String) : Except ProseFault Index :=
  match contents? with
  | none => .error .unreadable
  | some text => Index.read text

/-- What is reported about a file that was read. -/
def Index.notice (index : Index) : Notice :=
  .debug ("Parsed " ++ naturalText index.size ++ " documentation entries for assembly '"
    ++ index.assembly ++ "'")

end ApiSurface.Prose
