/-
How identifiers write the names of members.

A member that implements an interface explicitly is named after it, so its name
has dots, and angle brackets if the interface is generic.  In an identifier both
have a part of their own.  Documentation files therefore write the dot of a name
as a hash and its brackets as braces, for members of every kind.

Only the identifiers of methods do so.  Those of fields, properties and events
take the name as it is, and differ from what a documentation file has exactly if
there is something in the name to be rewritten.
-/
import ApiSurface.Proofs.MemberIdentity
import ApiSurface.Proofs.OwnMembers

namespace ApiSurface

open DocId

/-! ### Documented names -/

/-- The characters that are not written as they are. -/
def rewrittenChars : List Char := ['.', '<', '>']

/-- The name as documentation files write it. -/
def documented (name : String) : String := String.ofList (name.toList.map documentedChar)

theorem documentedChar_eq_self_iff {c : Char} : documentedChar c = c ↔ c ∉ rewrittenChars := by
  unfold documentedChar rewrittenChars
  by_cases hdot : c = '.'
  · simp [hdot]
  · by_cases hopen : c = '<'
    · simp [hopen]
    · by_cases hclose : c = '>'
      · simp [hclose]
      · simp [hdot, hopen, hclose]

theorem documented_eq_self_iff {name : String} :
    documented name = name ↔ ∀ c ∈ name.toList, c ∉ rewrittenChars := by
  rw [← String.toList_inj, documented, String.toList_ofList]
  conv_lhs => rhs; rw [← List.map_id name.toList]
  rw [List.map_inj_left]
  exact forall₂_congr fun c _ => documentedChar_eq_self_iff

/-! ### The parts of an identifier -/

namespace Member

/-- The name as the identifier of the member has it. -/
def idName : Member → String
  | field f => f.name
  | property p => p.name
  | event e => e.name
  | method m => m.documentedName

/-- What stands behind the name in an identifier: the number of generic parameters, the types of
the parameters and the target of a conversion. -/
def idEnd : Member → String
  | field _ => ""
  | property p => declaredParameters p.parameters
  | event _ => ""
  | method m => m.arityText ++ declaredParameters m.parameters
      ++ if m.isConversion then "~" ++ reference m.returnType.declared else ""

theorem docId_eq_name_append_end (a : Member) :
    a.docId = ofMember a.idKind a.owner a.idName ++ a.idEnd := by
  cases a with
  | field f => exact (String.append_empty ..).symm
  | property p => rfl
  | event e => exact (String.append_empty ..).symm
  | method m =>
      simp only [docId, ShownMethod.docId, ofMember, idKind, owner, idName, idEnd,
        String.append_assoc]

theorem idName_eq_documented_iff (a : Member) :
    a.idName = documented a.metadataName ↔
      a.idKind = .method ∨ ∀ c ∈ a.metadataName.toList, c ∉ rewrittenChars := by
  have hplain : ∀ name : String,
      name = documented name ↔ ∀ c ∈ name.toList, c ∉ rewrittenChars := by
    intro name
    rw [eq_comm, documented_eq_self_iff]
  cases a with
  | field f => simpa [idKind, idName, metadataName] using hplain f.name
  | property p => simpa [idKind, idName, metadataName] using hplain p.name
  | event e => simpa [idKind, idName, metadataName] using hplain e.name
  | method m =>
      have hname : m.documentedName = documented m.metadataName := by
        rw [← String.toList_inj, m.toList_documentedName, documented, String.toList_ofList]
      simpa [idKind, idName, metadataName] using hname

end Member

/-! ### Records of declarations -/

namespace Declared

/-- The name in the metadata. -/
def name : Declared → String
  | field f => f.name
  | property p => p.name
  | event e => e.name
  | method m => m.name

/-- The declaration as a member of `owner`, seen through a binding.  Accessors are methods of
`decl`. -/
def record (decl : TypeDecl) (owner : ShownOwner) (binding : Binding) (ignorePrivate : Bool) :
    Declared → Member
  | field f => .field (.of owner binding ignorePrivate f)
  | property p => .property (.of decl owner binding ignorePrivate p)
  | event e => .event (.of decl owner binding ignorePrivate e)
  | method m => .method (.of owner decl.isInterface binding ignorePrivate m)

variable (decl : TypeDecl) (owner : ShownOwner) (binding : Binding) (ignorePrivate : Bool)
  (item : Declared)

theorem metadataName_record :
    (item.record decl owner binding ignorePrivate).metadataName = item.name := by
  cases item <;> rfl

theorem owner_record : (item.record decl owner binding ignorePrivate).owner = owner := by
  cases item <;> rfl

/-- **Only methods are documented under every name.**  Between the declaring type and what stands
behind the name, the identifier of a member has the name as documentation files write it, exactly
if the member is a method, or its name has neither dots nor angle brackets. -/
theorem docId_documents_name_iff :
    (item.record decl owner binding ignorePrivate).docId
        = (item.record decl owner binding ignorePrivate).idKind.letter ++ ":" ++ owner.mangledName
          ++ "." ++ documented item.name ++ (item.record decl owner binding ignorePrivate).idEnd ↔
      (item.record decl owner binding ignorePrivate).idKind = .method ∨
        ∀ c ∈ item.name.toList, c ∉ ['.', '<', '>'] := by
  have hname := (item.record decl owner binding ignorePrivate).idName_eq_documented_iff
  rw [metadataName_record] at hname
  rw [Member.docId_eq_name_append_end, owner_record, ofMember]
  refine Iff.trans ?_ hname
  simp

end Declared

end ApiSurface
