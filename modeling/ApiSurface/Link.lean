/-
Joining a surface with its prose.

The type and every member it lists are looked up by their documentation
identifiers.  Inherited members carry the identifier of their declaring type, so
they find the prose of the base.
-/
import ApiSurface.Prose
import ApiSurface.Surface

namespace ApiSurface

/-- A type or a member together with its prose, if there is any. -/
structure Link where
  /-- The section of the member; none for the type itself. -/
  kind? : Option MemberKind
  isStatic : Bool
  docId : String
  declaration : String
  entry? : Option Prose.Entry
  deriving DecidableEq, Repr

namespace Surface

/-- The link of the type itself. -/
def ownLink (surface : Surface) (index : Prose.Index) : Link :=
  ⟨none, false, surface.docId, surface.declaration, index.get? surface.docId⟩

/-- The links of the members of a section. -/
def sectionLinks (index : Prose.Index) (part : Section) : List Link :=
  part.members.map fun member =>
    ⟨some part.kind, part.isStatic, member.docId, member.declaration, index.get? member.docId⟩

/-- The type followed by its members in order; a hidden type has no links. -/
def links (surface : Surface) (index : Prose.Index) : List Link :=
  if surface.isHidden then []
  else surface.ownLink index :: surface.sections.flatMap (sectionLinks index)

/-- The links without prose. -/
def undocumented (surface : Surface) (index : Prose.Index) : List Link :=
  (surface.links index).filter fun link => link.entry?.isNone

end Surface

end ApiSurface
