/-
Who can see a declaration.

The six levels are ordered from the least to the most visible, so that the more
visible of two accessors can be chosen by comparing them.
-/
import ApiSurface.AttributeWord

namespace ApiSurface

/-- Who can see a type or a member, from the fewest to all. -/
inductive Access where
  /-- The declaring type alone. -/
  | declarer
  /-- Derived types of the same assembly. -/
  | familyAndAssembly
  /-- The assembly. -/
  | assembly
  /-- Derived types. -/
  | family
  /-- Derived types and the assembly. -/
  | familyOrAssembly
  /-- Everyone. -/
  | everyone
  deriving DecidableEq, Repr

namespace Access

/-- The keywords that declare the level. -/
def keyword : Access → String
  | declarer => "private"
  | familyAndAssembly => "private protected"
  | assembly => "internal"
  | family => "protected"
  | familyOrAssembly => "protected internal"
  | everyone => "public"

/-- The place of a level in the order of visibility. -/
def level : Access → Nat
  | declarer => 0
  | familyAndAssembly => 1
  | assembly => 2
  | family => 3
  | familyOrAssembly => 4
  | everyone => 5

/-- Code outside the assembly can see the declaration. -/
def isExternal : Access → Bool
  | family | familyOrAssembly | everyone => true
  | declarer | familyAndAssembly | assembly => false

/-- The declaration is not shown, given whether private ones are left out. -/
def isHidden (ignorePrivate : Bool) (access : Access) : Bool :=
  ignorePrivate && !access.isExternal

/-- One more than the level of a shown declaration, and zero for a hidden one. -/
def rank (ignorePrivate : Bool) (access : Access) : Nat :=
  if access.isHidden ignorePrivate then 0 else access.level + 1

/-- The access of a type, from the visibility in its word. -/
def ofTypeWord (word : AttributeWord) : Access :=
  let visibility := TypeWord.visibility word
  if visibility = TypeWord.publicTop ∨ visibility = TypeWord.nestedPublic then everyone
  else if visibility = TypeWord.nestedPrivate then declarer
  else if visibility = TypeWord.nestedFamily then family
  else if visibility = TypeWord.nestedFamilyAndAssembly then familyAndAssembly
  else if visibility = TypeWord.nestedFamilyOrAssembly then familyOrAssembly
  else assembly

/-- The access that the low bits of a method's or a field's word stand for. -/
def ofMemberBits (bits : AttributeWord) : Access :=
  if bits = MethodWord.publicAccess then everyone
  else if bits = MethodWord.familyAccess then family
  else if bits = MethodWord.familyOrAssemblyAccess then familyOrAssembly
  else if bits = MethodWord.assemblyAccess then assembly
  else if bits = MethodWord.familyAndAssemblyAccess then familyAndAssembly
  else declarer

/-- The access of a method, from its word. -/
def ofMethodWord (word : AttributeWord) : Access := ofMemberBits (MethodWord.access word)

/-- The access of a field, from its word. -/
def ofFieldWord (word : AttributeWord) : Access := ofMemberBits (FieldWord.access word)

end Access

end ApiSurface
