/-
Members of any kind.
-/
import ApiSurface.Member.Compound
import ApiSurface.Member.Field

namespace ApiSurface

/-- The kinds of members that a type lists. -/
inductive MemberKind where
  | field
  | property
  | event
  | method
  | constructor
  | operator
  deriving DecidableEq, Repr

namespace MemberKind

/-- The name of a kind. -/
def text : MemberKind → String
  | field => "field"
  | property => "property"
  | event => "event"
  | method => "method"
  | constructor => "constructor"
  | operator => "operator"

/-- Members of this kind are taken over from base types. -/
def isInherited (kind : MemberKind) : Bool := kind ≠ constructor

end MemberKind

/-- A shown member. -/
inductive Member where
  | field (field : ShownField)
  | property (property : ShownProperty)
  | event (event : ShownEvent)
  | method (method : ShownMethod)
  deriving DecidableEq, Repr

namespace Member

/-- The displayed name. -/
def name : Member → String
  | field f => f.name
  | property p => p.name
  | event e => e.name
  | method m => m.name

/-- The kind under which a member is listed. -/
def kind : Member → MemberKind
  | field _ => .field
  | property _ => .property
  | event _ => .event
  | method m => if m.isConstructor then .constructor else if m.isOperator then .operator else .method

/-- Who can see the member. -/
def access : Member → Access
  | field f => f.access
  | property p => p.access
  | event e => e.access
  | method m => m.access

/-- The keywords of the modifier. -/
def modifierText : Member → String
  | field f => f.modifier.keyword
  | property p => p.modifier.keyword
  | event e => e.modifier.keyword
  | method m => m.modifier.keyword

/-- The member belongs to the type and not to an instance. -/
def isStatic : Member → Bool
  | field f => f.isStatic
  | property p => p.isStatic
  | event e => e.isStatic
  | method m => m.isStatic

/-- The declaring type. -/
def owner : Member → ShownOwner
  | field f => f.owner
  | property p => p.owner
  | event e => e.owner
  | method m => m.owner

/-- The member as it is declared in source. -/
def declaration : Member → String
  | field f => f.declaration
  | property p => p.declaration
  | event e => e.declaration
  | method m => m.declaration

/-- The member is not shown: it is too private, or parts of it are missing. -/
def isHidden : Member → Bool
  | field f => f.isHidden
  | property p => p.isHidden
  | event e => e.isHidden
  | method m => m.isHidden

/-- The member is never listed: generated fields, type initializers and accessors. -/
def isUnlisted : Member → Bool
  | field f => f.isGenerated
  | property _ => false
  | event _ => false
  | method m => m.isUnlisted

/-- The key under which a member hides inherited ones. -/
def identityKey : Member → String
  | field f => f.identityKey
  | property p => p.identityKey
  | event e => e.identityKey
  | method m => m.identityKey

/-- The documentation identifier. -/
def docId : Member → String
  | field f => f.docId
  | property p => p.docId
  | event e => e.docId
  | method m => m.docId

end Member

end ApiSurface
