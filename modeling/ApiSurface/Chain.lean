/-
Members gathered along an inheritance chain.

A chain is a type and its ancestors, nearest first, each seen through the binding
of the base reference that led to it.  Members are gathered level by level.  A
level gives up what is hidden, never listed or of the wrong kind of static, and
above the root what is private; of the rest, a member is dropped when a level
nearer to the root has already given one with the same key.
-/
import ApiSurface.Member.Basic

namespace ApiSurface

/-- A type on an inheritance chain and the binding it is seen through. -/
structure Level where
  decl : TypeDecl
  binding : Binding
  deriving Repr

/-- A type and its resolved ancestors, nearest first. -/
structure Chain where
  root : TypeDecl
  ancestors : List Level
  deriving Repr

namespace Level

/-- The fields of a level, hidden ones included. -/
def fields (level : Level) (ignorePrivate : Bool) : List ShownField :=
  level.decl.fields.map (.of (.of level.decl) level.binding ignorePrivate)

/-- The properties of a level, hidden ones included. -/
def properties (level : Level) (ignorePrivate : Bool) : List ShownProperty :=
  level.decl.properties.map (.of level.decl (.of level.decl) level.binding ignorePrivate)

/-- The events of a level, hidden ones included. -/
def events (level : Level) (ignorePrivate : Bool) : List ShownEvent :=
  level.decl.events.map (.of level.decl (.of level.decl) level.binding ignorePrivate)

/-- The methods of a level, accessors and hidden ones included. -/
def methods (level : Level) (ignorePrivate : Bool) : List ShownMethod :=
  level.decl.methods.map (.of (.of level.decl) level.decl.isInterface level.binding ignorePrivate)

/-- Every member of a level: fields, properties, events and then methods. -/
def members (level : Level) (ignorePrivate : Bool) : List Member :=
  (level.fields ignorePrivate).map .field ++ (level.properties ignorePrivate).map .property
    ++ (level.events ignorePrivate).map .event ++ (level.methods ignorePrivate).map .method

/-- The members of one kind, before anything is dropped. -/
def candidates (level : Level) (kind : MemberKind) (ignorePrivate : Bool) : List Member :=
  match kind with
  | .field => (level.fields ignorePrivate).map .field
  | .property => (level.properties ignorePrivate).map .property
  | .event => (level.events ignorePrivate).map .event
  | .method =>
    ((level.methods ignorePrivate).filter fun m => !m.isConstructor && !m.isOperator).map .method
  | .constructor => ((level.methods ignorePrivate).filter ShownMethod.isConstructor).map .method
  | .operator => ((level.methods ignorePrivate).filter ShownMethod.isOperator).map .method

end Level

/-- The member can be listed at the given depth of a chain. -/
def Member.isEligible (depth : Nat) (wantStatic : Bool) (member : Member) : Bool :=
  !member.isHidden && !member.isUnlisted && member.isStatic = wantStatic
    && (depth = 0 || member.access ≠ .declarer)

namespace Chain

/-- The levels that members of a kind are gathered from: the root alone for constructors. -/
def levels (chain : Chain) (kind : MemberKind) : List Level :=
  ⟨chain.root, .empty⟩ :: if kind.isInherited then chain.ancestors else []

/-- Gathers from the levels at `depth` and above, `seen` being the keys given by those below. -/
def gather (kind : MemberKind) (wantStatic ignorePrivate : Bool) (depth : Nat)
    (seen : List String) : List Level → List Member
  | [] => []
  | level :: above =>
    let kept := (level.candidates kind ignorePrivate).filter fun member =>
      member.isEligible depth wantStatic && !seen.contains member.identityKey
    kept ++ gather kind wantStatic ignorePrivate (depth + 1)
      (seen ++ kept.map Member.identityKey) above

/-- The members of a kind that a chain shows, those of the root first. -/
def members (chain : Chain) (kind : MemberKind) (wantStatic ignorePrivate : Bool) : List Member :=
  gather kind wantStatic ignorePrivate 0 [] (chain.levels kind)

end Chain

end ApiSurface
