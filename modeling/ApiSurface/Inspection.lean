/-
Inspecting types.

An inspection finds a definition, climbs its chain of base types and gives back
its surface, or one section of it.  The climb ends where a type has no base or
where a base cannot be resolved; it fails when the chain has more base references
than the options allow, which also stops cyclic chains.
-/
import ApiSurface.Source

namespace ApiSurface.Inspection

variable {σ : Type} [Source σ]

/-! ### The chain -/

/-- What is reported about a base reference that leads nowhere: the roots are expected to. -/
def unresolvedBase (base : Signature) : Notice :=
  if TypeDecl.rootNames.contains base.rawName then
    .debug ("Inheritance chain ends at unresolved " ++ base.rawName)
  else
    .warning ("Could not resolve base type " ++ base.rawName ++ ", stopping the inheritance walk")

/-- The definition of a base reference. -/
def resolveBase (base : Signature) : Inquiry σ (Option TypeDecl) := do
  let found? ← match base.typeName? with
    | some name => Inquiry.resolve name
    | none => pure none
  if found?.isNone then Inquiry.report [unresolvedBase base]
  return found?

/-- The levels above a type with the given base, which is seen through `binding`.  At most
`remaining` more base references are followed of the `limit` that were allowed. -/
def climb (limit : Nat) : (remaining : Nat) → Option Signature → Binding → Inquiry σ (List Level)
  | _, none, _ => return []
  | 0, some _, _ => throw (.recursionLimit limit)
  | remaining + 1, some base, binding => do
    match ← resolveBase base with
    | none => return []
    | some decl =>
      let binding' := Binding.through base binding
      return ⟨decl, binding'⟩ :: (← climb limit remaining decl.base? binding')

/-- The ancestors of a type, nearest first; none if inherited members are not wanted. -/
def ancestors (options : Options) (decl : TypeDecl) : Inquiry σ (List Level) :=
  if options.includeInherited then climb options.maxDepth options.maxDepth decl.base? .empty
  else return []

/-- The chain of a type. -/
def chain (options : Options) (decl : TypeDecl) : Inquiry σ Chain := do
  return ⟨decl, ← ancestors options decl⟩

/-! ### Interfaces -/

/-- An interface is shown unless it is known not to be public. -/
def isShownInterface (interface : Signature) : Inquiry σ Bool := do
  match interface.typeName? with
  | none => return true
  | some name =>
    match ← Inquiry.resolve name with
    | some decl => return decl.isPublic
    | none =>
      Inquiry.report
        [.warning ("Could not resolve interface " ++ interface.rawName
          ++ ", treating it as public")]
      return true

/-- The interfaces that are shown. -/
def shownInterfaces (ignorePrivate : Bool) : List Signature → Inquiry σ (List Signature)
  | [] => return []
  | interface :: rest => do
    let isShown ← if ignorePrivate then isShownInterface interface else pure true
    if isShown then
      Inquiry.report interface.shownNotices
      return interface :: (← shownInterfaces ignorePrivate rest)
    else shownInterfaces ignorePrivate rest

/-! ### Results -/

/-- The members of one kind along a chain, with their notices. -/
def sectionMembers (options : Options) (chain : Chain) (kind : MemberKind) (isStatic : Bool) :
    Inquiry σ (List Member) := do
  Inquiry.report (chain.notices kind options.ignorePrivate)
  return chain.members kind isStatic options.ignorePrivate

/-- The surface of a definition; its bases and interfaces are resolved through the source. -/
def surfaceOf (options : Options) (decl : TypeDecl) : Inquiry σ Surface := do
  Inquiry.report decl.earlyNotices
  let interfaces ← shownInterfaces options.ignorePrivate decl.interfaces
  Inquiry.report decl.lateNotices
  if decl.access.isHidden options.ignorePrivate then
    Inquiry.report [.debug ("Skipping members of hidden type " ++ decl.fullName)]
    return Surface.of decl options.ignorePrivate interfaces fun _ _ => []
  else
    let chain ← chain options decl
    Inquiry.report (Section.order.flatMap fun part =>
      chain.notices part.1 options.ignorePrivate)
    return Surface.of decl options.ignorePrivate interfaces fun kind isStatic =>
      chain.members kind isStatic options.ignorePrivate

/-- The definition of a full name; it is an error if there is none. -/
def definition (fullName : String) : Inquiry σ TypeDecl := do
  match ← Inquiry.find fullName with
  | some decl => return decl
  | none => throw (.typeNotFound fullName)

/-- The surface of the type with the given full name. -/
def surface (options : Options) (fullName : String) : Inquiry σ Surface := do
  surfaceOf options (← definition fullName)

/-- The surfaces of many types, one result for each name in order; a failure leaves the others
alone. -/
def surfaces (options : Options) (fullNames : List String) :
    Inquiry σ (List (Except Error Surface)) :=
  fullNames.mapM fun fullName => Inquiry.attempt (surface options fullName)

/-- One section of the surface of a type, whether or not the type itself is hidden. -/
def collect (options : Options) (fullName : String) (kind : MemberKind) (isStatic : Bool) :
    Inquiry σ (List Member) := do
  let decl ← definition fullName
  sectionMembers options (← chain options decl) kind isStatic

end ApiSurface.Inspection
