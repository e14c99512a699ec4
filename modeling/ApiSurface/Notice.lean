/-
What an inspection reports besides its result.

Notices are values: looking something up returns them in the order in which
things were looked at.  The functions here say which notices the shown forms of
references, members and levels give rise to; the forms themselves do not depend
on them.
-/
import ApiSurface.Surface

namespace ApiSurface

/-- How serious a notice is. -/
inductive Severity where
  | debug
  | warning
  deriving DecidableEq, Repr

/-- One line of a report. -/
structure Notice where
  severity : Severity
  text : String
  deriving DecidableEq, Repr

/-- A note about progress. -/
def Notice.debug (text : String) : Notice := ⟨.debug, text⟩

/-- A note about something that could not be done as asked. -/
def Notice.warning (text : String) : Notice := ⟨.warning, text⟩

/-! ### References -/

/-- A name that cannot be localized is shown raw, with a warning. -/
def Name.localizeNotices (raw : String) (generics : List String) : List Notice :=
  match Name.localize raw generics with
  | .ok _ => []
  | .error error => [.warning ("Falling back to raw name for " ++ raw ++ ": " ++ error.message)]

mutual

/-- The notices of showing a reference: its own name, then its arguments. -/
def Signature.shownNotices : Signature → List Notice
  | .byRef element => Name.localizeNotices element.rawName [] ++ element.argumentNotices
  | .instantiation base args =>
    Name.localizeNotices (Signature.instantiation base args).rawName []
      ++ Signature.allShownNotices args
  | sig => Name.localizeNotices sig.rawName []

/-- The notices of showing the arguments of a reference. -/
def Signature.argumentNotices : Signature → List Notice
  | .instantiation _ args => Signature.allShownNotices args
  | _ => []

/-- The notices of showing each of the references. -/
def Signature.allShownNotices : List Signature → List Notice
  | [] => []
  | sig :: rest => sig.shownNotices ++ Signature.allShownNotices rest

end

/-- The notices of showing a reference through a binding: as it is declared, and once more if
arguments were written in. -/
def Signature.noticesThrough (binding : Binding) (sig : Signature) : List Notice :=
  sig.shownNotices
    ++ match binding.applyTracked sig.stripByRef with
      | (_, false) => []
      | (bound, true) => bound.shownNotices

/-! ### Attributes, parameters and members -/

mutual

/-- The notices of writing an attribute argument as a literal. -/
def AttributeValue.notices : AttributeValue → List Notice
  | .constant _ => []
  | .type sig => sig.shownNotices
  | .enumeration sig value => sig.shownNotices ++ value.notices
  | .array items => AttributeValue.allNotices items

/-- The notices of writing each of the attribute arguments. -/
def AttributeValue.allNotices : List AttributeValue → List Notice
  | [] => []
  | item :: rest => item.notices ++ AttributeValue.allNotices rest

end

/-- The notices of showing an attribute. -/
def CustomAttribute.notices (attr : CustomAttribute) : List Notice :=
  let argument (value : AttributeValue) : List Notice :=
    value.notices ++ value.storedType.shownNotices
  attr.positional.flatMap argument
    ++ attr.assignments.flatMap (fun named => argument named.value)
    ++ attr.type.shownNotices

/-- The notices of showing a parameter. -/
def ParameterDecl.notices (binding : Binding) (param : ParameterDecl) : List Notice :=
  param.type.noticesThrough binding ++ param.attributes.flatMap CustomAttribute.notices

/-- The notices of showing a generic parameter. -/
def GenericDecl.notices (param : GenericDecl) : List Notice :=
  param.constraints.flatMap Signature.shownNotices

/-- The notices of showing a field. -/
def FieldDecl.notices (binding : Binding) (field : FieldDecl) : List Notice :=
  field.type.noticesThrough binding ++ field.attributes.flatMap CustomAttribute.notices

/-- The notices of showing a method. -/
def MethodDecl.notices (binding : Binding) (method : MethodDecl) : List Notice :=
  method.returnType.noticesThrough binding
    ++ method.parameters.flatMap (ParameterDecl.notices binding)
    ++ method.generics.flatMap GenericDecl.notices
    ++ method.attributes.flatMap CustomAttribute.notices

namespace TypeDecl

/-- The notices of showing an accessor. -/
def accessorNotices (decl : TypeDecl) (binding : Binding) (index? : Option Nat) : List Notice :=
  ((decl.method? index?).map (MethodDecl.notices binding)).getD []

/-- The notices of showing a property.  One without accessors is dropped, which is noted. -/
def propertyNotices (decl : TypeDecl) (binding : Binding) (property : PropertyDecl) :
    List Notice :=
  decl.accessorNotices binding property.getter? ++ decl.accessorNotices binding property.setter?
    ++ (if (decl.method? property.getter?).isNone && (decl.method? property.setter?).isNone then
        [.debug ("Dropping property " ++ decl.name.dottedName ++ "." ++ property.name
          ++ " without accessors")]
      else [])
    ++ property.type.noticesThrough binding
    ++ property.parameters.flatMap (ParameterDecl.notices binding)
    ++ property.attributes.flatMap CustomAttribute.notices

/-- The notices of showing an event.  One without an adder or a remover is dropped, which is
noted. -/
def eventNotices (decl : TypeDecl) (binding : Binding) (event : EventDecl) : List Notice :=
  decl.accessorNotices binding event.adder? ++ decl.accessorNotices binding event.remover?
    ++ decl.accessorNotices binding event.raiser?
    ++ (if (decl.method? event.adder?).isSome && (decl.method? event.remover?).isSome then []
      else
        [.debug ("Dropping event " ++ decl.name.dottedName ++ "." ++ event.name
          ++ " without add/remove accessors")])
    ++ event.type.noticesThrough binding
    ++ event.attributes.flatMap CustomAttribute.notices

/-- The notices of showing the name and the generic parameters of a type. -/
def ownerNotices (decl : TypeDecl) : List Notice :=
  Name.localizeNotices decl.fullName (decl.generics.map GenericDecl.name)
    ++ decl.generics.flatMap GenericDecl.notices

end TypeDecl

/-! ### Levels and types -/

/-- The notices of inspecting the members of one kind at one level. -/
def Level.notices (level : Level) (kind : MemberKind) (ignorePrivate : Bool) (depth : Nat) :
    List Notice :=
  let decl := level.decl
  decl.ownerNotices
    ++ (match kind with
      | .field => decl.fields.flatMap (FieldDecl.notices level.binding)
      | .property => decl.properties.flatMap (decl.propertyNotices level.binding)
      | .event => decl.events.flatMap (decl.eventNotices level.binding)
      | .method | .constructor | .operator =>
        decl.methods.flatMap (MethodDecl.notices level.binding))
    ++ [.debug ("Inspecting " ++ naturalText (level.candidates kind ignorePrivate).length ++ " "
      ++ kind.text ++ " candidates of " ++ decl.fullName ++ " at level " ++ naturalText depth)]

/-- The notices of the levels at `depth` and above. -/
def Chain.noticesFrom (kind : MemberKind) (ignorePrivate : Bool) (depth : Nat) :
    List Level → List Notice
  | [] => []
  | level :: above =>
    level.notices kind ignorePrivate depth ++ noticesFrom kind ignorePrivate (depth + 1) above

/-- The notices of gathering the members of one kind along a chain. -/
def Chain.notices (chain : Chain) (kind : MemberKind) (ignorePrivate : Bool) : List Notice :=
  noticesFrom kind ignorePrivate 0 (chain.levels kind)

namespace TypeDecl

/-- The notices of composing a declaration, up to its interfaces. -/
def earlyNotices (decl : TypeDecl) : List Notice :=
  decl.ownerNotices ++ (decl.mentionedBase?.map Signature.shownNotices).getD []

/-- The notices of composing a declaration, after its interfaces. -/
def lateNotices (decl : TypeDecl) : List Notice :=
  (decl.name.outer?.map fun outer => (Signature.named outer).shownNotices).getD []
    ++ (decl.invoke?.map fun invoke => invoke.returnType.shownNotices).getD []
    ++ decl.attributes.flatMap CustomAttribute.notices
    ++ match decl.invoke? with
      | some invoke => invoke.parameters.flatMap (ParameterDecl.notices .empty)
      | none => (decl.underlying?.map Signature.shownNotices).getD []

end TypeDecl

end ApiSurface
