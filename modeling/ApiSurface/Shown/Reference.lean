/-
Type references as they are shown.

A shown reference holds every form of a name that a declaration is composed
from.  The forms come from the raw name: its placeholders are filled with its
arguments, and what is left of them is dropped.  A name that cannot be localized
is shown raw.
-/
import ApiSurface.Name.Display
import ApiSurface.Signature.Substitution

namespace ApiSurface

/-- The localized form of a raw name, or the raw name itself if it has none. -/
def Name.localizedOr (raw : String) (generics : List String) : String :=
  match Name.localize raw generics with
  | .ok localized => localized
  | .error _ => raw

namespace Signature

/-- The localized full name of a reference, `/` between nested types. -/
def localizedName (sig : Signature) : String :=
  Name.stripArity (Name.localizedOr sig.stripByRef.rawName [])

/-- The localized full name of a reference, with dots between nested types. -/
def shownFullName (sig : Signature) : String := Text.swap '/' '.' sig.localizedName

/-- The displayed name of a reference. -/
def shownName (sig : Signature) : String := Name.display sig.localizedName

end Signature

/-- Drops array brackets, by-reference and pointer marks and turns `/` into a dot.  After an
opening bracket, `skipping` drops the commas and closing brackets that follow. -/
def Name.dropSuffixes (skipping : Bool) : List Char → List Char
  | [] => []
  | c :: rest =>
    if skipping ∧ (c = ',' ∨ c = ']') then dropSuffixes true rest
    else if c = '[' then dropSuffixes true rest
    else if c = '&' ∨ c = '*' then dropSuffixes false rest
    else if c = '/' then '.' :: dropSuffixes false rest
    else c :: dropSuffixes false rest

/-- The mangled form of a raw name: no argument list, no suffixes, dots between nested types. -/
def Name.mangled (raw : String) : String :=
  let chars := raw.toList
  let head := ((Text.cutFirst '<' chars).map Prod.fst).getD chars
  String.ofList (Name.dropSuffixes false head)

/-- An argument of an instantiation as it is shown. -/
structure ShownArgument where
  mangledName : String
  name : String
  deriving DecidableEq, Repr

/-- The shown form of an argument. -/
def ShownArgument.of (arg : Signature) : ShownArgument where
  mangledName := Name.unlocalize arg.shownFullName
  name := arg.shownName

/-- A type reference as it is shown. -/
structure ShownType where
  /-- The arity-mangled name, without arguments. -/
  mangledName : String
  /-- The localized full name before any argument was bound. -/
  openName : String
  /-- The displayed name. -/
  name : String
  /-- The localized full name. -/
  fullName : String
  /-- The namespace of the outermost type. -/
  space : String
  arguments : List ShownArgument
  /-- The reference is an open parameter, or was one before an argument was bound. -/
  isParameter : Bool
  /-- What is shown, without an outermost by-reference. -/
  signature : Signature
  /-- What the declaring member says, before any argument was bound. -/
  declared : Signature
  deriving DecidableEq, Repr

namespace ShownType

/-- The shown form of a reference; an outermost by-reference is left out. -/
def of (sig : Signature) : ShownType where
  mangledName := Name.mangled sig.stripByRef.rawName
  openName := sig.shownFullName
  name := sig.shownName
  fullName := sig.shownFullName
  space := sig.stripByRef.space
  arguments :=
    match sig.stripByRef with
    | .instantiation _ args => args.map ShownArgument.of
    | _ => []
  isParameter := sig.stripByRef.isParameter
  signature := sig.stripByRef
  declared := sig.stripByRef

/-- The reference with bound arguments written in.  What is displayed is made anew; the mangled
name, the open name and the declared reference stay. -/
def bind (shown : ShownType) (binding : Binding) : ShownType :=
  match binding.applyTracked shown.signature with
  | (_, false) => shown
  | (sig, true) =>
    { of sig with
      mangledName := shown.mangledName
      openName := shown.openName
      isParameter := shown.mangledName = shown.openName
      declared := shown.declared }

/-- The shown form of a reference seen through a binding. -/
def through (binding : Binding) (sig : Signature) : ShownType := (of sig).bind binding

end ShownType

end ApiSurface
