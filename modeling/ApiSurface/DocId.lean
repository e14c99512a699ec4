/-
Documentation identifiers.

The prose about a member is filed under an identifier: a letter for the kind, the
mangled path of the declaring type, the name of the member and the types of its
parameters.  Parameter types are those of the declaration, so that a member
inherited through a closed base keeps the identifier of its declaration; the same
text with bound types tells members of different levels apart.
-/
import ApiSurface.Shown.Argument

namespace ApiSurface.DocId

/-- What an identifier stands for. -/
inductive Kind where
  | type
  | method
  | field
  | property
  | event
  deriving DecidableEq, Repr

/-- The letter that starts an identifier. -/
def Kind.letter : Kind → String
  | type => "T"
  | method => "M"
  | field => "F"
  | property => "P"
  | event => "E"

/-- The segments of a nested name, outermost first, each with its own share of the arguments. -/
def distribute (refs : List String) : List TypeName → List String
  | [] => []
  | segment :: inner =>
    let arity := min segment.ownArity refs.length
    let text :=
      if arity = 0 then segment.name
      else segment.plainName ++ "\x7b" ++ Text.join "," (refs.take arity) ++ "\x7d"
    text :: distribute (refs.drop arity) inner

/-- An instantiated name: the namespace and the segments, with dots between them. -/
def instantiated (name : TypeName) (refs : List String) : String :=
  let path := Text.join "." (distribute refs name.chain)
  if name.rootSpace.isEmpty then path else name.rootSpace ++ "." ++ path

mutual

/-- A type reference inside an identifier. -/
def reference : Signature → String
  | .primitive kind => kind.fullName
  | .named name => name.dottedName
  | .instantiation base args =>
    match base.typeName? with
    | some name => instantiated name (references args)
    | none => reference base ++ "\x7b" ++ Text.join "," (references args) ++ "\x7d"
  | .array element rank =>
    reference element
      ++ if rank ≤ 1 then "[]" else "[" ++ Text.join "," (List.replicate rank "0:") ++ "]"
  | .byRef element => reference element ++ "@"
  | .pointer element => reference element ++ "*"
  | .parameter owner index _ => owner.marks ++ naturalText index

/-- The references of a list of types. -/
def references : List Signature → List String
  | [] => []
  | sig :: rest => reference sig :: references rest

end

/-- The identifier of a type. -/
def ofType (owner : ShownOwner) : String := Kind.type.letter ++ ":" ++ owner.mangledName

/-- The identifier of a member, parameters apart. -/
def ofMember (kind : Kind) (owner : ShownOwner) (name : String) : String :=
  kind.letter ++ ":" ++ owner.mangledName ++ "." ++ name

/-- The reference to the type of a parameter, marked if it is passed by reference. -/
def parameterReference (type : Signature) (isByRef : Bool) : String :=
  reference type ++ if isByRef then "@" else ""

/-- The declared parameter types in parentheses, or nothing if there are no parameters. -/
def declaredParameters (params : List ShownParameter) : String :=
  if params.isEmpty then ""
  else "(" ++ Text.join "," (params.map fun param =>
    parameterReference param.type.declared param.isByRef) ++ ")"

/-- The bound parameter types in parentheses. -/
def boundParameters (params : List ShownParameter) : String :=
  "(" ++ Text.join "," (params.map fun param =>
    parameterReference param.type.signature param.isByRef) ++ ")"

end ApiSurface.DocId
