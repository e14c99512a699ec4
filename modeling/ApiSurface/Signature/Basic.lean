/-
Type references as they stand in signatures.

A reference is a tree: element types, named types, instantiations, arrays,
by-references, pointers and open generic parameters.  Text is only made at the
end; `Signature.rawName` is the metadata-style full name.
-/
import ApiSurface.TypeName

namespace ApiSurface

/-- The built-in element types. -/
inductive Primitive where
  | void | boolean | char
  | int8 | uint8 | int16 | uint16 | int32 | uint32 | int64 | uint64
  | single | double | intPtr | uintPtr
  | string | object | typedReference
  deriving DecidableEq, Repr

/-- The full name of the type that an element type stands for. -/
def Primitive.fullName : Primitive → String
  | void => "System.Void"
  | boolean => "System.Boolean"
  | char => "System.Char"
  | int8 => "System.SByte"
  | uint8 => "System.Byte"
  | int16 => "System.Int16"
  | uint16 => "System.UInt16"
  | int32 => "System.Int32"
  | uint32 => "System.UInt32"
  | int64 => "System.Int64"
  | uint64 => "System.UInt64"
  | single => "System.Single"
  | double => "System.Double"
  | intPtr => "System.IntPtr"
  | uintPtr => "System.UIntPtr"
  | string => "System.String"
  | object => "System.Object"
  | typedReference => "System.TypedReference"

/-- Who declares a generic parameter. -/
inductive ParameterOwner where
  | type
  | method
  deriving DecidableEq, Repr

/-- A reference to a type. -/
inductive Signature where
  /-- A built-in element type. -/
  | primitive (kind : Primitive)
  /-- A type referred to by name. -/
  | named (name : TypeName)
  /-- A generic type with its arguments. -/
  | instantiation (base : Signature) (args : List Signature)
  /-- An array; rank 1 is the plain one. -/
  | array (element : Signature) (rank : Nat)
  /-- A parameter passed by reference. -/
  | byRef (element : Signature)
  /-- An unmanaged pointer. -/
  | pointer (element : Signature)
  /-- An open generic parameter, by its position and its declared name. -/
  | parameter (owner : ParameterOwner) (index : Nat) (name : String)
  deriving Repr

namespace Signature

/-- A reference by metadata-style full name. -/
def ofFullName (fullName : String) : Signature := named (TypeName.parse fullName)

/-- A reference to a type of a namespace. -/
def inSpace (space name : String) : Signature := named (.top space name none)

/-- A one-dimensional array. -/
def vector (element : Signature) : Signature := array element 1

/-- An array of at least one dimension. -/
def arrayOf (element : Signature) (rank : Nat) : Signature := array element (max rank 1)

/-! ### Induction and equality -/

/-- To show something of all references, show it of each kind of reference from its parts, the
arguments of an instantiation among them. -/
@[elab_as_elim]
theorem induction {motive : Signature → Prop}
    (primitive : ∀ kind, motive (primitive kind))
    (named : ∀ name, motive (named name))
    (instantiation : ∀ base args, motive base → (∀ arg ∈ args, motive arg) →
      motive (instantiation base args))
    (array : ∀ element rank, motive element → motive (array element rank))
    (byRef : ∀ element, motive element → motive (byRef element))
    (pointer : ∀ element, motive element → motive (pointer element))
    (parameter : ∀ owner index name, motive (parameter owner index name))
    (sig : Signature) : motive sig := by
  refine @Signature.rec motive (fun args => ∀ arg ∈ args, motive arg)
    primitive named instantiation array byRef pointer parameter ?_ ?_ sig
  · simp
  · intro head tail hhead htail arg harg
    rcases List.mem_cons.mp harg with rfl | harg
    · exact hhead
    · exact htail arg harg

mutual

/-- The two references are the same tree. -/
def same : Signature → Signature → Bool
  | primitive a, primitive b => a = b
  | named a, named b => a = b
  | instantiation a as, instantiation b bs => same a b && allSame as bs
  | array a m, array b n => same a b && m = n
  | byRef a, byRef b => same a b
  | pointer a, pointer b => same a b
  | parameter o i x, parameter p j y => o = p && i = j && x = y
  | _, _ => false

/-- The two lists hold the same trees. -/
def allSame : List Signature → List Signature → Bool
  | [], [] => true
  | a :: as, b :: bs => same a b && allSame as bs
  | _, _ => false

end

theorem same_iff {a b : Signature} : same a b = true ↔ a = b := by
  induction a using Signature.induction generalizing b with
  | instantiation base args ihbase ihargs =>
    have hargs (bs : List Signature) : allSame args bs = true ↔ args = bs := by
      clear ihbase
      induction args generalizing bs with
      | nil => cases bs <;> simp [allSame]
      | cons a as ih =>
        cases bs with
        | nil => simp [allSame]
        | cons b bs =>
          have head := ihargs a List.mem_cons_self (b := b)
          have tail := ih (fun arg harg => ihargs arg (List.mem_cons_of_mem _ harg)) bs
          simp [allSame, head, tail]
    cases b <;> simp [same, ihbase, hargs]
  | primitive kind => cases b <;> simp [same]
  | named name => cases b <;> simp [same]
  | array element rank ih => cases b <;> simp [same, ih]
  | byRef element ih => cases b <;> simp [same, ih]
  | pointer element ih => cases b <;> simp [same, ih]
  | parameter owner index name => cases b <;> simp [same, and_assoc]

instance : DecidableEq Signature := fun _ _ => decidable_of_iff _ same_iff

/-! ### The raw name -/

mutual

/-- The metadata-style full name of a reference. -/
def rawName : Signature → String
  | primitive kind => kind.fullName
  | named name => name.fullName
  | instantiation base args => base.rawName ++ "<" ++ Text.join "," (rawNames args) ++ ">"
  | array element rank => element.rawName ++ "[" ++ Text.copies "," (rank - 1) ++ "]"
  | byRef element => element.rawName ++ "&"
  | pointer element => element.rawName ++ "*"
  | parameter _ _ name => name

/-- The raw names of a list of references. -/
def rawNames : List Signature → List String
  | [] => []
  | sig :: rest => sig.rawName :: rawNames rest

end

@[simp] theorem rawNames_eq_map (sigs : List Signature) : rawNames sigs = sigs.map rawName := by
  induction sigs with
  | nil => rfl
  | cons sig rest ih => simp [rawNames, ih]

/-! ### What a reference is about -/

/-- The named type at the root of a reference, below arrays, by-references, pointers and
instantiations. -/
def typeName? : Signature → Option TypeName
  | named name => some name
  | instantiation base _ => base.typeName?
  | array element _ => element.typeName?
  | byRef element => element.typeName?
  | pointer element => element.typeName?
  | primitive _ => none
  | parameter .. => none

/-- The namespace of the type at the root of a reference. -/
def space : Signature → String
  | primitive _ => "System"
  | parameter .. => ""
  | sig => (sig.typeName?.map TypeName.rootSpace).getD ""

/-- The reference without an outermost by-reference. -/
def stripByRef : Signature → Signature
  | byRef element => element
  | sig => sig

/-- The reference is passed by reference. -/
def isByRef : Signature → Bool
  | byRef _ => true
  | _ => false

/-- The reference is an open generic parameter. -/
def isParameter : Signature → Bool
  | parameter .. => true
  | _ => false

/-- The reference is exactly the type of that full name. -/
def isNamed (fullName : String) : Signature → Bool
  | primitive kind => kind.fullName = fullName
  | named name => name.fullName = fullName
  | _ => false

mutual

/-- Some open generic parameter of the owner occurs in the reference. -/
def mentions (owner : ParameterOwner) : Signature → Bool
  | parameter o _ _ => o = owner
  | instantiation base args => base.mentions owner || anyMentions owner args
  | array element _ => element.mentions owner
  | byRef element => element.mentions owner
  | pointer element => element.mentions owner
  | primitive _ => false
  | named _ => false

/-- Some open generic parameter of the owner occurs in one of the references. -/
def anyMentions (owner : ParameterOwner) : List Signature → Bool
  | [] => false
  | sig :: rest => sig.mentions owner || anyMentions owner rest

end

@[simp] theorem anyMentions_eq_any (owner : ParameterOwner) (sigs : List Signature) :
    anyMentions owner sigs = sigs.any (mentions owner) := by
  induction sigs with
  | nil => rfl
  | cons sig rest ih => simp [anyMentions, ih]

end Signature

end ApiSurface
