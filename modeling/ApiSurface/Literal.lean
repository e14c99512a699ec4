/-
Constants and attribute arguments.

A constant is the value of a constant field or the default of a parameter.  It
has a bare text (`Constant.text`) and a source literal (`Constant.literal`),
which differ for null, characters and strings.  An attribute argument is a
constant, a type, a value of an enumeration or an array of arguments.
-/
import ApiSurface.Decimal.Integer
import ApiSurface.Decimal.Positional
import ApiSurface.Signature.Basic
import ApiSurface.Text.Quoted

namespace ApiSurface

/-- The integer types of constants. -/
inductive IntegerType where
  | int8 | uint8 | int16 | uint16 | int32 | uint32 | int64 | uint64
  deriving DecidableEq, Repr

/-- The element type of an integer type. -/
def IntegerType.primitive : IntegerType → Primitive
  | int8 => .int8
  | uint8 => .uint8
  | int16 => .int16
  | uint16 => .uint16
  | int32 => .int32
  | uint32 => .uint32
  | int64 => .int64
  | uint64 => .uint64

/-- A constant value.  Floating-point numbers are kept as their words. -/
inductive Constant where
  | null
  | boolean (value : Bool)
  | character (value : Char)
  | integer (type : IntegerType) (value : Int)
  | single (word : UInt32)
  | double (word : UInt64)
  | string (value : String)
  deriving DecidableEq, Repr

namespace Constant

/-- The bare value, without quotes; null has no text. -/
def text : Constant → String
  | null => ""
  | boolean value => if value then "true" else "false"
  | character value => String.singleton value
  | integer _ value => integerText value
  | single word => Decimal.BinaryFormat.single.text word.toNat
  | double word => Decimal.BinaryFormat.double.text word.toNat
  | string value => value

/-- The value as it is written in source. -/
def literal : Constant → String
  | null => "null"
  | string value => Text.quote '\x22' value
  | character value => Text.quote '\x27' (String.singleton value)
  | other => other.text

/-- The type that an attribute argument of this value is stored as. -/
def type : Constant → Signature
  | null => .primitive .object
  | boolean _ => .primitive .boolean
  | character _ => .primitive .char
  | integer type _ => .primitive type.primitive
  | single _ => .primitive .single
  | double _ => .primitive .double
  | string _ => .primitive .string

end Constant

/-- An argument of a custom attribute. -/
inductive AttributeValue where
  | constant (value : Constant)
  | type (signature : Signature)
  | enumeration (type : Signature) (value : AttributeValue)
  | array (items : List AttributeValue)
  deriving Repr

/-- The type that an attribute argument is stored as; an array takes the type of its first
item. -/
def AttributeValue.storedType : AttributeValue → Signature
  | constant value => value.type
  | type _ => .inSpace "System" "Type"
  | enumeration enumType _ => enumType
  | array [] => .vector (.primitive .object)
  | array (item :: _) => .vector item.storedType

end ApiSurface
