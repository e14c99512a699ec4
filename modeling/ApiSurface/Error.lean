/-
What can go wrong, by cause, and the text of each failure.
-/
import ApiSurface.AttributeWord
import ApiSurface.Decimal.Integer
import ApiSurface.Signature.Basic

namespace ApiSurface

/-- Why a draft is no definition. -/
inductive Malformation where
  | unnamedType (space : String)
  | nestedVisibility (name : String) (visibility : AttributeWord)
  | unnamedMethod
  | unnamedParameter (type : Signature)
  | unnamedGeneric (index : Nat)
  | genericIndexTooLarge (index : Nat)
  | unnamedField (type : Signature)
  | unnamedProperty (type : Signature)
  | unnamedEvent (type : Signature)
  deriving DecidableEq, Repr

/-- The text of a malformation. -/
def Malformation.message : Malformation → String
  | unnamedType space => "Type in namespace '" ++ space ++ "' has no name"
  | nestedVisibility name visibility =>
    "Top-level type " ++ name ++ " cannot have nested visibility "
      ++ TypeWord.visibilityText visibility
  | unnamedMethod => "Method without a name"
  | unnamedParameter type => "Parameter of type " ++ type.rawName ++ " has no name"
  | unnamedGeneric index => "Generic parameter " ++ naturalText index ++ " has no name"
  | genericIndexTooLarge index =>
    "Generic parameter index out of range - " ++ naturalText index
  | unnamedField type => "Field of type " ++ type.rawName ++ " has no name"
  | unnamedProperty type => "Property of type " ++ type.rawName ++ " has no name"
  | unnamedEvent type => "Event of type " ++ type.rawName ++ " has no name"

/-- Why a documentation file cannot be used. -/
inductive ProseFault where
  /-- The file cannot be read. -/
  | unreadable
  /-- The markup of the file is broken. -/
  | illFormed
  /-- A member does not say what it documents. -/
  | unnamedMember
  deriving DecidableEq, Repr

/-- The text of a fault in a documentation file. -/
def ProseFault.message : ProseFault → String
  | unreadable => "the file cannot be read"
  | illFormed => "the markup is ill-formed"
  | unnamedMember => "<member> without a name attribute"

/-- What stops an operation. -/
inductive Error where
  /-- A draft is no definition. -/
  | malformed (cause : Malformation)
  /-- No definition has the requested name. -/
  | typeNotFound (name : String)
  /-- A generic name asks for more arguments than there are, or its brackets do not match. -/
  | malformedGenericName (name : String)
  /-- A chain of base types is longer than allowed. -/
  | recursionLimit (limit : Nat)
  /-- An assembly gave no definitions. -/
  | assemblyLoad (assembly reason : String)
  /-- A documentation file cannot be used. -/
  | documentation (fault : ProseFault)
  deriving DecidableEq, Repr

/-- The text of an error. -/
def Error.message : Error → String
  | malformed cause => cause.message
  | typeNotFound name => "Failed to find type in metadata source - " ++ name
  | malformedGenericName name => "Malformed generic name - " ++ name
  | recursionLimit limit => "Reach the maximum recursion level allowed - " ++ naturalText limit
  | assemblyLoad assembly reason => "Failed to load assembly '" ++ assembly ++ "': " ++ reason
  | documentation fault => "Invalid documentation file - " ++ fault.message

end ApiSurface
