/-
The attribute words of types, members, parameters and generic parameters.

A word mixes a small enumeration in its low bits (who can see the declaration)
with independent flag bits.  The enumeration is cut out by a mask and compared as
a whole; flags are tested one by one.  Bits without a meaning are dropped.
-/
import ApiSurface.Text.Basic

namespace ApiSurface

/-- A word of attribute bits. -/
abbrev AttributeWord := UInt32

namespace AttributeWord

/-- All of the given bits are set. -/
def has (word bits : AttributeWord) : Bool := word &&& bits = bits

/-- Some of the given bits are set. -/
def hasAny (word bits : AttributeWord) : Bool := word &&& bits ≠ 0

/-- The word with the masked bits replaced; bits of `value` outside the mask are added. -/
def replace (word mask value : AttributeWord) : AttributeWord := (word &&& ~~~mask) ||| value

/-- The digits of a word in hexadecimal, after `0x`. -/
def hex (word : AttributeWord) : String := "0x" ++ String.ofList (Nat.toDigits 16 word.toNat)

end AttributeWord

/-! ### Types -/

namespace TypeWord

/-- The bits that hold the visibility. -/
def visibilityMask : AttributeWord := 0x7

def notPublic : AttributeWord := 0x0
def publicTop : AttributeWord := 0x1
def nestedPublic : AttributeWord := 0x2
def nestedPrivate : AttributeWord := 0x3
def nestedFamily : AttributeWord := 0x4
def nestedAssembly : AttributeWord := 0x5
def nestedFamilyAndAssembly : AttributeWord := 0x6
def nestedFamilyOrAssembly : AttributeWord := 0x7

def interfaceBit : AttributeWord := 0x20
def abstractBit : AttributeWord := 0x80
def sealedBit : AttributeWord := 0x100
def beforeFieldInit : AttributeWord := 0x100000

/-- The visibility part of a type's word. -/
def visibility (word : AttributeWord) : AttributeWord := word &&& visibilityMask

/-- The flags of a type's word that have a meaning. -/
def attributes (word : AttributeWord) : AttributeWord := word &&& 0x103DA0

/-- The visibilities by name, zero apart, in the order in which a word is spelled out. -/
def visibilityNames : List (String × AttributeWord) :=
  [("PUBLIC", publicTop), ("NESTED_PUBLIC", nestedPublic), ("NESTED_PRIVATE", nestedPrivate),
    ("NESTED_FAMILY", nestedFamily), ("NESTED_ASSEMBLY", nestedAssembly),
    ("NESTED_FAM_AND_ASSEM", nestedFamilyAndAssembly),
    ("NESTED_FAM_OR_ASSEM", nestedFamilyOrAssembly)]

/-- Spells a word out: a name whose bits are all left is written and its bits are used up; bits
that no name takes are written in hexadecimal. -/
def spell (left : AttributeWord) : List (String × AttributeWord) → List String
  | [] => if left = 0 then [] else [left.hex]
  | (name, bits) :: others =>
    if left ≠ 0 ∧ left.has bits then name :: spell (left &&& ~~~bits) others
    else spell left others

/-- A visibility as it is written in messages. -/
def visibilityText (word : AttributeWord) : String :=
  let names := if word = 0 then "0x0" else Text.join " | " (spell word visibilityNames)
  "TypeVisibility(" ++ names ++ ")"

end TypeWord

/-! ### Methods -/

namespace MethodWord

/-- The bits that hold the access. -/
def accessMask : AttributeWord := 0x7

/-- The bit that holds the slot layout. -/
def layoutMask : AttributeWord := 0x100

def privateAccess : AttributeWord := 0x1
def familyAndAssemblyAccess : AttributeWord := 0x2
def assemblyAccess : AttributeWord := 0x3
def familyAccess : AttributeWord := 0x4
def familyOrAssemblyAccess : AttributeWord := 0x5
def publicAccess : AttributeWord := 0x6

def reuseSlot : AttributeWord := 0x0
def newSlot : AttributeWord := 0x100

def staticBit : AttributeWord := 0x10
def finalBit : AttributeWord := 0x20
def virtualBit : AttributeWord := 0x40
def hideBySignature : AttributeWord := 0x80
def abstractBit : AttributeWord := 0x400
def specialName : AttributeWord := 0x800
def runtimeSpecialName : AttributeWord := 0x1000

/-- The access part of a method's word. -/
def access (word : AttributeWord) : AttributeWord := word &&& accessMask

/-- The slot layout of a method's word. -/
def layout (word : AttributeWord) : AttributeWord := word &&& layoutMask

/-- The modifiers of a method's word that have a meaning. -/
def modifiers (word : AttributeWord) : AttributeWord := word &&& 0x3EF0

end MethodWord

/-! ### Fields -/

namespace FieldWord

/-- The bits that hold the access; the values are those of methods. -/
def accessMask : AttributeWord := 0x7

def staticBit : AttributeWord := 0x10
def initOnly : AttributeWord := 0x20
def literal : AttributeWord := 0x40
def hasInitialData : AttributeWord := 0x100
def specialName : AttributeWord := 0x200
def runtimeSpecialName : AttributeWord := 0x400
def hasDefault : AttributeWord := 0x8000

/-- The access part of a field's word. -/
def access (word : AttributeWord) : AttributeWord := word &&& accessMask

/-- The modifiers of a field's word that have a meaning. -/
def modifiers (word : AttributeWord) : AttributeWord := word &&& 0xB7F0

end FieldWord

/-! ### Parameters, generic parameters and roles -/

namespace ParameterWord

def inBit : AttributeWord := 0x1
def outBit : AttributeWord := 0x2
def optional : AttributeWord := 0x10
def hasDefault : AttributeWord := 0x1000

end ParameterWord

namespace GenericWord

def covariant : AttributeWord := 0x1
def contravariant : AttributeWord := 0x2
def referenceType : AttributeWord := 0x4
def valueType : AttributeWord := 0x8
def defaultConstructor : AttributeWord := 0x10

/-- The bits of a generic parameter's word that have a meaning. -/
def known (word : AttributeWord) : AttributeWord := word &&& 0x1F

end GenericWord

namespace RoleWord

def setter : AttributeWord := 0x1
def getter : AttributeWord := 0x2
def adder : AttributeWord := 0x8
def remover : AttributeWord := 0x10
def raiser : AttributeWord := 0x20

/-- The bits of a role that have a meaning. -/
def known (word : AttributeWord) : AttributeWord := word &&& 0x3F

/-- The method gets or sets a property. -/
def ofProperty (word : AttributeWord) : Bool := word.hasAny (getter ||| setter)

/-- The method belongs to an event. -/
def ofEvent (word : AttributeWord) : Bool := word.hasAny (adder ||| remover ||| raiser)

end RoleWord

end ApiSurface
