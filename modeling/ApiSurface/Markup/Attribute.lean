/-
The attributes of a tag, and the entities in their values.

Attributes are scanned from the left and the scan stops at the one that is asked
for, so what comes after it is not looked at.
-/
import ApiSurface.Markup.Event

namespace ApiSurface.Markup

/-! ### Entities -/

/-- The predefined entities. -/
def entities : List (String × Char) :=
  [("lt", '<'), ("gt", '>'), ("amp", '&'), ("apos", '\x27'), ("quot", '\x22')]

/-- The value of a digit in a base of at most sixteen. -/
def digitValue? (base : Nat) (c : Char) : Option Nat :=
  let value? :=
    if '0' ≤ c ∧ c ≤ '9' then some (c.toNat - '0'.toNat)
    else if 'a' ≤ c ∧ c ≤ 'f' then some (c.toNat - 'a'.toNat + 10)
    else if 'A' ≤ c ∧ c ≤ 'F' then some (c.toNat - 'A'.toNat + 10)
    else none
  value?.filter (· < base)

/-- The value of digits in a base, read after the value `acc`. -/
def digitsIn (base acc : Nat) : List Char → Option Nat
  | [] => some acc
  | c :: rest => (digitValue? base c).bind fun value => digitsIn base (acc * base + value) rest

/-- The number of a character reference, without sign. -/
def referenceNumber (text : List Char) : Option Nat :=
  match text with
  | 'x' :: digits => if digits.isEmpty then none else digitsIn 16 0 digits
  | digits => if digits.isEmpty then none else digitsIn 10 0 digits

/-- The character of a number; there is none for zero, for surrogates and beyond Unicode. -/
def referencedChar (number : Nat) : Option Char :=
  if number ≠ 0 ∧ number.isValidChar then some (Char.ofNat number) else none

/-- The character that an entity stands for. -/
def entityChar (entity : List Char) : Option Char :=
  match entity with
  | '#' :: number => (referenceNumber number).bind referencedChar
  | name => entities.lookup (String.ofList name)

/-- Replaces entities; `entity?` is the reversed entity that is being read.  An entity must end
before another one starts. -/
def unescapeFrom (entity? : Option (List Char)) : List Char → Option (List Char)
  | [] => if entity?.isSome then none else some []
  | c :: rest =>
    match entity? with
    | none => if c = '&' then unescapeFrom (some []) rest else (unescapeFrom none rest).map (c :: ·)
    | some reversed =>
      if c = '&' then none
      else if c = ';' then
        (entityChar reversed.reverse).bind fun char => (unescapeFrom none rest).map (char :: ·)
      else unescapeFrom (some (c :: reversed)) rest

/-- The text with its entities replaced, or `none` if one is unknown or not finished. -/
def unescape (text : List Char) : Option (List Char) := unescapeFrom none text

/-! ### Attributes -/

/-- An attribute and the text after it. -/
structure Scanned where
  key : List Char
  value : List Char
  rest : List Char

/-- What scanning for the next attribute gives. -/
inductive Scan where
  | none
  | broken
  | found (attr : Scanned)

/-- The quoted value at the start of a text, and the text after it. -/
def quotedValue (text : List Char) : Option (List Char × List Char) :=
  match text with
  | '\x22' :: rest => Text.cutFirst '\x22' rest
  | '\x27' :: rest => Text.cutFirst '\x27' rest
  | _ => none

/-- Scans the next attribute.  The key takes at least one character and ends at white space or an
equals sign; white space may stand around the sign, and the value must be quoted. -/
def scan (text : List Char) : Scan :=
  match text.dropWhile isSpace with
  | [] => .none
  | c :: rest =>
    let isKey (d : Char) : Bool := d ≠ '=' && !isSpace d
    match (rest.dropWhile isKey).dropWhile isSpace with
    | '=' :: afterSign =>
      match quotedValue (afterSign.dropWhile isSpace) with
      | some (value, rest') => .found ⟨c :: rest.takeWhile isKey, value, rest'⟩
      | .none => .broken
    | _ => .broken

theorem quotedValue_length {text value rest : List Char}
    (h : quotedValue text = some (value, rest)) : rest.length < text.length := by
  unfold quotedValue at h
  split at h
  all_goals first
    | (have hcut := (Text.cutFirst_eq_some h).1; simp [hcut]; omega)
    | simp at h

theorem scan_length {text : List Char} {attr : Scanned} (h : scan text = .found attr) :
    attr.rest.length < text.length := by
  have drop (p : Char → Bool) (l : List Char) : (l.dropWhile p).length ≤ l.length :=
    (List.dropWhile_sublist p).length_le
  unfold scan at h
  split at h
  · simp at h
  · rename_i c rest hstart
    simp only at h
    split at h
    · rename_i afterSign hsign
      split at h
      · rename_i value rest' hvalue
        injection h with h
        subst h
        have h₁ := quotedValue_length hvalue
        have h₂ := drop isSpace afterSign
        have h₃ := congrArg List.length hsign
        have h₄ := drop isSpace (rest.dropWhile fun d => d ≠ '=' && !isSpace d)
        have h₅ := drop (fun d => d ≠ '=' && !isSpace d) rest
        have h₆ := congrArg List.length hstart
        have h₇ := drop isSpace text
        simp only [List.length_cons] at *
        omega
      · simp at h
    · simp at h

/-- The raw value of the first attribute of the given name.  There is no outer result if the text
is broken before it is found, and no inner one if it is not there. -/
def attributeValue (name text : List Char) : Option (Option (List Char)) :=
  match _hscan : scan text with
  | .none => some none
  | .broken => none
  | .found attr =>
    if attr.key = name then some (some attr.value) else attributeValue name attr.rest
  termination_by text.length
  decreasing_by exact scan_length _hscan

end ApiSurface.Markup
