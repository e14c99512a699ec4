/-
Arity placeholders and argument lists.

A mangled name says how many arguments a type takes, ``List`1``; a localized
name says which, `List<int>`.  `localize` puts arguments in the place of the
placeholders, `unlocalize` counts the arguments and puts the placeholder back,
and `stripArity` drops the placeholders that are left.
-/
import ApiSurface.Error
import ApiSurface.Name.Brackets
import ApiSurface.Text.Size

namespace ApiSurface.Name

/-- The mark that starts a placeholder. -/
def isMark (c : Char) : Bool := c = arityMark

/-- A piece of a mangled name: a character that stands for itself, or a placeholder, given by
the digits after its marks. -/
inductive Piece where
  | plain (c : Char)
  | placeholder (digits : List Char)
  deriving DecidableEq, Repr

/-- What the passes over a mangled name have read and not yet placed: nothing, some marks, or
marks and the reversed digits after them. -/
inductive Pending where
  | nothing
  | marks (count : Nat)
  | digits (reversed : List Char)

/-- The pieces that pending input turns into when no more of it comes. -/
def Pending.settle : Pending → List Piece
  | nothing => []
  | marks count => List.replicate count (.plain arityMark)
  | digits reversed => [.placeholder reversed.reverse]

/-- The pieces of a mangled name.  One or more marks followed by one or more decimal digits are a
placeholder; marks without digits stand for themselves. -/
def piecesFrom (pending : Pending) : List Char → List Piece
  | [] => pending.settle
  | c :: rest =>
    match pending with
    | .nothing =>
      if isMark c then piecesFrom (.marks 1) rest else .plain c :: piecesFrom .nothing rest
    | .marks count =>
      if isMark c then piecesFrom (.marks (count + 1)) rest
      else if Text.isDecimalDigit c then piecesFrom (.digits [c]) rest
      else Pending.settle (.marks count) ++ .plain c :: piecesFrom .nothing rest
    | .digits reversed =>
      if Text.isDecimalDigit c then piecesFrom (.digits (c :: reversed)) rest
      else if isMark c then Pending.settle (.digits reversed) ++ piecesFrom (.marks 1) rest
      else Pending.settle (.digits reversed) ++ .plain c :: piecesFrom .nothing rest

/-- The pieces of a mangled name. -/
def mangledPieces (name : List Char) : List Piece := piecesFrom .nothing name

/-- The name without its placeholders. -/
def stripPlaceholders (name : List Char) : List Char :=
  (mangledPieces name).flatMap fun piece =>
    match piece with
    | .plain c => [c]
    | .placeholder _ => []

/-- The arguments in angle brackets, with commas between them. -/
def bracket (args : List (List Char)) : List Char := '<' :: [','].intercalate args ++ ['>']

/-- A name with its placeholders filled in, and how many arguments they took. -/
structure Filled where
  text : List Char
  used : Nat

/-- Why placeholders are not filled. -/
inductive Shortage where
  /-- A count is no size, or asks for more arguments than are left. -/
  | tooFew
  /-- A count and the number of arguments taken before have no sum. -/
  | overflow
  deriving DecidableEq, Repr

/-- How many arguments a placeholder takes, with `used` of the `available` ones taken before it. -/
def grant (available used : Nat) (digits : List Char) : Except Shortage Nat :=
  match Text.readDigits digits with
  | none => .error .tooFew
  | some count =>
    match Text.addSizes used count with
    | none => .error .overflow
    | some taken => if taken > available then .error .tooFew else .ok count

theorem grant_eq_ok_iff {available used count : Nat} {digits : List Char} :
    grant available used digits = .ok count
      ↔ Text.readDigits digits = some count ∧ used + count < Text.sizeLimit
        ∧ used + count ≤ available := by
  unfold grant
  cases Text.readDigits digits with
  | none => simp
  | some asked =>
      simp only [Text.addSizes, Option.some.injEq]
      by_cases hsmall : used + asked < Text.sizeLimit
      · by_cases hmany : used + asked > available
        · simp [hsmall, hmany]
          omega
        · simp [hsmall, hmany]
          omega
      · simp [hsmall]
        omega

theorem grant_eq_overflow_iff {available used : Nat} {digits : List Char} :
    grant available used digits = .error .overflow
      ↔ ∃ count, Text.readDigits digits = some count ∧ Text.sizeLimit ≤ used + count := by
  unfold grant
  cases Text.readDigits digits with
  | none => simp
  | some asked =>
      simp only [Text.addSizes]
      by_cases hsmall : used + asked < Text.sizeLimit
      · by_cases hmany : used + asked > available
        · simp [hsmall, hmany]
        · simp [hsmall, hmany]
      · simp [hsmall, Nat.not_lt.mp hsmall]

/-- Fills the placeholders from `args`, `used` of which are taken already. -/
def fill (args : List (List Char)) (used : Nat) : List Piece → Except Shortage Filled
  | [] => .ok ⟨[], used⟩
  | .plain c :: rest => (fill args used rest).map fun filled => ⟨c :: filled.text, filled.used⟩
  | .placeholder digits :: rest =>
    match grant args.length used digits with
    | .error shortage => .error shortage
    | .ok count =>
      (fill args (used + count) rest).map fun filled =>
        ⟨bracket ((args.drop used).take count) ++ filled.text, filled.used⟩

/-- Why a name is not localized, and which: the name itself, or the argument that failed. -/
inductive Fault where
  /-- The name asks for more arguments than there are, or its brackets do not match. -/
  | malformed (name : List Char)
  /-- The arguments that the name asks for cannot be counted: the operation ends there. -/
  | overflow (name : List Char)
  deriving DecidableEq, Repr

/-- The fault of a name that cannot be filled. -/
def Shortage.fault (name : List Char) : Shortage → Fault
  | tooFew => .malformed name
  | overflow => .overflow name

/-- Localizes a name that carries its own arguments.  They fill the placeholders before them; if
there are none, the list stays as it is.  Arguments are localized in the same way, and a name
without a list stays as it is.  The fault names the innermost name that failed. -/
def localizeOwn (name : List Char) : Except Fault (List Char) :=
  match _h : firstList name with
  | .absent => .ok name
  | .unclosed _ _ => .error (.malformed name)
  | .found cut =>
    match (arguments cut.inside).attach.mapM fun arg => localizeOwn arg.1 with
    | .error fault => .error fault
    | .ok args =>
      match fill args 0 (mangledPieces cut.head) with
      | .error shortage => .error (shortage.fault name)
      | .ok filled =>
        .ok (filled.text ++ (if filled.used = 0 then bracket args else []) ++ cut.tail)
  termination_by name.length
  decreasing_by
    have h₁ := length_le_of_mem_arguments arg.2
    have h₂ := firstList_length _h
    omega

/-- Localizes a name.  Its own arguments come first; a name without any takes them from the front
of `generics`, one placeholder after the other. -/
def localizeChars (name : List Char) (generics : List (List Char)) : Except Fault (List Char) :=
  if generics.isEmpty ∨ '<' ∈ name then localizeOwn name
  else
    match fill generics 0 (mangledPieces name) with
    | .error shortage => .error (shortage.fault name)
    | .ok filled => .ok filled.text

/-- The name with the number of its arguments in the place of the first argument list.  Nested
types after a `/` keep their own number, and anything else after the list is dropped. -/
def unlocalizeChars (name : List Char) : List Char :=
  match _h : firstList name with
  | .absent => name
  | .unclosed head rest => head ++ arityMark :: Nat.toDigits 10 (arguments rest).length
  | .found cut =>
    let mangled := cut.head ++ arityMark :: Nat.toDigits 10 (arguments cut.inside).length
    if cut.tail.head? = some '/' then mangled ++ unlocalizeChars cut.tail else mangled
  termination_by name.length
  decreasing_by
    have := firstList_length _h
    omega

/-! ### On text -/

/-- The name with arguments in the place of its placeholders. -/
def localizeOrFault (name : String) (generics : List String) : Except Fault String :=
  (localizeChars name.toList (generics.map String.toList)).map String.ofList

/-- The error that a fault is reported as.  An overflow ends the operation before there is a report;
where there is one all the same, such a name counts as malformed. -/
def Fault.error : Fault → Error
  | malformed name => .malformedGenericName (String.ofList name)
  | overflow name => .malformedGenericName (String.ofList name)

/-- The name with arguments in the place of its placeholders, or the reported error. -/
def localize (name : String) (generics : List String) : Except Error String :=
  (localizeOrFault name generics).mapError Fault.error

/-- The name with placeholders in the place of its argument lists. -/
def unlocalize (name : String) : String := String.ofList (unlocalizeChars name.toList)

/-- The name without its placeholders. -/
def stripArity (name : String) : String := String.ofList (stripPlaceholders name.toList)

/-- The arguments of the first argument list of a name. -/
def argumentNames (name : String) : List String :=
  match firstList name.toList with
  | .absent => []
  | .unclosed _ rest => (arguments rest).map String.ofList
  | .found cut => (arguments cut.inside).map String.ofList

end ApiSurface.Name
