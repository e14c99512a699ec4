/-
Argument lists in angle brackets.

A rendered name may carry an argument list, `Dictionary<string,List<int>>`.
`closing` finds the bracket that closes an opened list, and `arguments` splits
the inside of a list at its own commas, leaving those of inner lists alone.
-/
import ApiSurface.Text.Words

namespace ApiSurface.Name

/-- The text up to the bracket that closes `depth` further open ones and the text after it, or
`none` if it is never closed. -/
def closing (depth : Nat) : List Char → Option (List Char × List Char)
  | [] => none
  | c :: rest =>
    if c = '>' ∧ depth = 0 then some ([], rest)
    else
      let depth' := if c = '<' then depth + 1 else if c = '>' then depth - 1 else depth
      (closing depth' rest).map fun cut => (c :: cut.1, cut.2)

/-- The pieces between the commas outside all brackets, blanks around them dropped.  `current` is
the reversed piece read so far; a closing bracket too many makes the depth negative. -/
def argumentsFrom (depth : Int) (current : List Char) : List Char → List (List Char)
  | [] => [Text.trim current.reverse]
  | c :: rest =>
    if c = ',' ∧ depth = 0 then Text.trim current.reverse :: argumentsFrom 0 [] rest
    else
      let depth' := if c = '<' then depth + 1 else if c = '>' then depth - 1 else depth
      argumentsFrom depth' (c :: current) rest

/-- The arguments that the inside of an argument list separates by commas. -/
def arguments (inside : List Char) : List (List Char) := argumentsFrom 0 [] inside

/-- A name cut at its first argument list. -/
structure Bracketed where
  /-- What stands before the list. -/
  head : List Char
  /-- The inside of the list. -/
  inside : List Char
  /-- What stands after the list. -/
  tail : List Char

/-- The first argument list of a name: no bracket, one that is never closed (what stands before
it and after it), or a list. -/
inductive FirstList where
  | absent
  | unclosed (head rest : List Char)
  | found (name : Bracketed)

/-- Finds the first argument list of a name. -/
def firstList (name : List Char) : FirstList :=
  match Text.cutFirst '<' name with
  | none => .absent
  | some (head, rest) =>
    match closing 0 rest with
    | none => .unclosed head rest
    | some (inside, tail) => .found ⟨head, inside, tail⟩

/-! ### Nothing grows -/

theorem closing_length {depth : Nat} {text inside tail : List Char}
    (h : closing depth text = some (inside, tail)) :
    inside.length + tail.length < text.length := by
  induction text generalizing depth inside tail with
  | nil => simp [closing] at h
  | cons c rest ih =>
    rw [closing] at h
    split at h
    · obtain ⟨rfl, rfl⟩ := Prod.mk.inj (Option.some.inj h)
      simp
    · obtain ⟨⟨a, b⟩, hcut, heq⟩ := Option.map_eq_some_iff.mp h
      obtain ⟨rfl, rfl⟩ := Prod.mk.inj heq
      have := ih hcut
      simp only [List.length_cons]
      omega

/-- What stands inside and after an argument list is shorter than the name. -/
theorem firstList_length {name : List Char} {cut : Bracketed} (h : firstList name = .found cut) :
    cut.inside.length + cut.tail.length < name.length := by
  unfold firstList at h
  split at h
  · simp at h
  · rename_i head rest hcut
    split at h
    · simp at h
    · rename_i inside tail hclose
      obtain rfl := FirstList.found.inj h
      have h₁ := closing_length hclose
      have h₂ := (Text.cutFirst_eq_some hcut).1
      subst h₂
      simp only [List.length_append, List.length_cons]
      omega

theorem argumentsFrom_length {depth : Int} {current text arg : List Char}
    (h : arg ∈ argumentsFrom depth current text) : arg.length ≤ current.length + text.length := by
  induction text generalizing depth current with
  | nil =>
    simp only [argumentsFrom, List.mem_singleton] at h
    subst h
    have := Text.length_trim_le current.reverse
    simp only [List.length_reverse, List.length_nil] at *
    omega
  | cons c rest ih =>
    rw [argumentsFrom] at h
    split at h
    · rcases List.mem_cons.mp h with rfl | h
      · have := Text.length_trim_le current.reverse
        simp only [List.length_reverse, List.length_cons] at *
        omega
      · have := ih h
        simp only [List.length_nil, List.length_cons] at *
        omega
    · have := ih h
      simp only [List.length_cons] at *
      omega

/-- An argument is no longer than the list it stands in. -/
theorem length_le_of_mem_arguments {inside arg : List Char} (h : arg ∈ arguments inside) :
    arg.length ≤ inside.length := by
  simpa using argumentsFrom_length h

end ApiSurface.Name
