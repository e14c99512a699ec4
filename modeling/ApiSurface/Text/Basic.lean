/-
Cutting text at a character and joining pieces with a separator.

Names are stored as `String`s and taken apart as lists of characters, because a
pass over a name is a recursion on its characters.  A cut gives back both sides
and drops the character it was made at, so the text is always
`before ++ c :: after`; `cutFirst_eq_some` and `cutLast_eq_some` say so.
-/
namespace ApiSurface.Text

/-- The parts one after the other, with `sep` between neighbours. -/
def join (sep : String) : List String → String
  | [] => ""
  | [part] => part
  | part :: rest => part ++ sep ++ join sep rest

/-- Every `old` becomes `new`; all other characters stay. -/
def swap (old new : Char) (text : String) : String :=
  String.ofList (text.toList.map fun c => if c = old then new else c)

/-- `n` copies of one text, one after the other. -/
def copies (text : String) : Nat → String
  | 0 => ""
  | n + 1 => text ++ copies text n

/-- The word with a space after it, or nothing if it is empty. -/
def spaced (word : String) : String := if word.isEmpty then "" else word ++ " "

/-- Both sides of the first `c`, or `none` if there is no `c`. -/
def cutFirst (c : Char) : List Char → Option (List Char × List Char)
  | [] => none
  | d :: rest =>
    if d = c then some ([], rest)
    else (cutFirst c rest).map fun cut => (d :: cut.1, cut.2)

/-- Both sides of the last `c`, or `none` if there is no `c`. -/
def cutLast (c : Char) : List Char → Option (List Char × List Char)
  | [] => none
  | d :: rest =>
    match cutLast c rest with
    | some cut => some (d :: cut.1, cut.2)
    | none => if d = c then some ([], rest) else none

/-- The pieces between the `c`s; a text without `c` is one piece. -/
def pieces (c : Char) : List Char → List (List Char)
  | [] => [[]]
  | d :: rest =>
    if d = c then [] :: pieces c rest
    else match pieces c rest with
      | [] => [[d]]
      | piece :: others => (d :: piece) :: others

/-- The rest of a text after the beginning `start`, or `none` if it begins otherwise. -/
def afterStart : (start text : List Char) → Option (List Char)
  | [], text => some text
  | _ :: _, [] => none
  | c :: start, d :: text => if c = d then afterStart start text else none

/-! ### What a cut leaves -/

/-- A cut loses nothing but the character it was made at, and that was the first. -/
theorem cutFirst_eq_some {c : Char} {text before after : List Char}
    (h : cutFirst c text = some (before, after)) :
    text = before ++ c :: after ∧ c ∉ before := by
  induction text generalizing before after with
  | nil => simp [cutFirst] at h
  | cons d rest ih =>
    rw [cutFirst] at h
    split at h
    · rename_i hd
      obtain ⟨rfl, rfl⟩ := Prod.mk.inj (Option.some.inj h)
      simp [hd]
    · rename_i hd
      obtain ⟨⟨b, a⟩, hcut, heq⟩ := Option.map_eq_some_iff.mp h
      obtain ⟨rfl, rfl⟩ := Prod.mk.inj heq
      obtain ⟨rfl, hb⟩ := ih hcut
      exact ⟨rfl, by simp [hb, Ne.symm hd]⟩

theorem cutFirst_eq_none_iff {c : Char} {text : List Char} :
    cutFirst c text = none ↔ c ∉ text := by
  induction text with
  | nil => simp [cutFirst]
  | cons d rest ih =>
    rw [cutFirst]
    split
    · rename_i hd; simp [hd]
    · rename_i hd; simp [ih, Ne.symm hd]

theorem cutLast_eq_none_iff {c : Char} {text : List Char} :
    cutLast c text = none ↔ c ∉ text := by
  induction text with
  | nil => simp [cutLast]
  | cons d rest ih =>
    rw [cutLast]
    cases hcut : cutLast c rest with
    | some cut =>
      have hmem : c ∈ rest := by
        by_cases hc : c ∈ rest
        · exact hc
        · simp [ih.mpr hc] at hcut
      simp [hmem]
    | none =>
      have hmem : c ∉ rest := ih.mp hcut
      by_cases hd : d = c
      · simp [hd]
      · simp [hd, hmem, Ne.symm hd]

/-- A cut loses nothing but the character it was made at, and that was the last. -/
theorem cutLast_eq_some {c : Char} {text before after : List Char}
    (h : cutLast c text = some (before, after)) :
    text = before ++ c :: after ∧ c ∉ after := by
  induction text generalizing before after with
  | nil => simp [cutLast] at h
  | cons d rest ih =>
    rw [cutLast] at h
    split at h
    · rename_i cut hcut
      obtain ⟨rfl, rfl⟩ := Prod.mk.inj (Option.some.inj h)
      obtain ⟨hrest, hafter⟩ := ih hcut
      exact ⟨by rw [hrest]; rfl, hafter⟩
    · rename_i hcut
      split at h
      · rename_i hd
        obtain ⟨rfl, rfl⟩ := Prod.mk.inj (Option.some.inj h)
        exact ⟨by simp [hd], cutLast_eq_none_iff.mp hcut⟩
      · simp at h

end ApiSurface.Text
