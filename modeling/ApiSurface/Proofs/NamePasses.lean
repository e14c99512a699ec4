/-
What the passes over a name do to its renderings.

Each pass has one law: there are characters at which it can be cut, so that what
stands before and behind such a character is treated on its own.  The brackets,
commas and slashes between the names of a rendering are such characters for every
pass, apart from the comma and the slash where a pass is there to rewrite them.
What is left is what the pass does to one name, and that makes it a step from one
style to the next:

    localized  →  slashed  →  full
                  slashed  →  friendly  →  unqualified  →  spaced  →  displayed
-/
import ApiSurface.Proofs.Rendering
import ApiSurface.Shown.Reference

namespace ApiSurface

open Text

namespace Rendering

/-- Full names with a slash before nested types. -/
def slashed : Rendering := { full with joint := "/" }

/-- Arities that nothing fills are still there. -/
def localized : Rendering := { slashed with keepsArity := true }

/-- Framework types are written by their keywords, all others with their namespaces. -/
def friendly : Rendering :=
  { slashed with
    outermost := fun space name =>
      (Name.keyword? (qualified space name)).getD (qualified space name) }

def spaced : Rendering := { displayed with joint := "/" }

def unqualified : Rendering := { spaced with separator := "," }

end Rendering

open Rendering

/-! ### Characters of words -/

theorem isWordChar_bounds {c : Char} (h : Name.isWordChar c = true) :
    (48 ≤ c.toNat ∧ c.toNat ≤ 57) ∨ (65 ≤ c.toNat ∧ c.toNat ≤ 90) ∨ c.toNat = 95
      ∨ (97 ≤ c.toNat ∧ c.toNat ≤ 122) := by
  delta Name.isWordChar Char.isAlphanum Char.isAlpha Char.isUpper Char.isLower Char.isDigit at h
  simp only [Bool.or_eq_true, Bool.and_eq_true, decide_eq_true_eq] at h
  simp only [Char.toNat, UInt32.le_iff_toNat_le, ge_iff_le] at *
  rcases h with ((⟨h1, h2⟩ | ⟨h1, h2⟩) | ⟨h1, h2⟩) | rfl
  · exact Or.inr (Or.inl ⟨h1, h2⟩)
  · exact Or.inr (Or.inr (Or.inr ⟨h1, h2⟩))
  · exact Or.inl ⟨h1, h2⟩
  · exact Or.inr (Or.inr (Or.inl rfl))

theorem isInert_of_isWordChar {c : Char} (h : Name.isWordChar c = true) :
    Name.isInert c = true := by
  have hbounds := isWordChar_bounds h
  refine Name.isInert_iff.mpr ⟨⟨?_, ?_⟩, ?_, ?_⟩
  · rintro rfl; exact absurd h (by decide)
  · rintro rfl; exact absurd h (by decide)
  · rintro rfl; exact absurd h (by decide)
  · rw [isBlank, Ranges.has, List.any_eq_false]
    intro range hrange hin
    simp only [Bool.and_eq_true, decide_eq_true_eq] at hin
    simp only [blanks, List.mem_cons, List.not_mem_nil, or_false] at hrange
    rcases hrange with rfl | rfl | rfl | rfl | rfl | rfl | rfl | rfl | rfl | rfl <;>
      simp only at hin <;> omega

theorem isWordCharacter_of_isWordChar {c : Char} (h : Name.isWordChar c = true) :
    isWordCharacter c = true := by
  have hbounds := isWordChar_bounds h
  rw [isWordCharacter, if_pos (by omega)]
  exact h

/-- The characters of a qualified name whose arity is gone. -/
def isPathChar (c : Char) : Bool := Name.isWordChar c || c = '.'

theorem isPathChar_of_isWordChar {c : Char} (h : Name.isWordChar c = true) :
    isPathChar c = true := by
  rw [isPathChar, h, Bool.true_or]

theorem isInert_of_isPathChar {c : Char} (h : isPathChar c = true) : Name.isInert c = true := by
  rw [isPathChar, Bool.or_eq_true, decide_eq_true_eq] at h
  rcases h with hword | rfl
  · exact isInert_of_isWordChar hword
  · decide

section Names

variable {spaces : List String} {name : String}

theorem mem_qualified (hspaces : ∀ space ∈ spaces, IsIdentifier space) {c : Char}
    (hc : c ∈ (qualified (join "." spaces) name).toList) :
    isPathChar c = true ∨ c ∈ name.toList := by
  unfold qualified TypeName.fullName at hc
  split at hc
  · exact Or.inr hc
  · rw [String.toList_append, String.toList_append, List.mem_append, List.mem_append] at hc
    rcases hc with (hc | hc) | hc
    · rcases mem_toList_join hc with hdot | ⟨space, hspace, hmem⟩
      · rw [List.mem_singleton.mp hdot]
        exact Or.inl (by decide)
      · exact Or.inl (isPathChar_of_isWordChar ((hspaces space hspace).chars c hmem))
    · rw [List.mem_singleton.mp hc]
      exact Or.inl (by decide)
    · exact Or.inr hc

theorem qualified_append (space name suffix : String) :
    qualified space (name ++ suffix) = qualified space name ++ suffix := by
  unfold qualified TypeName.fullName
  split
  · rfl
  · simp only [String.append_assoc]

theorem qualified_isPathChar (hspaces : ∀ space ∈ spaces, IsIdentifier space)
    (hname : IsIdentifier name) :
    ∀ c ∈ (qualified (join "." spaces) name).toList, isPathChar c = true := by
  intro c hc
  rcases mem_qualified hspaces hc with hpath | hmem
  · exact hpath
  · exact isPathChar_of_isWordChar (hname.chars c hmem)

theorem join_spaces_isEmpty_iff (hspaces : ∀ space ∈ spaces, IsIdentifier space) :
    (join "." spaces).isEmpty = true ↔ spaces = [] := by
  constructor
  · intro hempty
    by_contra hne
    exact join_ne_empty hne (fun space hspace => (hspaces space hspace).nonempty)
      (String.isEmpty_iff.mp hempty)
  · rintro rfl
    rfl

/-- A qualified name is the path of its namespace and its name. -/
theorem qualified_eq_join (hspaces : ∀ space ∈ spaces, IsIdentifier space) (name : String) :
    qualified (join "." spaces) name = join "." (spaces ++ [name]) := by
  unfold qualified TypeName.fullName
  by_cases hnil : spaces = []
  · rw [hnil]
    rfl
  · rw [if_neg (fun hempty => hnil ((join_spaces_isEmpty_iff hspaces).mp hempty)),
      join_append hnil (List.cons_ne_nil name [])]
    rfl

theorem qualified_startsWord (hspaces : ∀ space ∈ spaces, IsIdentifier space)
    (hname : StartsWord name.toList) : StartsWord (qualified (join "." spaces) name).toList := by
  rw [qualified_eq_join hspaces]
  cases spaces with
  | nil => exact hname
  | cons first rest =>
      obtain ⟨next, more, hmore⟩ := List.exists_cons_of_ne_nil (List.append_ne_nil_of_right_ne_nil
        rest (List.cons_ne_nil name []))
      rw [List.cons_append, hmore, toList_join_cons]
      exact (hspaces first List.mem_cons_self).startsWord.append _

end Names

theorem HasArity.startsWord {name : String} {arity : Nat} (h : HasArity name arity) :
    StartsWord name.toList := by
  cases h with
  | bare h => exact h.startsWord
  | marked h hpos =>
      rw [toList_marked]
      exact h.startsWord.append _

theorem HasArity.label_startsWord {name : String} {arity : Nat} (h : HasArity name arity)
    (style : Rendering) (isFilled : Bool) : StartsWord (style.label isFilled name).toList := by
  unfold Rendering.label
  split
  · exact h.startsWord
  · exact h.plain.startsWord

/-! ### Dropping arities -/

theorem piecesFrom_append {c : Char} (hmark : Name.isMark c = false)
    (hdigit : isDecimalDigit c = false) (before after : List Char) (pending : Name.Pending) :
    Name.piecesFrom pending (before ++ c :: after)
      = Name.piecesFrom pending before ++ .plain c :: Name.piecesFrom .nothing after := by
  induction before generalizing pending with
  | nil => cases pending <;> simp [Name.piecesFrom, hmark, hdigit, Name.Pending.settle]
  | cons d rest ih =>
      cases pending with
      | nothing =>
          by_cases hd : Name.isMark d
          · simp [Name.piecesFrom, hd, ih]
          · simp [Name.piecesFrom, hd, ih]
      | marks count =>
          by_cases hd : Name.isMark d
          · simp [Name.piecesFrom, hd, ih]
          · by_cases hd' : isDecimalDigit d
            · simp [Name.piecesFrom, hd, hd', ih]
            · simp [Name.piecesFrom, hd, hd', ih]
      | digits reversed =>
          by_cases hd' : isDecimalDigit d
          · simp [Name.piecesFrom, hd', ih]
          · by_cases hd : Name.isMark d
            · simp [Name.piecesFrom, hd, hd', ih]
            · simp [Name.piecesFrom, hd, hd', ih]

theorem isMark_eq_false {c : Char} {text : List Char} (h : arityMark ∉ text) (hc : c ∈ text) :
    Name.isMark c = false := by
  have hne : c ≠ arityMark := by
    rintro rfl
    exact h hc
  simpa [Name.isMark] using hne

theorem mangledPieces_append {text : List Char} (h : arityMark ∉ text) (rest : List Char) :
    Name.mangledPieces (text ++ rest) = text.map .plain ++ Name.mangledPieces rest := by
  unfold Name.mangledPieces
  induction text with
  | nil => rfl
  | cons c text ih =>
      have hc := isMark_eq_false h List.mem_cons_self
      have hrest := ih fun hmem => h (List.mem_cons_of_mem c hmem)
      simp [Name.piecesFrom, hc, hrest]

theorem mangledPieces_of_notMem {text : List Char} (h : arityMark ∉ text) :
    Name.mangledPieces text = text.map .plain := by
  have hall := mangledPieces_append h []
  rwa [List.append_nil, show Name.mangledPieces [] = [] from rfl, List.append_nil] at hall

theorem piecesFrom_digits {digits : List Char} (h : ∀ c ∈ digits, isDecimalDigit c = true)
    (reversed : List Char) :
    Name.piecesFrom (.digits reversed) digits = [.placeholder (reversed.reverse ++ digits)] := by
  induction digits generalizing reversed with
  | nil => simp [Name.piecesFrom, Name.Pending.settle]
  | cons c rest ih =>
      have hrest := ih (fun d hd => h d (List.mem_cons_of_mem c hd)) (c :: reversed)
      simp [Name.piecesFrom, h c List.mem_cons_self, hrest]

theorem isDecimalDigit_of_isDigit {c : Char} (h : c.isDigit = true) :
    isDecimalDigit c = true := by
  have hword : Name.isWordChar c = true := by
    simp [Name.isWordChar, Char.isAlphanum, h]
  have hbounds := isWordChar_bounds hword
  rw [isDecimalDigit, if_pos (by omega), h]

/-- A mark with a number behind it is one placeholder. -/
theorem mangledPieces_mark (arity : Nat) :
    Name.mangledPieces (arityMark :: (naturalText arity).toList)
      = [.placeholder (naturalText arity).toList] := by
  have hdigits : ∀ c ∈ (naturalText arity).toList, isDecimalDigit c = true := by
    intro c hc
    rw [naturalText, String.toList_ofList] at hc
    exact isDecimalDigit_of_isDigit (Nat.isDigit_of_mem_toDigits (by decide) (by decide) hc)
  have hmark : arityMark ∉ (naturalText arity).toList := fun hmem =>
    mem_naturalText hmem (by decide)
  cases hlist : (naturalText arity).toList with
  | nil => exact absurd (String.toList_eq_nil_iff.mp hlist) (naturalText_ne_empty arity)
  | cons c rest =>
      rw [hlist] at hdigits hmark
      have hc := isMark_eq_false hmark List.mem_cons_self
      have hc' := hdigits c List.mem_cons_self
      have hrest := piecesFrom_digits (fun d hd => hdigits d (List.mem_cons_of_mem c hd)) [c]
      have hopen : Name.isMark arityMark = true := by decide
      simp [Name.mangledPieces, Name.piecesFrom, hopen, hc, hc', hrest]

theorem stripPlaceholders_separates {c : Char} (hmark : Name.isMark c = false)
    (hdigit : isDecimalDigit c = false) : Separates Name.stripPlaceholders c := by
  intro before after
  unfold Name.stripPlaceholders Name.mangledPieces
  rw [piecesFrom_append hmark hdigit, List.flatMap_append, List.flatMap_cons]
  rfl

theorem stripPlaceholders_plain (text : List Char) :
    ((text.map Name.Piece.plain).flatMap fun piece =>
      match piece with
      | .plain c => [c]
      | .placeholder _ => []) = text := by
  induction text with
  | nil => rfl
  | cons c rest ih => rw [List.map_cons, List.flatMap_cons, ih]; rfl

theorem stripPlaceholders_of_notMem {text : List Char} (h : arityMark ∉ text) :
    Name.stripPlaceholders text = text := by
  rw [Name.stripPlaceholders, mangledPieces_of_notMem h]
  exact stripPlaceholders_plain text

theorem stripPlaceholders_marked {text : List Char} (h : arityMark ∉ text) (arity : Nat) :
    Name.stripPlaceholders (text ++ arityMark :: (naturalText arity).toList) = text := by
  rw [Name.stripPlaceholders, mangledPieces_append h, mangledPieces_mark, List.flatMap_append]
  exact (congrArg (· ++ []) (stripPlaceholders_plain text)).trans (List.append_nil text)

/-- On a segment behind any text without marks, only the arity goes. -/
theorem HasArity.strip {name : String} {arity : Nat} (h : HasArity name arity)
    {before : List Char} (hbefore : arityMark ∉ before) :
    Name.stripPlaceholders (before ++ name.toList) = before ++ (plainOf name).toList := by
  have hplain : arityMark ∉ before ++ (plainOf name).toList := by
    intro hmem
    rcases List.mem_append.mp hmem with hmem | hmem
    · exact hbefore hmem
    · exact h.plain.notMem (by decide) hmem
  cases h with
  | bare h =>
      rw [plainOf_of_notMem (h.notMem (by decide))] at hplain ⊢
      exact stripPlaceholders_of_notMem hplain
  | marked h hpos =>
      rw [plainOf_marked] at hplain ⊢
      rw [toList_marked, ← List.append_assoc]
      exact stripPlaceholders_marked hplain _

/-- What stands before a qualified name is its namespace and a dot. -/
theorem notMem_qualified {space : String} {c : Char} (h : c ∉ space.toList) (hdot : c ≠ '.') :
    c ∉ (qualified space "").toList := by
  intro hmem
  unfold qualified TypeName.fullName at hmem
  split at hmem
  · exact absurd hmem (by simp)
  · rw [String.append_empty, String.toList_append, List.mem_append] at hmem
    rcases hmem with hmem | hmem
    · exact h hmem
    · exact hdot (List.mem_singleton.mp hmem)

theorem arityMark_notMem_qualified {spaces : List String}
    (hspaces : ∀ space ∈ spaces, IsIdentifier space) :
    arityMark ∉ (qualified (join "." spaces) "").toList :=
  notMem_qualified (notMem_join_identifiers hspaces (by decide) (by decide)) (by decide)

theorem toList_qualified (space name : String) :
    (qualified space name).toList = (qualified space "").toList ++ name.toList := by
  have happend := qualified_append space "" name
  rw [String.empty_append] at happend
  rw [happend, String.toList_append]

/-- A label with or without its arity becomes the plain name. -/
theorem strip_label {name : String} {arity : Nat} (h : HasArity name arity) (isFilled : Bool)
    {before : List Char} (hbefore : arityMark ∉ before) :
    Name.stripPlaceholders (before ++ (localized.label isFilled name).toList)
      = before ++ (slashed.label isFilled name).toList := by
  have hplain : HasArity (plainOf name) 0 := .bare h.plain
  have hsame : plainOf (plainOf name) = plainOf name :=
    plainOf_of_notMem (h.plain.notMem (by decide))
  cases isFilled with
  | false => exact h.strip hbefore
  | true =>
      have hstrip := hplain.strip hbefore
      rwa [hsame] at hstrip

/-- A pass that can be cut at every bracket, comma and slash keeps all of them. -/
theorem Rendering.TurnsMarks.of_separates {f : List Char → List Char} {old new : Rendering}
    (hnil : f [] = []) (hsep : ∀ c ∈ ['<', '>', '[', ']', '&', '*', ',', '/'], Separates f c)
    (hold : old.joint = "/" ∧ old.separator = "," ∧ old.hollow = "<>")
    (hnew : new.joint = "/" ∧ new.separator = "," ∧ new.hollow = "<>") :
    TurnsMarks f old new where
  nil := hnil
  commas := by
    intro n
    induction n with
    | zero => exact hnil
    | succ n ih =>
        have hcut := hsep ',' (by decide) [] (List.replicate n ',')
        rw [List.nil_append, hnil, ih] at hcut
        exact hcut
  separates := by
    intro c hc
    refine hsep c ?_
    simp only [List.mem_cons, List.not_mem_nil, or_false] at hc ⊢
    tauto
  joint := by
    intro before after
    rw [hold.1, hnew.1, List.append_assoc, List.append_assoc]
    exact hsep '/' (by decide) before after
  separator := by
    intro before after _
    rw [hold.2.1, hnew.2.1, List.append_assoc, List.append_assoc]
    exact hsep ',' (by decide) before after
  hollow := ⟨hold.2.2, hnew.2.2⟩

theorem turns_stripPlaceholders : Turns Name.stripPlaceholders localized slashed where
  toTurnsMarks := by
    refine .of_separates rfl ?_ ⟨rfl, rfl, rfl⟩ ⟨rfl, rfl, rfl⟩
    intro c hc
    have hplain := forall_mem_of_all
      (p := fun c => Name.isMark c = false ∧ isDecimalDigit c = false) (by decide) c hc
    exact stripPlaceholders_separates hplain.1 hplain.2
  identifier hname := stripPlaceholders_of_notMem (hname.notMem (by decide))
  label hname isFilled := strip_label hname isFilled (List.not_mem_nil (a := arityMark))
  outermost := by
    intro spaces name arity hspaces hname isFilled
    show Name.stripPlaceholders
        (qualified (join "." spaces) (localized.label isFilled name)).toList
      = (qualified (join "." spaces) (slashed.label isFilled name)).toList
    rw [toList_qualified, toList_qualified _ (slashed.label isFilled name)]
    exact strip_label hname isFilled (arityMark_notMem_qualified hspaces)
  starts := by
    intro spaces name arity hspaces hname isFilled
    show StartsWord (qualified (join "." spaces) (localized.label isFilled name)).toList
    exact qualified_startsWord hspaces (hname.label_startsWord localized isFilled)

/-! ### Keywords -/

theorem friendlyChars_separates {c : Char} (hc : Name.isTokenChar c = false) :
    Separates Name.friendlyChars c := by
  intro before after
  have hfrom : ∀ current, Name.friendlyFrom current (before ++ c :: after)
      = Name.friendlyFrom current before ++ c :: Name.friendlyFrom [] after := by
    induction before with
    | nil => intro current; simp [Name.friendlyFrom, hc]
    | cons d rest ih =>
        intro current
        by_cases hd : Name.isTokenChar d
        · simp [Name.friendlyFrom, hd, ih]
        · simp [Name.friendlyFrom, hd, ih]
  exact hfrom []

theorem friendlyChars_of_token {text : List Char} (h : ∀ c ∈ text, Name.isTokenChar c = true) :
    Name.friendlyChars text = Name.friendlyToken text := by
  have hfrom : ∀ current, Name.friendlyFrom current text
      = Name.friendlyToken (current.reverse ++ text) := by
    induction text with
    | nil => intro current; simp [Name.friendlyFrom]
    | cons c rest ih =>
        intro current
        have hrest := ih (fun d hd => h d (List.mem_cons_of_mem c hd)) (c :: current)
        simp [Name.friendlyFrom, h c List.mem_cons_self, hrest]
  exact hfrom []

theorem mem_keywords {name keyword : String} (h : Name.keyword? name = some keyword) :
    (name, keyword) ∈ Name.keywords := by
  obtain ⟨before, after, heq, -⟩ := List.lookup_eq_some_iff.mp h
  simp [heq]

/-- A framework type with a keyword is in a namespace, and its keyword is a word. -/
theorem keyword?_eq_some {name keyword : String} (h : Name.keyword? name = some keyword) :
    '.' ∈ name.toList ∧ IsIdentifier keyword := by
  have hall : Name.keywords.all (fun entry => entry.1.toList.contains '.' && !entry.2.isEmpty
      && entry.2.toList.all Name.isWordChar) = true := by decide
  have hentry := List.all_eq_true.mp hall _ (mem_keywords h)
  simp only [Bool.and_eq_true, List.contains_eq_mem, decide_eq_true_eq, Bool.not_eq_true',
    List.all_eq_true] at hentry
  obtain ⟨⟨hdot, hne⟩, hword⟩ := hentry
  refine ⟨hdot, ?_, hword⟩
  rintro rfl
  exact absurd hne (by decide)

theorem friendlyToken_toList (name : String) :
    Name.friendlyToken name.toList = ((Name.keyword? name).getD name).toList := by
  unfold Name.friendlyToken
  rw [String.ofList_toList]
  cases Name.keyword? name <;> rfl

theorem isTokenChar_of_isPathChar {c : Char} (h : isPathChar c = true) :
    Name.isTokenChar c = true := by
  simp only [isPathChar, Bool.or_eq_true] at h
  simp only [Name.isTokenChar, Bool.or_eq_true]
  exact Or.inl h

theorem friendlyChars_identifier {name : String} (h : IsIdentifier name) :
    Name.friendlyChars name.toList = name.toList := by
  have hnone : Name.keyword? name = none := by
    cases hkey : Name.keyword? name with
    | none => rfl
    | some keyword =>
        exact absurd (keyword?_eq_some hkey).1 (h.notMem (by decide))
  rw [friendlyChars_of_token fun c hc =>
    isTokenChar_of_isPathChar (isPathChar_of_isWordChar (h.chars c hc)),
    friendlyToken_toList, hnone]
  rfl

theorem turns_friendlyChars : Turns Name.friendlyChars slashed friendly where
  toTurnsMarks := by
    refine .of_separates rfl ?_ ⟨rfl, rfl, rfl⟩ ⟨rfl, rfl, rfl⟩
    intro c hc
    exact friendlyChars_separates
      (forall_mem_of_all (p := fun c => Name.isTokenChar c = false) (by decide) c hc)
  identifier hname := friendlyChars_identifier hname
  label hname _ := friendlyChars_identifier hname.plain
  outermost := by
    intro spaces name arity hspaces hname isFilled
    show Name.friendlyChars (qualified (join "." spaces) (plainOf name)).toList = _
    rw [friendlyChars_of_token, friendlyToken_toList]
    · rfl
    · intro c hc
      exact isTokenChar_of_isPathChar (qualified_isPathChar hspaces hname.plain c hc)
  starts := by
    intro spaces name arity hspaces hname isFilled
    exact qualified_startsWord hspaces hname.plain.startsWord

/-! ### Namespaces -/

/-- The pass that drops namespaces. -/
def dropSpaces (text : List Char) : List Char := Name.unqualifyFrom [] text

theorem dropSpaces_separates {c : Char} (hword : Name.isWordChar c = false) (hdot : c ≠ '.') :
    Separates dropSpaces c := by
  intro before after
  have hfrom : ∀ current, Name.unqualifyFrom current (before ++ c :: after)
      = Name.unqualifyFrom current before ++ c :: Name.unqualifyFrom [] after := by
    induction before with
    | nil => intro current; simp [Name.unqualifyFrom, hword, hdot]
    | cons d rest ih =>
        intro current
        by_cases hd : Name.isWordChar d
        · simp [Name.unqualifyFrom, hd, ih]
        · rw [List.cons_append, Name.unqualifyFrom, Name.unqualifyFrom, if_neg hd, if_neg hd]
          by_cases hqualifier : d = '.' ∧ ¬current.isEmpty = true
          · rw [if_pos hqualifier, if_pos hqualifier, ih]
          · rw [if_neg hqualifier, if_neg hqualifier, ih]
            simp
  exact hfrom []

theorem unqualifyFrom_word {text : List Char} (h : ∀ c ∈ text, Name.isWordChar c = true)
    (current rest : List Char) :
    Name.unqualifyFrom current (text ++ rest)
      = Name.unqualifyFrom (text.reverse ++ current) rest := by
  induction text generalizing current with
  | nil => rfl
  | cons c text ih =>
      have hrest := ih (fun d hd => h d (List.mem_cons_of_mem c hd)) (c :: current)
      simp [Name.unqualifyFrom, h c List.mem_cons_self, hrest]

theorem dropSpaces_identifier {name : String} (h : IsIdentifier name) :
    dropSpaces name.toList = name.toList := by
  have hword := unqualifyFrom_word h.chars [] []
  rw [List.append_nil, List.append_nil] at hword
  rw [dropSpaces, hword, Name.unqualifyFrom, List.reverse_reverse]

/-- A name loses every part of its namespace. -/
theorem dropSpaces_qualified {spaces : List String} {name : String}
    (hspaces : ∀ space ∈ spaces, IsIdentifier space) (hname : IsIdentifier name) :
    dropSpaces (qualified (join "." spaces) name).toList = name.toList := by
  rw [qualified_eq_join hspaces]
  induction spaces with
  | nil => exact dropSpaces_identifier hname
  | cons space rest ih =>
      have hspace := hspaces space List.mem_cons_self
      have hrest := ih fun other hother => hspaces other (List.mem_cons_of_mem space hother)
      obtain ⟨next, more, hmore⟩ := List.exists_cons_of_ne_nil (List.append_ne_nil_of_right_ne_nil
        rest (List.cons_ne_nil name []))
      have hqualifier : space.toList.reverse ++ [] ≠ [] := by
        simpa using hspace.nonempty
      rw [hmore] at hrest
      rw [List.cons_append, hmore, toList_join_cons, dropSpaces, unqualifyFrom_word hspace.chars]
      show Name.unqualifyFrom (space.toList.reverse ++ [])
        ('.' :: (join "." (next :: more)).toList) = name.toList
      rw [Name.unqualifyFrom, if_neg (by decide), if_pos ⟨rfl, by simpa using hqualifier⟩]
      exact hrest

theorem turns_dropSpaces : Turns dropSpaces friendly unqualified where
  toTurnsMarks := by
    refine .of_separates rfl ?_ ⟨rfl, rfl, rfl⟩ ⟨rfl, rfl, rfl⟩
    intro c hc
    have hplain := forall_mem_of_all
      (p := fun c => Name.isWordChar c = false ∧ c ≠ '.') (by decide) c hc
    exact dropSpaces_separates hplain.1 hplain.2
  identifier hname := dropSpaces_identifier hname
  label hname _ := dropSpaces_identifier hname.plain
  outermost := by
    intro spaces name arity hspaces hname isFilled
    show dropSpaces ((Name.keyword? (qualified (join "." spaces) (plainOf name))).getD
        (qualified (join "." spaces) (plainOf name))).toList
      = ((Name.keyword? (qualified (join "." spaces) (plainOf name))).getD (plainOf name)).toList
    cases hkey : Name.keyword? (qualified (join "." spaces) (plainOf name)) with
    | none => exact dropSpaces_qualified hspaces hname.plain
    | some keyword => exact dropSpaces_identifier (keyword?_eq_some hkey).2
  starts := by
    intro spaces name arity hspaces hname isFilled
    show StartsWord ((Name.keyword? (qualified (join "." spaces) (plainOf name))).getD
      (qualified (join "." spaces) (plainOf name))).toList
    cases hkey : Name.keyword? (qualified (join "." spaces) (plainOf name)) with
    | none => exact qualified_startsWord hspaces hname.plain.startsWord
    | some keyword => exact (keyword?_eq_some hkey).2.startsWord

/-! ### Spaces between arguments -/

theorem spaceArguments_cons {c d : Char} (rest : List Char)
    (h : ¬(c = ',' ∧ isWordCharacter d = true)) :
    Name.spaceArguments (c :: d :: rest) = c :: Name.spaceArguments (d :: rest) := by
  rw [Name.spaceArguments, if_neg h]

/-- The text can be cut before a character that starts no word. -/
theorem spaceArguments_append {c : Char} (hc : isWordCharacter c = false)
    (before after : List Char) :
    Name.spaceArguments (before ++ c :: after)
      = Name.spaceArguments before ++ Name.spaceArguments (c :: after) := by
  induction before with
  | nil => rfl
  | cons d rest ih =>
      cases rest with
      | nil => exact spaceArguments_cons after (by simp [hc])
      | cons e rest =>
          show Name.spaceArguments (d :: e :: (rest ++ c :: after)) = _
          rw [Name.spaceArguments, Name.spaceArguments]
          have htail : Name.spaceArguments (e :: (rest ++ c :: after))
              = Name.spaceArguments (e :: rest) ++ Name.spaceArguments (c :: after) := ih
          by_cases hcut : d = ',' ∧ isWordCharacter e = true
          · rw [if_pos hcut, if_pos hcut, htail]
            rfl
          · rw [if_neg hcut, if_neg hcut, htail]
            rfl

theorem spaceArguments_cons_of_ne {c : Char} (hc : c ≠ ',') (rest : List Char) :
    Name.spaceArguments (c :: rest) = c :: Name.spaceArguments rest := by
  cases rest with
  | nil => rfl
  | cons d rest => exact spaceArguments_cons rest fun h => hc h.1

theorem spaceArguments_of_notMem {text : List Char} (h : ',' ∉ text) :
    Name.spaceArguments text = text := by
  induction text with
  | nil => rfl
  | cons c rest ih =>
      have hc : c ≠ ',' := by
        rintro rfl
        exact h List.mem_cons_self
      rw [spaceArguments_cons_of_ne hc, ih fun hmem => h (List.mem_cons_of_mem c hmem)]

theorem spaceArguments_commas (n : Nat) :
    Name.spaceArguments (List.replicate n ',') = List.replicate n ',' := by
  induction n with
  | zero => rfl
  | succ n ih =>
      cases n with
      | zero => rfl
      | succ n =>
          rw [List.replicate_succ, List.replicate_succ, spaceArguments_cons _ (by decide),
            ← List.replicate_succ, ih]

/-- The outermost segment of a displayed name is a keyword or the name itself. -/
theorem displayed_outermost (spaces : List String) {name : String} (hname : IsIdentifier name) :
    IsIdentifier (displayed.outermost (join "." spaces) name) := by
  show IsIdentifier ((Name.keyword? (qualified (join "." spaces) name)).getD name)
  cases hkey : Name.keyword? (qualified (join "." spaces) name) with
  | none => exact hname
  | some keyword => exact (keyword?_eq_some hkey).2

theorem turns_spaceArguments : Turns Name.spaceArguments unqualified spaced where
  nil := rfl
  commas := spaceArguments_commas
  separates := by
    intro c hc before after
    have hplain := forall_mem_of_all
      (p := fun c => isWordCharacter c = false ∧ c ≠ ',') (by decide) c hc
    rw [spaceArguments_append hplain.1, spaceArguments_cons_of_ne hplain.2]
  joint := by
    intro before after
    show Name.spaceArguments (before ++ ['/'] ++ after)
      = Name.spaceArguments before ++ ['/'] ++ Name.spaceArguments after
    rw [List.append_assoc, List.append_assoc]
    show Name.spaceArguments (before ++ '/' :: after) = _
    rw [spaceArguments_append (by decide), spaceArguments_cons_of_ne (by decide)]
    rfl
  separator := by
    rintro before after ⟨c, rest, rfl, hc⟩
    show Name.spaceArguments (before ++ [','] ++ (c :: rest))
      = Name.spaceArguments before ++ [',', ' '] ++ Name.spaceArguments (c :: rest)
    rw [List.append_assoc, List.append_assoc]
    show Name.spaceArguments (before ++ ',' :: c :: rest) = _
    rw [spaceArguments_append (by decide), Name.spaceArguments,
      if_pos ⟨rfl, isWordCharacter_of_isWordChar hc⟩]
    rfl
  hollow := ⟨rfl, rfl⟩
  identifier hname := spaceArguments_of_notMem (hname.notMem (by decide))
  label hname _ := spaceArguments_of_notMem (hname.plain.notMem (by decide))
  outermost := by
    intro spaces name arity hspaces hname isFilled
    exact spaceArguments_of_notMem
      ((displayed_outermost spaces hname.plain).notMem (by decide))
  starts := by
    intro spaces name arity hspaces hname isFilled
    exact (displayed_outermost spaces hname.plain).startsWord

/-! ### Dots between nested types -/

def dotNested (text : List Char) : List Char := text.map fun c => if c = '/' then '.' else c

theorem dotNested_of_notMem {text : List Char} (h : '/' ∉ text) : dotNested text = text := by
  unfold dotNested
  conv_rhs => rw [← List.map_id text]
  refine List.map_congr_left fun c hc => if_neg ?_
  rintro rfl
  exact h hc

/-- The last pass leads from any style with slashes to the one with dots, if no name has a
slash. -/
theorem turns_dotNested {old : Rendering} (hjoint : old.joint = "/") (hhollow : old.hollow = "<>")
    (hseparator : '/' ∉ old.separator.toList) (hkeeps : old.keepsArity = false)
    (houtermost : ∀ {spaces : List String} {name : String},
      (∀ space ∈ spaces, IsIdentifier space) → IsIdentifier name →
        '/' ∉ (old.outermost (join "." spaces) name).toList
          ∧ StartsWord (old.outermost (join "." spaces) name).toList) :
    Turns dotNested old { old with joint := "." } where
  nil := rfl
  commas n := dotNested_of_notMem fun hmem => absurd (List.eq_of_mem_replicate hmem) (by decide)
  separates := by
    intro c hc before after
    have hne := forall_mem_of_all (p := fun c => c ≠ '/') (by decide) c hc
    simp [dotNested, hne]
  joint := by
    intro before after
    rw [hjoint]
    simp [dotNested]
  separator := by
    intro before after _
    have hsame := dotNested_of_notMem hseparator
    unfold dotNested at hsame ⊢
    rw [List.map_append, List.map_append, hsame]
  hollow := ⟨hhollow, hhollow⟩
  identifier hname := dotNested_of_notMem (hname.notMem (by decide))
  label := by
    intro name arity hname isFilled
    unfold Rendering.label
    rw [hkeeps]
    exact dotNested_of_notMem (hname.plain.notMem (by decide))
  outermost := by
    intro spaces name arity hspaces hname isFilled
    unfold Rendering.label
    rw [hkeeps]
    exact dotNested_of_notMem (houtermost hspaces hname.plain).1
  starts := by
    intro spaces name arity hspaces hname isFilled
    unfold Rendering.label
    rw [hkeeps]
    exact (houtermost hspaces hname.plain).2

theorem turns_full : Turns dotNested slashed full := by
  refine turns_dotNested rfl rfl (by decide) rfl ?_
  intro spaces name hspaces hname
  refine ⟨?_, qualified_startsWord hspaces hname.startsWord⟩
  intro hmem
  exact absurd (qualified_isPathChar hspaces hname _ hmem) (by decide)

theorem turns_displayed : Turns dotNested spaced displayed := by
  refine turns_dotNested rfl rfl (by decide) rfl ?_
  intro spaces name hspaces hname
  have hlabel := displayed_outermost spaces hname
  exact ⟨hlabel.notMem (by decide), hlabel.startsWord⟩

end ApiSurface
