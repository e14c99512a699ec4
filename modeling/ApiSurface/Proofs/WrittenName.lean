/-
Writing full names and reading them.

References are made from full names and definitions from parts, and the two meet in
the text that `TypeName.fullName` writes and `TypeName.parse` reads.  The text does not
keep all of a name: it says nothing about assemblies, a slash in a part looks like the
start of a nested type, and a dot in the name of the outermost segment looks like the end
of its namespace.  Names without these are the ones that reading gives back,
`TypeName.IsLegible`; and a text comes back unless its outermost segment has a namespace
that is empty and still ends with a dot.

The reader cuts the text at the slashes and the printer joins with slashes, so both
directions rest on one law of cutting: `Text.pieces_eq_iff`.
-/
import ApiSurface.Proofs.Enclosed
import ApiSurface.TypeName
import Mathlib.Data.List.Basic

namespace ApiSurface

namespace Text

theorem pieces_of_notMem {c : Char} {text : List Char} (h : c ∉ text) : pieces c text = [text] := by
  induction text with
  | nil => rfl
  | cons d rest ih =>
      obtain ⟨hd, hrest⟩ := List.ne_and_not_mem_of_not_mem_cons h
      rw [pieces, if_neg (Ne.symm hd), ih hrest]

theorem pieces_append_cons {c : Char} {first : List Char} (h : c ∉ first) (rest : List Char) :
    pieces c (first ++ c :: rest) = first :: pieces c rest := by
  induction first with
  | nil => rw [List.nil_append, pieces, if_pos rfl]
  | cons d first ih =>
      obtain ⟨hd, hfirst⟩ := List.ne_and_not_mem_of_not_mem_cons h
      rw [List.cons_append, pieces, if_neg (Ne.symm hd), ih hfirst]

/-- Joined texts without the separator are the pieces of what they are joined to. -/
theorem pieces_join {c : Char} {first : List Char} {others : List (List Char)}
    (h : ∀ piece ∈ first :: others, c ∉ piece) :
    pieces c (first ++ others.flatMap (c :: ·)) = first :: others := by
  induction others generalizing first with
  | nil => rw [List.flatMap_nil, List.append_nil, pieces_of_notMem (h first List.mem_cons_self)]
  | cons next others ih =>
      rw [List.flatMap_cons, List.cons_append, pieces_append_cons (h first List.mem_cons_self),
        ih fun piece hpiece => h piece (List.mem_cons_of_mem first hpiece)]

/-- Every text is joined from its pieces, and none of them has the separator. -/
theorem exists_pieces (c : Char) (text : List Char) :
    ∃ first others, pieces c text = first :: others
      ∧ text = first ++ others.flatMap (c :: ·) ∧ ∀ piece ∈ first :: others, c ∉ piece := by
  induction text with
  | nil => exact ⟨[], [], rfl, rfl, by simp⟩
  | cons d rest ih =>
      obtain ⟨first, others, hpieces, hrest, hfree⟩ := ih
      by_cases hd : d = c
      · refine ⟨[], first :: others, by rw [pieces, if_pos hd, hpieces], ?_, ?_⟩
        · rw [hd, hrest]
          rfl
        · intro piece hpiece
          rcases List.mem_cons.mp hpiece with rfl | hpiece
          · exact List.not_mem_nil
          · exact hfree piece hpiece
      · refine ⟨d :: first, others, by rw [pieces, if_neg hd, hpieces], ?_, ?_⟩
        · rw [hrest]
          rfl
        · intro piece hpiece
          rcases List.mem_cons.mp hpiece with rfl | hpiece
          · exact List.not_mem_cons_of_ne_of_not_mem (Ne.symm hd)
              (hfree first List.mem_cons_self)
          · exact hfree piece (List.mem_cons_of_mem first hpiece)

/-- **Cutting and joining are inverse to each other.** -/
theorem pieces_eq_iff {c : Char} {text first : List Char} {others : List (List Char)} :
    pieces c text = first :: others ↔
      text = first ++ others.flatMap (c :: ·) ∧ ∀ piece ∈ first :: others, c ∉ piece := by
  constructor
  · intro h
    obtain ⟨first', others', hpieces, hspec⟩ := exists_pieces c text
    obtain ⟨rfl, rfl⟩ := List.cons.inj (hpieces.symm.trans h)
    exact hspec
  · rintro ⟨rfl, hfree⟩
    exact pieces_join hfree

end Text

namespace TypeName

open Text

/-! ### Reading segment by segment -/

/-- The type at the end of a path of names, each inside the one before. -/
def descend (outer : TypeName) (names : List (List Char)) : TypeName :=
  names.foldl (fun outer name => outer.inside (String.ofList name)) outer

theorem descend_concat (outer : TypeName) (names : List (List Char)) (name : List Char) :
    outer.descend (names ++ [name]) = (outer.descend names).inside (String.ofList name) :=
  List.foldl_append

theorem parse_of_pieces {text : String} {first : List Char} {others : List (List Char)}
    (h : pieces '/' text.toList = first :: others) :
    parse text = (parseTop first).descend others := by
  rw [parse, h]
  rfl

theorem toList_fullName_descend (outer : TypeName) (names : List (List Char)) :
    (outer.descend names).fullName.toList = outer.fullName.toList ++ names.flatMap ('/' :: ·) := by
  induction names generalizing outer with
  | nil => rw [List.flatMap_nil, List.append_nil]; rfl
  | cons name names ih =>
      show ((outer.inside (String.ofList name)).descend names).fullName.toList = _
      rw [ih, inside, toList_fullName_nested, String.toList_ofList, List.append_assoc]
      rfl

/-! ### The outermost segment -/

/-- The segment has a dot for its namespace to end at, but nothing stands before it. -/
def HidesDot (segment : List Char) : Prop := ∃ name, segment = '.' :: name ∧ '.' ∉ name

theorem parseTop_of_notMem {segment : List Char} (h : '.' ∉ segment) :
    parseTop segment = top "" (String.ofList segment) none := by
  rw [parseTop, cutLast_eq_none_iff.mpr h]

theorem parseTop_append {name : List Char} (h : '.' ∉ name) (space : List Char) :
    parseTop (space ++ '.' :: name) = top (String.ofList space) (String.ofList name) none := by
  rw [parseTop, cutLast_append h]

/-- Every segment is a name, or a namespace and a name with a dot between them. -/
theorem segment_cases (segment : List Char) :
    '.' ∉ segment ∨ ∃ space name, segment = space ++ '.' :: name ∧ '.' ∉ name := by
  cases hcut : cutLast '.' segment with
  | none => exact Or.inl (cutLast_eq_none_iff.mp hcut)
  | some cut => exact Or.inr ⟨cut.1, cut.2, cutLast_eq_some hcut⟩

theorem toList_fullName_top {space : String} (h : space ≠ "") (name : String)
    (scope : Option String) :
    (top space name scope).fullName.toList = space.toList ++ '.' :: name.toList := by
  have hspace : ¬space.isEmpty = true := by simpa using h
  rw [fullName, if_neg hspace, String.toList_append, String.toList_append, List.append_assoc]
  rfl

/-- An outermost segment is written as it was read, unless the dot was all of its namespace. -/
theorem toList_fullName_parseTop_iff (segment : List Char) :
    (parseTop segment).fullName.toList = segment ↔ ¬HidesDot segment := by
  rcases segment_cases segment with hplain | ⟨space, name, rfl, hname⟩
  · rw [parseTop_of_notMem hplain]
    refine iff_of_true String.toList_ofList ?_
    rintro ⟨name, rfl, -⟩
    exact hplain List.mem_cons_self
  · rw [parseTop_append hname]
    cases space with
    | nil =>
        have hlost : (top (String.ofList []) (String.ofList name) none).fullName.toList = name :=
          String.toList_ofList
        rw [hlost]
        refine iff_of_false (fun heq => ?_) fun hhides => hhides ⟨name, rfl, hname⟩
        exact absurd (congrArg List.length heq) (by simp)
    | cons c space =>
        refine iff_of_true ?_ ?_
        · rw [toList_fullName_top (by simp), String.toList_ofList, String.toList_ofList]
        · -- The dot that is cut at stands behind the first one.
          rintro ⟨rest, heq, hrest⟩
          obtain ⟨-, rfl⟩ := List.cons.inj heq
          exact hrest (List.mem_append_right space List.mem_cons_self)

/-! ### Names that can be read back -/

/-- The full name says all of the name and shows where its parts end: the name states no assembly,
no part of it has a slash, and the name of the outermost segment has no dot. -/
def IsLegible : TypeName → Prop
  | top space name scope =>
    '/' ∉ space.toList ∧ '/' ∉ name.toList ∧ '.' ∉ name.toList ∧ scope = none
  | nested outer name scope => outer.IsLegible ∧ '/' ∉ name.toList ∧ scope = none

instance decidableIsLegible : (name : TypeName) → Decidable name.IsLegible
  | top .. => inferInstanceAs (Decidable (_ ∧ _ ∧ _ ∧ _))
  | nested outer .. =>
    have := decidableIsLegible outer
    inferInstanceAs (Decidable (_ ∧ _ ∧ _))

theorem IsLegible.scope_eq {name : TypeName} (h : name.IsLegible) : name.scope = none := by
  cases name with
  | top space name scope => exact h.2.2.2
  | nested outer name scope => exact h.2.2

theorem isLegible_parseTop {segment : List Char} (h : '/' ∉ segment) :
    (parseTop segment).IsLegible := by
  rcases segment_cases segment with hplain | ⟨space, name, rfl, hname⟩
  · rw [parseTop_of_notMem hplain]
    refine ⟨List.not_mem_nil, ?_, ?_, rfl⟩
    · rwa [String.toList_ofList]
    · rwa [String.toList_ofList]
  · rw [parseTop_append hname]
    refine ⟨?_, ?_, ?_, rfl⟩
    · rw [String.toList_ofList]
      exact fun hslash => h (List.mem_append_left _ hslash)
    · rw [String.toList_ofList]
      exact fun hslash => h (List.mem_append_right _ (List.mem_cons_of_mem '.' hslash))
    · rwa [String.toList_ofList]

theorem IsLegible.descend {outer : TypeName} (h : outer.IsLegible) {names : List (List Char)}
    (hnames : ∀ name ∈ names, '/' ∉ name) : (outer.descend names).IsLegible := by
  induction names generalizing outer with
  | nil => exact h
  | cons name names ih =>
      refine ih ⟨h, ?_, h.scope_eq⟩ fun n hn => hnames n (List.mem_cons_of_mem name hn)
      rw [String.toList_ofList]
      exact hnames name List.mem_cons_self

/-- Whatever is read is legible. -/
theorem isLegible_parse (text : String) : (parse text).IsLegible := by
  obtain ⟨first, others, hpieces, -, hfree⟩ := exists_pieces '/' text.toList
  rw [parse_of_pieces hpieces]
  exact (isLegible_parseTop (hfree first List.mem_cons_self)).descend fun name hname =>
    hfree name (List.mem_cons_of_mem first hname)

theorem IsLegible.parseTop_fullName {space name : String} {scope : Option String}
    (h : (top space name scope).IsLegible) :
    parseTop (top space name scope).fullName.toList = top space name scope := by
  obtain ⟨-, -, hdot, rfl⟩ := h
  by_cases hspace : space = ""
  · subst hspace
    show parseTop name.toList = top "" name none
    rw [parseTop_of_notMem hdot, String.ofList_toList]
  · rw [toList_fullName_top hspace, parseTop_append hdot, String.ofList_toList,
      String.ofList_toList]

theorem IsLegible.slash_notMem {space name : String} {scope : Option String}
    (h : (top space name scope).IsLegible) : '/' ∉ (top space name scope).fullName.toList := by
  obtain ⟨hspace, hname, -, -⟩ := h
  by_cases hempty : space = ""
  · subst hempty
    exact hname
  · rw [toList_fullName_top hempty, List.mem_append, List.mem_cons]
    rintro (hmem | hmem | hmem)
    · exact hspace hmem
    · exact absurd hmem (by decide)
    · exact hname hmem

/-- The pieces of the full name of a legible name lead back to it. -/
theorem IsLegible.exists_pieces {name : TypeName} (h : name.IsLegible) :
    ∃ first others, pieces '/' name.fullName.toList = first :: others
      ∧ (parseTop first).descend others = name := by
  induction name with
  | top space name scope =>
      exact ⟨_, [], pieces_of_notMem h.slash_notMem, h.parseTop_fullName⟩
  | nested outer name scope ih =>
      obtain ⟨houter, hname, rfl⟩ := h
      obtain ⟨first, others, hpieces, hback⟩ := ih houter
      obtain ⟨htext, hfree⟩ := pieces_eq_iff.mp hpieces
      refine ⟨first, others ++ [name.toList], pieces_eq_iff.mpr ⟨?_, ?_⟩, ?_⟩
      · rw [toList_fullName_nested, htext, List.flatMap_append, List.flatMap_singleton,
          List.append_assoc]
      · intro piece hpiece
        rw [← List.cons_append, List.mem_append, List.mem_singleton] at hpiece
        rcases hpiece with hpiece | rfl
        · exact hfree piece hpiece
        · exact hname
      · rw [descend_concat, hback, String.ofList_toList, inside, houter.scope_eq]

/-! ### Both directions -/

theorem parse_fullName_iff (name : TypeName) : parse name.fullName = name ↔ name.IsLegible := by
  constructor
  · intro h
    rw [← h]
    exact isLegible_parse name.fullName
  · intro h
    obtain ⟨first, others, hpieces, hback⟩ := h.exists_pieces
    rw [parse_of_pieces hpieces, hback]

/-- The first piece of a text is what stands before its first separator. -/
theorem takeWhile_of_pieces {c : Char} {text first : List Char} {others : List (List Char)}
    (h : pieces c text = first :: others) : text.takeWhile (· ≠ c) = first := by
  obtain ⟨rfl, hfree⟩ := pieces_eq_iff.mp h
  have hfirst : ∀ d ∈ first, decide (d ≠ c) = true := by
    intro d hd
    refine decide_eq_true fun heq => hfree first List.mem_cons_self ?_
    rwa [← heq]
  rw [List.takeWhile_append_of_pos hfirst]
  cases others with
  | nil => exact List.append_nil first
  | cons next others => simp

theorem fullName_parse_iff (text : String) :
    (parse text).fullName = text ↔ ¬HidesDot (text.toList.takeWhile (· ≠ '/')) := by
  obtain ⟨first, others, hpieces, htext, -⟩ := Text.exists_pieces '/' text.toList
  rw [takeWhile_of_pieces hpieces, ← toList_fullName_parseTop_iff, parse_of_pieces hpieces,
    ← String.toList_inj, toList_fullName_descend, htext]
  exact List.append_left_inj _

/--
**Full names are written and read without loss.**  A name comes back from its full name if and only
if it is legible: no assembly, no slash in any part and no dot in the name of the outermost segment.
A text comes back from what is read of it if and only if the part before its first slash does not
have its last dot at the very beginning.
-/
theorem parse_fullName_inverse :
    (∀ name : TypeName, parse name.fullName = name ↔ name.IsLegible)
      ∧ ∀ text : String, (parse text).fullName = text ↔
          ∀ rest, text.toList.takeWhile (· ≠ '/') = '.' :: rest → '.' ∈ rest := by
  refine ⟨parse_fullName_iff, fun text => (fullName_parse_iff text).trans ?_⟩
  simp only [HidesDot, not_exists, not_and, not_not]

/-- A dot is lost where it ends an empty namespace; in a nested name it stays. -/
example : (parse ".cctor").fullName = "cctor"
    ∧ (nested (top "Game.Bodies" "Body" none) ".cctor" none).IsLegible := by
  decide

end TypeName

end ApiSurface
