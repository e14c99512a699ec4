/-
The mangled name of a reference.

A raw name is written around the name of the type at its root: brackets of arrays,
marks of pointers and by-references and argument lists are put behind it, in any
order and as often as the reference says.  The mangled name is read off that text.
It is cut at the first angle bracket, and what is left goes through a scanner that
drops marks and, behind an opening bracket, the commas and brackets that follow.

The scanner looks ahead, so a suffix is not dropped by itself: what it leaves open
is whether the scanner is skipping behind it.  `Name.Dropped` says just that, and is
kept by appending; with it one induction on the reference, `Signature.splits`,
splits the raw name into the root, what is dropped and what is cut off.
-/
import ApiSurface.DocId
import ApiSurface.Proofs.ShownName

namespace ApiSurface

open Text

namespace Name

/-! ### What a mangled name does not have -/

/-- The characters that end a name: an argument list, an array, a by-reference or a pointer begins
there. -/
def endMarks : List Char := ['<', '[', '&', '*']

theorem mem_dropSuffixes {c : Char} {skipping : Bool} {text : List Char}
    (h : c ∈ dropSuffixes skipping text) : (c ∈ text ∨ c = '.') ∧ c ∉ ['[', '&', '*'] := by
  have hlater : ∀ {d : Char} {rest : List Char}, (c ∈ rest ∨ c = '.') ∧ c ∉ ['[', '&', '*'] →
      (c ∈ d :: rest ∨ c = '.') ∧ c ∉ ['[', '&', '*'] :=
    fun hfound => ⟨hfound.1.imp_left (List.mem_cons_of_mem _), hfound.2⟩
  fun_induction dropSuffixes skipping text with
  | case1 => exact absurd h List.not_mem_nil
  | case2 skipping d rest hskip ih => exact hlater (ih h)
  | case3 skipping rest hopen ih => exact hlater (ih h)
  | case4 skipping d rest hskip hopen hmark ih => exact hlater (ih h)
  | case5 skipping rest hopen hmark hslash ih =>
      rcases List.mem_cons.mp h with rfl | h
      · exact ⟨Or.inr rfl, by decide⟩
      · exact hlater (ih h)
  | case6 skipping d rest hskip hopen hmark hslash ih =>
      rcases List.mem_cons.mp h with rfl | h
      · refine ⟨Or.inl List.mem_cons_self, ?_⟩
        simp only [List.mem_cons, List.not_mem_nil, or_false]
        tauto
      · exact hlater (ih h)

theorem mangled_eq_dropSuffixes (raw : String) :
    ∃ head : List Char, '<' ∉ head ∧ mangled raw = String.ofList (dropSuffixes false head) := by
  cases hcut : cutFirst '<' raw.toList with
  | none =>
      refine ⟨raw.toList, cutFirst_eq_none_iff.mp hcut, ?_⟩
      simp only [mangled, hcut, Option.map_none, Option.getD_none]
  | some cut =>
      refine ⟨cut.1, (cutFirst_eq_some hcut).2, ?_⟩
      simp only [mangled, hcut, Option.map_some, Option.getD_some]

/-- A mangled name has no suffix and no argument list, whatever the raw name is like. -/
theorem notMem_mangled (raw : String) {c : Char} (hc : c ∈ endMarks) :
    c ∉ (mangled raw).toList := by
  intro hmem
  obtain ⟨head, hopen, hmangled⟩ := mangled_eq_dropSuffixes raw
  rw [hmangled, String.toList_ofList] at hmem
  obtain ⟨hfrom, hmark⟩ := mem_dropSuffixes hmem
  rcases List.mem_cons.mp hc with rfl | hc
  · rcases hfrom with hhead | hdot
    · exact hopen hhead
    · exact absurd hdot (by decide)
  · exact hmark hc

/-! ### What the scanner drops -/

/-- Nothing is left of the text, and what comes behind it is scanned on its own. -/
structure Dropped (text : List Char) : Prop where
  open_notMem : '<' ∉ text
  vanishes : ∀ skipping rest, ∃ skipping',
    dropSuffixes skipping (text ++ rest) = dropSuffixes skipping' rest

theorem Dropped.nil : Dropped [] := ⟨List.not_mem_nil, fun skipping _ => ⟨skipping, rfl⟩⟩

theorem Dropped.append {s t : List Char} (hs : Dropped s) (ht : Dropped t) : Dropped (s ++ t) where
  open_notMem := by
    rw [List.mem_append, not_or]
    exact ⟨hs.open_notMem, ht.open_notMem⟩
  vanishes := by
    intro skipping rest
    obtain ⟨skipping', hs'⟩ := hs.vanishes skipping (t ++ rest)
    obtain ⟨skipping'', ht'⟩ := ht.vanishes skipping' rest
    exact ⟨skipping'', by rw [List.append_assoc, hs', ht']⟩

/-- The mark of a by-reference or of a pointer. -/
theorem Dropped.mark {c : Char} (hc : c = '&' ∨ c = '*') : Dropped [c] where
  open_notMem := by
    rcases hc with rfl | rfl
    · decide
    · decide
  vanishes := by
    intro skipping rest
    refine ⟨false, ?_⟩
    rw [List.singleton_append, dropSuffixes]
    rcases hc with rfl | rfl
    · simp
    · simp

/-- The brackets of an array, with a comma for each dimension after the first. -/
theorem Dropped.brackets (n : Nat) : Dropped ('[' :: (List.replicate n ',' ++ [']'])) where
  open_notMem := by
    intro hmem
    simp only [List.mem_cons, List.mem_append, List.mem_replicate, List.not_mem_nil,
      or_false] at hmem
    rcases hmem with hmem | ⟨-, hmem⟩ | hmem
    · exact absurd hmem (by decide)
    · exact absurd hmem (by decide)
    · exact absurd hmem (by decide)
  vanishes := by
    intro skipping rest
    refine ⟨true, ?_⟩
    have hcommas : ∀ n, dropSuffixes true (List.replicate n ',' ++ (']' :: rest))
        = dropSuffixes true rest := by
      intro n
      induction n with
      | zero => simp [dropSuffixes]
      | succ n ih => rw [List.replicate_succ, List.cons_append, dropSuffixes, if_pos (by simp), ih]
    have hopen : dropSuffixes skipping ('[' :: (List.replicate n ',' ++ (']' :: rest)))
        = dropSuffixes true (List.replicate n ',' ++ (']' :: rest)) := by
      rw [dropSuffixes, if_neg (by simp), if_pos rfl]
    rw [List.cons_append, List.append_assoc, List.singleton_append, hopen, hcommas]

/-- A name in front of what is dropped only gets its slashes rewritten. -/
theorem dropSuffixes_append {text : List Char} (h : ∀ c ∈ text, c ∉ endMarks)
    (rest : List Char) :
    dropSuffixes false (text ++ rest) = dotNested text ++ dropSuffixes false rest := by
  induction text with
  | nil => rfl
  | cons c text ih =>
      have hc := h c List.mem_cons_self
      simp only [endMarks, List.mem_cons, List.not_mem_nil, or_false, not_or] at hc
      rw [List.cons_append, dropSuffixes, ih fun d hd => h d (List.mem_cons_of_mem c hd)]
      by_cases hslash : c = '/'
      · simp [hslash, dotNested]
      · simp [hc, hslash, dotNested]

end Name

namespace Signature

open Name

/-! ### The root of a reference -/

/-- The full name of what is at the root of a reference, below arrays, by-references, pointers and
instantiations: a named type, a built-in one or a generic parameter. -/
def rootName : Signature → String
  | primitive kind => kind.fullName
  | named name => name.fullName
  | instantiation base _ => base.rootName
  | array element _ => element.rootName
  | byRef element => element.rootName
  | pointer element => element.rootName
  | parameter _ _ name => name

/-- The raw name is the name of the root, suffixes and what begins with an argument list. -/
def Splits (sig : Signature) : Prop :=
  ∃ suffix rest : List Char, sig.rawName.toList = sig.rootName.toList ++ suffix ++ rest
    ∧ Dropped suffix ∧ ∀ c ∈ rest.head?, c = '<'

theorem Splits.refl {sig : Signature} (h : sig.rawName = sig.rootName) : sig.Splits :=
  ⟨[], [], by rw [h]; simp, .nil, by simp⟩

/-- One more suffix is dropped behind the root and cut off behind an argument list. -/
theorem Splits.suffix {sig element : Signature} {mark : List Char} (h : element.Splits)
    (hmark : Dropped mark) (hraw : sig.rawName.toList = element.rawName.toList ++ mark)
    (hroot : sig.rootName = element.rootName) : sig.Splits := by
  obtain ⟨suffix, rest, hsplit, hdropped, hrest⟩ := h
  rw [hsplit, ← hroot] at hraw
  cases rest with
  | nil =>
      refine ⟨suffix ++ mark, [], ?_, hdropped.append hmark, by simp⟩
      rw [hraw, List.append_nil, List.append_nil, List.append_assoc]
  | cons c rest =>
      refine ⟨suffix, c :: rest ++ mark, ?_, hdropped, hrest⟩
      rw [hraw, List.append_assoc]

theorem splits (sig : Signature) : sig.Splits := by
  induction sig using Signature.induction with
  | primitive kind => exact .refl rfl
  | named name => exact .refl rfl
  | instantiation base args ihbase ihargs =>
      obtain ⟨suffix, rest, hsplit, hdropped, hrest⟩ := ihbase
      refine ⟨suffix, rest ++ ('<' :: (join "," (args.map rawName)).toList ++ ['>']), ?_,
        hdropped, ?_⟩
      · rw [toList_rawName_instantiation, hsplit, List.append_assoc, rootName]
      · cases rest with
        | nil => simp
        | cons c rest => exact hrest
  | array element rank ih => exact ih.suffix (.brackets _) (toList_rawName_array element rank) rfl
  | byRef element ih => exact ih.suffix (.mark (Or.inl rfl)) (toList_rawName_byRef element) rfl
  | pointer element ih => exact ih.suffix (.mark (Or.inr rfl)) (toList_rawName_pointer element) rfl
  | parameter owner index name => exact .refl rfl

theorem rootName_stripByRef (sig : Signature) : sig.stripByRef.rootName = sig.rootName := by
  cases sig <;> rfl

/-- **The scanner undoes what was written around the root.** -/
theorem mangled_rawName {sig : Signature} (h : ∀ c ∈ sig.rootName.toList, c ∉ endMarks) :
    mangled sig.rawName = swap '/' '.' sig.rootName := by
  obtain ⟨suffix, rest, hsplit, hdropped, hrest⟩ := sig.splits
  have hopen : '<' ∉ sig.rootName.toList ++ suffix := by
    rw [List.mem_append, not_or]
    exact ⟨fun hmem => h '<' hmem (by decide), hdropped.open_notMem⟩
  have hhead : ((cutFirst '<' sig.rawName.toList).map Prod.fst).getD sig.rawName.toList
      = sig.rootName.toList ++ suffix := by
    rw [hsplit]
    exact before_first hopen hrest
  have hsuffix : dropSuffixes false suffix = [] := by
    obtain ⟨skipping, hvanishes⟩ := hdropped.vanishes false []
    rwa [List.append_nil] at hvanishes
  rw [mangled, hhead, dropSuffixes_append h, hsuffix, List.append_nil, swap_eq_dotNested]

end Signature

/-- Nested types are written with dots, and no other character is touched. -/
theorem mem_swap_of_mem {name : String} {c : Char} (hc : c ≠ '/') (h : c ∈ name.toList) :
    c ∈ (swap '/' '.' name).toList := by
  rw [swap, String.toList_ofList, List.mem_map]
  exact ⟨c, h, if_neg hc⟩

/-- The class `Slot<A, B>` inside of `Shelf<A>`. -/
def slotDecl : TypeDecl :=
  { TypeDecl.bare (.nested (.top "Game" "Shelf`1" none) "Slot`1" none) with
    word := TypeWord.nestedPublic
    base? := some (.primitive .object)
    generics := [⟨.type, 0, "A", 0, []⟩, ⟨.type, 1, "B", 0, []⟩] }

end ApiSurface
