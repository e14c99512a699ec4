/-
The type that the first argument list of a name belongs to.

A localized name has its argument lists at the segments that take them, and what
cuts a name at its first angle bracket ends there: at the outermost type that
takes arguments.  `TypeName.leading` is this type, and `Takes.exists_path` says
how a localized name looks around its bracket.

Constructors are named after what stands before the bracket of the displayed
name.  The passes that make the displayed name all treat that part on its own, so
it is the displayed name of the leading type without its arguments.  A constructor
thus has the name of its own type if nothing around the type takes arguments, and
else that of a type around it.
-/
import ApiSurface.Member.Method
import ApiSurface.Proofs.BracedName

namespace ApiSurface

open Text Rendering

/-! ### The leading type -/

/-- The outermost type of the chain that takes arguments of its own, or the type itself if none
does. -/
def TypeName.leading (name : TypeName) : TypeName :=
  (name.chain.find? fun part => part.ownArity ≠ 0).getD name

namespace TypeName

theorem leading_top (space name : String) (scope : Option String) :
    (top space name scope).leading = top space name scope := by
  unfold leading chain
  by_cases harity : (top space name scope).ownArity = 0
  · simp [harity]
  · simp [harity]

theorem leading_nested_of_eq_zero {outer : TypeName} (h : outer.totalArity = 0) (name : String)
    (scope : Option String) : (nested outer name scope).leading = nested outer name scope := by
  have hnone : (outer.chain.find? fun part => part.ownArity ≠ 0) = none := by
    rw [totalArity, total_eq_zero_iff] at h
    rw [List.find?_eq_none]
    intro part hpart
    simpa using h _ (List.mem_map_of_mem hpart)
  unfold leading chain
  rw [List.find?_append, hnone]
  by_cases harity : (nested outer name scope).ownArity = 0
  · simp [harity]
  · simp [harity]

theorem leading_nested_of_ne_zero {outer : TypeName} (h : outer.totalArity ≠ 0) (name : String)
    (scope : Option String) : (nested outer name scope).leading = outer.leading := by
  rw [leading, chain, List.find?_append, leading]
  cases hfind : outer.chain.find? fun part => part.ownArity ≠ 0 with
  | some part => rfl
  | none =>
      refine absurd (total_eq_zero_iff.mpr fun arity harity => ?_) h
      obtain ⟨part, hpart, rfl⟩ := List.mem_map.mp harity
      simpa using List.find?_eq_none.mp hfind part hpart

/-- A type leads its own name if nothing around it takes arguments. -/
theorem leading_eq_self {name : TypeName} (h : ∀ outer ∈ name.outer?, outer.totalArity = 0) :
    name.leading = name := by
  cases name with
  | top space name scope => exact leading_top space name scope
  | nested outer name scope => exact leading_nested_of_eq_zero (h outer rfl) name scope

/-- Without arguments a style that drops arities writes the plain names. -/
theorem path_nil_top {style : Rendering} (hstyle : style.keepsArity = false)
    (space name : String) (scope : Option String) :
    style.path [] (top space name scope) = style.outermost space (plainOf name) := by
  simp [Rendering.path, Rendering.list, Rendering.label, hstyle]

theorem path_nil_nested {style : Rendering} (hstyle : style.keepsArity = false)
    (outer : TypeName) (name : String) (scope : Option String) :
    style.path [] (nested outer name scope)
      = style.path [] outer ++ style.joint ++ plainOf name := by
  simp [Rendering.path, Rendering.list, Rendering.label, hstyle]

theorem toList_localized_list {args : List String} (hne : args ≠ []) :
    (localized.list args).toList = '<' :: ((join "," args).toList ++ ['>']) := by
  simp [Rendering.list, hne, localized, slashed, full]

theorem take_ne_nil {count : Nat} (hpos : 0 < count) {args : List String}
    (hargs : count ≤ args.length) : args.take count ≠ [] := by
  intro hnil
  rcases List.take_eq_nil_iff.mp hnil with hzero | hnone
  · omega
  · rw [hnone, List.length_nil] at hargs
    omega

variable {name : TypeName} {count : Nat} (h : name.Takes count)

include h

theorem Takes.leading : ∃ own, name.leading.Takes own := by
  induction h with
  | top hspaces hname scope =>
      rw [leading_top]
      exact ⟨_, .top hspaces hname scope⟩
  | @nested outer count houter name arity hname scope ih =>
      by_cases hzero : outer.totalArity = 0
      · rw [leading_nested_of_eq_zero hzero]
        exact ⟨_, .nested houter hname scope⟩
      · rwa [leading_nested_of_ne_zero hzero]

theorem Takes.leading_of_eq_zero (hzero : count = 0) : name.leading = name := by
  refine leading_eq_self fun outer houter => ?_
  cases h with
  | top hspaces hname scope => exact absurd houter (by simp [outer?])
  | nested hinner hname scope =>
      obtain rfl := Option.some.inj houter
      have hsize : 0 < sizeLimit := by decide
      rw [hinner.counts.totalArity_eq (by omega)]
      omega

/-- A name without arities is written in the same way by both styles. -/
theorem Takes.path_of_eq_zero (hzero : count = 0) (args : List String) :
    localized.path args name = slashed.path [] name := by
  have hsize : 0 < sizeLimit := by decide
  induction h with
  | @top spaces hspaces name arity hname scope =>
      rw [path_top hname.isMarked (by omega) (by omega), path_nil_top rfl, hzero]
      exact String.append_empty
  | @nested outer count houter name arity hname scope ih =>
      have harity : arity = 0 := by omega
      rw [path_nested houter.counts hname.isMarked (by omega) (by omega), path_nil_nested rfl,
        ih (by omega), harity]
      exact String.append_empty

theorem Takes.fullName_of_eq_zero (hzero : count = 0) :
    name.fullName = slashed.path [] name := by
  rw [← h.path_of_eq_zero hzero [], localized_path_nil]

/-- The first bracket of a localized name stands behind the leading type, and the first arguments
stand in its list. -/
theorem Takes.exists_path (hpos : 0 < count) (hsize : count < sizeLimit) (args : List String)
    (hargs : count ≤ args.length) :
    ∃ rest : List Char, (localized.path args name).toList
        = (slashed.path [] name.leading).toList
          ++ '<' :: ((join "," (args.take (arityOf name.leading.name))).toList ++ '>' :: rest) := by
  induction h with
  | @top spaces hspaces name arity hname scope =>
      refine ⟨[], ?_⟩
      rw [leading_top, path_nil_top rfl, path_top hname.isMarked hsize hargs, TypeName.name,
        hname.isMarked.arityOf_eq hsize, String.toList_append,
        toList_localized_list (take_ne_nil hpos hargs)]
      rfl
  | @nested outer count houter name arity hname scope ih =>
      have htotal := houter.counts.totalArity_eq (show count < sizeLimit by omega)
      rw [path_nested houter.counts hname.isMarked hsize hargs]
      by_cases hzero : count = 0
      · have hown : 0 < arity ∧ arity ≤ args.length := by omega
        refine ⟨[], ?_⟩
        rw [leading_nested_of_eq_zero (htotal.trans hzero), path_nil_nested rfl, TypeName.name,
          hname.isMarked.arityOf_eq (by omega), houter.path_of_eq_zero hzero, hzero,
          List.drop_zero, String.toList_append, toList_localized_list (take_ne_nil hown.1 hown.2)]
        rfl
      · obtain ⟨rest, hpath⟩ := ih (by omega) (by omega) (by omega)
        rw [leading_nested_of_ne_zero (by omega), String.toList_append, String.toList_append,
          String.toList_append, hpath]
        exact ⟨_, by simp only [List.append_assoc, List.cons_append]; rfl⟩

/-- The leading type takes arguments, and no more than the whole name. -/
theorem Takes.arityOf_leading (hpos : 0 < count) (hsize : count < sizeLimit) :
    0 < arityOf name.leading.name ∧ arityOf name.leading.name ≤ count := by
  induction h with
  | @top spaces hspaces name arity hname scope =>
      rw [leading_top, TypeName.name, hname.isMarked.arityOf_eq hsize]
      exact ⟨hpos, Nat.le_refl arity⟩
  | @nested outer count houter name arity hname scope ih =>
      have htotal := houter.counts.totalArity_eq (show count < sizeLimit by omega)
      by_cases hzero : count = 0
      · rw [leading_nested_of_eq_zero (htotal.trans hzero), TypeName.name,
          hname.isMarked.arityOf_eq (by omega)]
        omega
      · obtain ⟨hown, hless⟩ := ih (by omega) (by omega)
        rw [leading_nested_of_ne_zero (by omega)]
        exact ⟨hown, by omega⟩

/-- In the name of the leading type its own arity is the only one. -/
theorem Takes.fullName_leading (hpos : 0 < count) (hsize : count < sizeLimit) :
    name.leading.fullName.toList
      = (slashed.path [] name.leading).toList
        ++ arityMark :: (naturalText (arityOf name.leading.name)).toList := by
  have hmarked : ∀ {name : String} {arity : Nat}, HasArity name arity → 0 < arity →
      arity < sizeLimit → name.toList
        = (plainOf name).toList ++ arityMark :: (naturalText (arityOf name)).toList := by
    intro name arity hname hpos hsize
    cases hname with
    | bare hplain => omega
    | marked hplain hmark => rw [plainOf_marked, arityOf_marked hsize, toList_marked]
  induction h with
  | @top spaces hspaces name arity hname scope =>
      have hplain := toList_qualified (join "." spaces) (plainOf name)
      rw [leading_top, path_nil_top rfl]
      show (qualified (join "." spaces) name).toList = (qualified (join "." spaces) _).toList ++ _
      rw [toList_qualified, hplain, List.append_assoc, TypeName.name, ← hmarked hname hpos hsize]
  | @nested outer count houter name arity hname scope ih =>
      have htotal := houter.counts.totalArity_eq (show count < sizeLimit by omega)
      by_cases hzero : count = 0
      · rw [leading_nested_of_eq_zero (htotal.trans hzero), path_nil_nested rfl, fullName,
          houter.fullName_of_eq_zero hzero, TypeName.name, String.toList_append,
          hmarked hname (by omega) (by omega)]
        simp [slashed]
      · rw [leading_nested_of_ne_zero (by omega)]
        exact ih (by omega) (by omega)

/-- Without its arities the name is written as if it had no arguments. -/
theorem Takes.stripArity_fullName : Name.stripArity name.fullName = slashed.path [] name := by
  have hstrip := (turns_stripPlaceholders.render (.named h)).1
  rw [Signature.render, localized_path_nil] at hstrip
  rw [Name.stripArity, hstrip, String.ofList_toList]
  rfl

theorem Takes.plainName_suffix :
    name.plainName.toList <:+ (Name.stripArity name.fullName).toList := by
  rw [h.stripArity_fullName]
  cases name with
  | top space name scope =>
      rw [path_nil_top rfl]
      exact ⟨_, (toList_qualified space (plainOf name)).symm⟩
  | nested outer name scope =>
      rw [path_nil_nested rfl, String.toList_append]
      exact List.suffix_append _ _

theorem Takes.notMem_slashed {c : Char} (hc : Name.isWordChar c = false) (hdot : c ≠ '.')
    (hslash : c ≠ '/') : c ∉ (slashed.path [] name).toList := by
  induction h with
  | top hspaces hname scope =>
      rw [path_nil_top rfl]
      intro hmem
      have hpath := qualified_isPathChar hspaces hname.plain c hmem
      simp [isPathChar, hc, hdot] at hpath
  | nested houter hname scope ih =>
      rw [path_nil_nested rfl]
      intro hmem
      simp only [String.toList_append, List.mem_append] at hmem
      rcases hmem with (hmem | hmem) | hmem
      · exact ih hmem
      · exact hslash (List.mem_singleton.mp hmem)
      · exact hname.plain.notMem hc hmem

/-- The declared parameters fill the name of a definition. -/
theorem Takes.localizedOr (hsize : count < sizeLimit) {args : List String}
    (hargs : args.length = count) :
    Name.localizedOr name.fullName args = localized.path args name := by
  have hopen : '<' ∉ name.fullName.toList := notMem_open_of_isInert h.isInert
  unfold Name.localizedOr Name.localize Name.localizeOrFault Name.localizeChars
  by_cases hnone : args = []
  · have hown := localizeOwn_of_absent hopen
    simp [hnone, hown, localized_path_nil, Except.map, Except.mapError]
  · have hfill := h.counts.fill args (by omega) hsize
    simp [hnone, hopen, hfill, Except.map, Except.mapError]

end TypeName

/-! ### Constructors -/

theorem keyword?_of_slash {name : String} (h : '/' ∈ name.toList) :
    Name.keyword? name = none := by
  cases hkey : Name.keyword? name with
  | none => rfl
  | some keyword =>
      have hall : ∀ entry ∈ Name.keywords, '/' ∉ entry.1.toList := by decide
      exact absurd h (hall _ (mem_keywords hkey))

/-- A keyword is never what the name of its type ends in. -/
theorem keyword?_ne_some_suffix {name keyword : String} (h : keyword.toList <:+ name.toList) :
    Name.keyword? name ≠ some keyword := by
  intro hkey
  have hall : ∀ entry ∈ Name.keywords, ¬entry.2.toList <:+ entry.1.toList := by decide
  exact hall _ (mem_keywords hkey) h

section Displayed

variable {name : TypeName} {count : Nat} (h : name.Takes count)

include h

theorem TypeName.Takes.open_notMem_displayed : '<' ∉ (displayed.path [] name).toList := by
  induction h with
  | @top spaces hspaces name arity hname scope =>
      rw [TypeName.path_nil_top rfl]
      exact (displayed_outermost spaces hname.plain).notMem (by decide)
  | nested houter hname scope ih =>
      rw [TypeName.path_nil_nested rfl]
      intro hmem
      simp only [String.toList_append, List.mem_append] at hmem
      rcases hmem with (hmem | hmem) | hmem
      · exact ih hmem
      · exact absurd (List.mem_singleton.mp hmem) (by decide)
      · exact hname.plain.notMem (by decide) hmem

/-- The last part of a displayed name is the keyword of a framework type or the plain name. -/
theorem TypeName.Takes.displayed_label :
    let shown := (displayed.path [] name).toList
    String.ofList (((cutLast '.' shown).map Prod.snd).getD shown)
      = (Name.keyword? (Name.stripArity name.fullName)).getD name.plainName := by
  intro shown
  rw [h.stripArity_fullName]
  cases h with
  | @top spaces hspaces name arity hname scope =>
      have hshown : shown = (displayed.outermost (join "." spaces) (plainOf name)).toList :=
        congrArg String.toList (TypeName.path_nil_top rfl _ _ _)
      have hdot := (displayed_outermost spaces hname.plain).notMem (c := '.') (by decide)
      rw [hshown, cutLast_eq_none_iff.mpr hdot, path_nil_top rfl]
      exact String.ofList_toList
  | @nested outer count houter name arity hname scope =>
      have hshown : shown = (displayed.path [] outer).toList ++ '.' :: (plainOf name).toList := by
        show (displayed.path [] (.nested outer name scope)).toList = _
        rw [TypeName.path_nil_nested rfl, String.toList_append, String.toList_append,
          List.append_assoc]
        rfl
      have hkey : Name.keyword? (slashed.path [] (.nested outer name scope)) = none := by
        refine keyword?_of_slash ?_
        rw [TypeName.path_nil_nested rfl]
        simp [slashed]
      rw [hshown, cutLast_append (hname.plain.notMem (by decide)), hkey]
      exact String.ofList_toList

end Displayed

theorem Separates.comp {f g : List Char → List Char} {c : Char} (hg : Separates g c)
    (hf : Separates f c) : Separates (fun text => g (f text)) c := by
  intro before after
  show g (f (before ++ c :: after)) = g (f before) ++ c :: g (f after)
  rw [hf, hg]

theorem displayChars_separates : Separates displayChars '<' :=
  (turns_displayed.separates '<' (by decide)).comp
    ((turns_spaceArguments.separates '<' (by decide)).comp
      ((turns_dropSpaces.separates '<' (by decide)).comp
        (turns_friendlyChars.separates '<' (by decide))))

/-- The declared parameters fill the name of a definition, which is then displayed. -/
theorem toList_shownOwner_name {decl : TypeDecl} (h : decl.name.Takes decl.generics.length)
    (hsize : decl.generics.length < sizeLimit) :
    (ShownOwner.of decl).name.toList = displayChars (Name.stripPlaceholders
      (localized.path (decl.generics.map GenericDecl.name) decl.name).toList) := by
  rw [ShownOwner.of, display_eq, TypeDecl.localizedName, TypeDecl.fullName,
    h.localizedOr hsize (List.length_map _), Name.stripArity, String.toList_ofList,
    String.toList_ofList]

/-- The displayed name of a definition, up to its first bracket, is that of the leading type. -/
theorem exists_shownOwner_name {decl : TypeDecl} (h : decl.name.Takes decl.generics.length)
    (hsize : decl.generics.length < sizeLimit) :
    ∃ rest : List Char, (ShownOwner.of decl).name.toList
        = (displayed.path [] decl.name.leading).toList ++ rest
      ∧ ∀ c ∈ rest.head?, c = '<' := by
  obtain ⟨own, hleading⟩ := h.leading
  have hdisplay : displayChars (slashed.path [] decl.name.leading).toList
      = (displayed.path [] decl.name.leading).toList :=
    (Signature.Regular.named hleading).displayChars_render
  have hplain : Name.stripPlaceholders (slashed.path [] decl.name.leading).toList
      = (slashed.path [] decl.name.leading).toList := stripPlaceholders_of_notMem
    (hleading.notMem_slashed (by decide) (by decide) (by decide))
  have hname := toList_shownOwner_name h hsize
  by_cases hzero : decl.generics.length = 0
  · have hself := h.leading_of_eq_zero hzero
    rw [hself] at hdisplay hplain ⊢
    refine ⟨[], ?_, by simp⟩
    rw [hname, h.path_of_eq_zero hzero, hplain, hdisplay, List.append_nil]
  · obtain ⟨rest, hpath⟩ := h.exists_path (Nat.pos_of_ne_zero hzero) hsize
      (decl.generics.map GenericDecl.name) (by simp)
    have hstrip := turns_stripPlaceholders.separates '<' (by decide)
    rw [hname, hpath, hstrip, hplain, displayChars_separates, hdisplay]
    exact ⟨_, rfl, by simp⟩

theorem constructorName_eq {decl : TypeDecl} (h : decl.name.Takes decl.generics.length)
    (hsize : decl.generics.length < sizeLimit) :
    (ShownOwner.of decl).constructorName
      = (Name.keyword? (Name.stripArity decl.name.leading.fullName)).getD
          decl.name.leading.plainName := by
  obtain ⟨own, hleading⟩ := h.leading
  obtain ⟨rest, hname, hrest⟩ := exists_shownOwner_name h hsize
  have hopen := hleading.open_notMem_displayed
  have hhead : ((cutFirst '<' (ShownOwner.of decl).name.toList).map Prod.fst).getD
      (ShownOwner.of decl).name.toList = (displayed.path [] decl.name.leading).toList := by
    rw [hname]
    exact before_first hopen hrest
  rw [← hleading.displayed_label]
  simp only [ShownOwner.constructorName, hhead]

/--
**Constructors are named after the leading type.**  The name of a constructor is the plain name of
the outermost type on the way to the declaring one that takes arguments, or of the declaring type
itself if none does; a framework type that has a keyword is named by it.  If nothing around the
declaring type takes arguments, then this is its own plain name unless it has a keyword.
-/
theorem constructor_named_after_leading (decl : TypeDecl)
    (hname : decl.name.Takes decl.generics.length) (hsize : decl.generics.length < sizeLimit)
    (method : MethodDecl) (hmethod : method.name = MethodDecl.constructorName)
    (inInterface ignorePrivate : Bool) (binding : Binding) :
    let shown := ShownMethod.of (ShownOwner.of decl) inInterface binding ignorePrivate method
    let leading := decl.name.leading
    shown.name = (Name.keyword? (Name.stripArity leading.fullName)).getD leading.plainName ∧
      ((∀ outer ∈ decl.name.outer?, outer.totalArity = 0) →
        (shown.name = decl.name.plainName ↔
          Name.keyword? (Name.stripArity decl.fullName) = none)) := by
  intro shown leading
  have hshown : shown.name
      = (Name.keyword? (Name.stripArity leading.fullName)).getD leading.plainName := by
    have hconstructor : method.isConstructor = true := by
      simp [MethodDecl.isConstructor, hmethod]
    show ShownMethod.displayedName _ _ method = _
    rw [ShownMethod.displayedName, if_pos hconstructor, constructorName_eq hname hsize]
  refine ⟨hshown, fun houter => ?_⟩
  have hself : leading = decl.name := TypeName.leading_eq_self houter
  rw [hshown, hself, TypeDecl.fullName]
  cases hkey : Name.keyword? (Name.stripArity decl.name.fullName) with
  | none => simp
  | some keyword =>
      simp only [Option.getD_some, reduceCtorEq, iff_false]
      rintro rfl
      exact keyword?_ne_some_suffix hname.plainName_suffix hkey

/-- The class `Inner` inside of `Outer<T>`: its parameter is that of the type around it. -/
def innerDecl : TypeDecl :=
  { TypeDecl.bare (.nested (.top "Game" "Outer`1" none) "Inner" none) with
    word := TypeWord.nestedPublic
    base? := some (.primitive .object)
    generics := [⟨.type, 0, "T", 0, []⟩]
    methods := [.bare MethodDecl.constructorName] }

/-- The constructor of `Inner` is written as one of `Outer`. -/
theorem constructor_of_inner :
    ∃ method ∈ innerDecl.methods,
      (ShownMethod.of (ShownOwner.of innerDecl) false ⟨[]⟩ true method).name = "Outer"
        ∧ innerDecl.name.plainName = "Inner" := by
  have houter : (TypeName.top (join "." ["Game"]) ("Outer" ++ "`" ++ naturalText 1) none).Takes 1 :=
    .top (by decide) (.marked (by decide) Nat.one_pos) none
  have hname : innerDecl.name.Takes innerDecl.generics.length :=
    .nested houter (.bare (by decide)) none
  refine ⟨_, List.mem_cons_self, ?_, by decide⟩
  exact (constructor_named_after_leading innerDecl hname (by decide) _ rfl false true ⟨[]⟩).1.trans
    (by decide)

end ApiSurface
