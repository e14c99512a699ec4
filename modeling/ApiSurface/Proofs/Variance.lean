/-
Variance in the heads of interfaces and delegates.

The head of a declaration is composed before anything is said about variance, and
the keywords are put in afterwards: the head is cut at its last angle bracket, and
a list with the keywords takes the place of what stood behind it.  That is right if
the last bracket opens the list of the innermost segment and if the parameters of
that segment are the last ones of the definition, although the types around it and
what a delegate returns have lists of their own.

Both come from the name of the definition.  It is displayed as the reference by which
the members of the type name it, so it ends in the list of its own parameters,
`TypeName.Takes.exists_path_own`; and no name in that list has a bracket.
-/
import ApiSurface.Proofs.BracedName
import ApiSurface.Proofs.LeadingType
import ApiSurface.Surface

namespace ApiSurface

open Text Rendering

/-! ### The parts of a declaration -/

namespace TypeDecl

/-- The head up to the name of the type: a delegate says there what it returns. -/
def introduction (decl : TypeDecl) : String :=
  decl.access.keyword ++ " " ++ Text.spaced decl.modifier.keyword ++ decl.kind.keyword ++ " "
    ++ (match decl.invoke? with
      | some invoke => invoke.returnType.shownName ++ " "
      | none => "")

/-- The declaration behind the head. -/
def afterHead (decl : TypeDecl) (interfaces : List Signature) : String :=
  let clauses := ShownGeneric.whereClauses (ShownOwner.of decl).generics
  match decl.invoke? with
  | some invoke =>
    "(" ++ ShownParameter.listText (invoke.parameters.map (ShownParameter.of .empty)) ++ ")"
      ++ clauses
  | none =>
    let inherits := decl.inheritance interfaces
    (if inherits.isEmpty then "" else " : " ++ Text.join ", " inherits) ++ clauses

/-- The parameters of the innermost segment: the last ones, behind those of the types around it. -/
def ownGenerics (decl : TypeDecl) : List ShownGeneric :=
  (ShownOwner.of decl).generics.drop (decl.generics.length - decl.name.ownArity)

theorem ownGenerics_eq (decl : TypeDecl) :
    decl.ownGenerics
      = (decl.generics.drop (decl.generics.length - decl.name.ownArity)).map ShownGeneric.of :=
  List.map_drop.symm

theorem length_ownGenerics {decl : TypeDecl} (h : decl.name.ownArity ≤ decl.generics.length) :
    decl.ownGenerics.length = decl.name.ownArity := by
  rw [ownGenerics_eq, List.length_map, List.length_drop]
  omega

theorem ownGenerics_ne_nil {decl : TypeDecl} (hown : 0 < decl.name.ownArity)
    (hle : decl.name.ownArity ≤ decl.generics.length) : decl.ownGenerics ≠ [] := by
  rw [← List.length_pos_iff, length_ownGenerics hle]
  exact hown

theorem head_eq (decl : TypeDecl) :
    decl.head = decl.introduction ++ (ShownOwner.of decl).name := rfl

theorem declaration_eq {decl : TypeDecl} (hkind : decl.kind = .interface ∨ decl.kind = .delegate)
    (interfaces : List Signature) :
    decl.declaration interfaces = decl.variantHead ++ decl.afterHead interfaces := by
  unfold declaration afterHead
  cases decl.invoke? with
  | some invoke => simp only [String.append_assoc]
  | none =>
      rcases hkind with hkind | hkind
      · simp only [hkind, String.append_assoc]
      · simp only [hkind, String.append_assoc]

end TypeDecl

/-! ### The name of a definition -/

/-- A filled path ends in the arguments of its last segment. -/
theorem TypeName.Counts.exists_path_own {name : TypeName} {count : Nat} (h : name.Counts count)
    (hsize : count < sizeLimit) {texts : List String} (htexts : texts.length = count)
    (style : Rendering) :
    name.ownArity ≤ count ∧ ∃ start : String,
      style.path texts name = start ++ style.list (texts.drop (count - name.ownArity)) := by
  cases h with
  | @top space name _ hspace hname scope =>
      have harity : (TypeName.top space name scope).ownArity = count := hname.arityOf_eq hsize
      refine ⟨by omega, style.outermost space (plainOf name), ?_⟩
      rw [path_top hname hsize (by omega), harity, Nat.sub_self, List.drop_zero,
        List.take_of_length_le (by omega)]
  | @nested outer count houter name arity hname scope =>
      have harity : (TypeName.nested outer name scope).ownArity = arity :=
        hname.arityOf_eq (by omega)
      have hown : (texts.drop count).length ≤ arity := by
        rw [List.length_drop]
        omega
      refine ⟨by omega, style.path texts outer ++ style.joint ++ plainOf name, ?_⟩
      rw [path_nested houter hname hsize (by omega), harity, Nat.add_sub_cancel,
        List.take_of_length_le hown]

/-- Identifiers are displayed as they are. -/
theorem TypeDecl.map_name_ownGenerics {decl : TypeDecl}
    (hgenerics : ∀ param ∈ decl.generics, IsIdentifier param.name) :
    decl.ownGenerics.map ShownGeneric.name
      = (decl.generics.map GenericDecl.name).drop (decl.generics.length - decl.name.ownArity) := by
  rw [decl.ownGenerics_eq, List.map_map, ← List.map_drop]
  refine List.map_congr_left fun param hparam => ?_
  have hfriendly := friendlyChars_identifier (hgenerics param (List.mem_of_mem_drop hparam))
  show Name.friendly param.name = param.name
  rw [Name.friendly, hfriendly, String.ofList_toList]

theorem TypeDecl.selfReference_of_pos {decl : TypeDecl} (hpos : 0 < decl.generics.length) :
    decl.selfReference
      = .instantiation (.named decl.name) (decl.generics.map GenericDecl.reference) := by
  have hfull : decl.generics.isEmpty = false := by
    simpa using List.ne_nil_of_length_pos hpos
  rw [selfReference, hfull]
  rfl

theorem TypeDecl.render_selfReference {decl : TypeDecl} (hpos : 0 < decl.generics.length)
    (style : Rendering) :
    decl.selfReference.render style
      = style.path (decl.generics.map GenericDecl.name) decl.name := by
  have hfull : (decl.generics.map GenericDecl.reference).isEmpty = false := by
    simpa using List.ne_nil_of_length_pos hpos
  rw [selfReference_of_pos hpos, Signature.render, hfull, Signature.renders_eq_map, List.map_map]
  exact String.append_empty

section Definition

variable {decl : TypeDecl} (hname : decl.name.Takes decl.generics.length)
  (hsize : decl.generics.length < sizeLimit)
  (hgenerics : ∀ param ∈ decl.generics, IsIdentifier param.name)

include hname hsize hgenerics

theorem TypeDecl.selfReference_regular (hpos : 0 < decl.generics.length) :
    decl.selfReference.Regular := by
  rw [selfReference_of_pos hpos]
  refine .instantiation (by rwa [List.length_map]) (by rwa [List.length_map]) ?_ ?_
  · intro arg harg
    obtain ⟨param, -, rfl⟩ := List.mem_map.mp harg
    exact fun rank hrank => absurd hrank List.not_mem_nil
  · intro arg harg
    obtain ⟨param, hparam, rfl⟩ := List.mem_map.mp harg
    exact .parameter param.owner param.index (hgenerics param hparam)

/-- A definition is displayed as the reference by which its members name it. -/
theorem shownOwner_name_eq (hpos : 0 < decl.generics.length) :
    (ShownOwner.of decl).name = decl.selfReference.render displayed := by
  have hregular := TypeDecl.selfReference_regular hname hsize hgenerics hpos
  have hstrip := (turns_stripPlaceholders.render hregular).1
  rw [TypeDecl.render_selfReference hpos localized] at hstrip
  rw [← String.toList_inj, toList_shownOwner_name hname hsize, hstrip,
    hregular.displayChars_render]

/-- The head ends in the list of the type's own parameters. -/
theorem TypeDecl.exists_head_own (hown : 0 < decl.name.ownArity) :
    decl.name.ownArity ≤ decl.generics.length ∧ ∃ start : String,
      decl.head = start ++ "<" ++ join ", " (decl.ownGenerics.map ShownGeneric.name) ++ ">" := by
  obtain ⟨hle, start, hpath⟩ :=
    hname.counts.exists_path_own hsize (List.length_map GenericDecl.name) displayed
  have hne : (decl.ownGenerics.map ShownGeneric.name).isEmpty = false := by
    simpa using ownGenerics_ne_nil hown hle
  have hpos : 0 < decl.generics.length := by omega
  refine ⟨hle, decl.introduction ++ start, ?_⟩
  rw [decl.head_eq, shownOwner_name_eq hname hsize hgenerics hpos, render_selfReference hpos,
    hpath, ← map_name_ownGenerics hgenerics, Rendering.list, hne]
  simp only [Bool.false_eq_true, if_false, String.append_assoc]
  rfl

end Definition

/-! ### Heads with variance -/

/-- The last bracket of a text that ends in a list opens that list. -/
theorem cutLast_list {names : List String} (h : ∀ name ∈ names, '<' ∉ name.toList)
    (start : String) :
    cutLast '<' (start ++ "<" ++ join ", " names ++ ">").toList
      = some (start.toList, (join ", " names).toList ++ ['>']) := by
  have hopen : '<' ∉ (join ", " names).toList ++ ['>'] := by
    rw [List.mem_append]
    rintro (hmem | hmem)
    · rcases mem_toList_join hmem with hsep | ⟨name, hname, hmem⟩
      · exact absurd hsep (by decide)
      · exact h name hname hmem
    · exact absurd hmem (by decide)
  have htext : (start ++ "<" ++ join ", " names ++ ">").toList
      = start.toList ++ '<' :: ((join ", " names).toList ++ ['>']) := by
    simp
  rw [htext, cutLast_append hopen]

theorem ShownGeneric.listText_true {params : List ShownGeneric} (h : params ≠ []) :
    listText true params
      = "<" ++ join ", " (params.map fun param => param.variance ++ param.name) ++ ">" := by
  have hne : params.isEmpty = false := List.isEmpty_eq_false_iff.mpr h
  rw [listText, hne]
  rfl

/-- A list with the variance keywords takes the place of the list of the type's own parameters. -/
theorem TypeDecl.variantHead_eq {decl : TypeDecl} (hown : 0 < decl.name.ownArity)
    (hle : decl.name.ownArity ≤ decl.generics.length)
    (hopen : ∀ param ∈ decl.ownGenerics, '<' ∉ param.name.toList) {start : String}
    (hhead : decl.head
      = start ++ "<" ++ join ", " (decl.ownGenerics.map ShownGeneric.name) ++ ">") :
    decl.variantHead = start ++ "<"
      ++ join ", " (decl.ownGenerics.map fun param => param.variance ++ param.name) ++ ">" := by
  have hgenerics : (ShownOwner.of decl).generics.length = decl.generics.length :=
    List.length_map ShownGeneric.of
  have hcut : cutLast '<' decl.head.toList
      = some (start.toList, (join ", " (decl.ownGenerics.map ShownGeneric.name)).toList ++ ['>']) := by
    rw [hhead]
    refine cutLast_list (fun name hname => ?_) start
    obtain ⟨param, hparam, rfl⟩ := List.mem_map.mp hname
    exact hopen param hparam
  have hlast : decl.head.toList.getLast? = some '>' := by
    rw [hhead, String.toList_append]
    exact List.getLast?_concat
  have hlist := ShownGeneric.listText_true (ownGenerics_ne_nil hown hle)
  unfold variantHead
  simp only [hcut, hgenerics, Nat.min_eq_left hle, hown, hlast, and_true]
  split
  · rw [String.ofList_toList, ← ownGenerics, hlist]
    simp only [String.append_assoc]
  · rename_i hnone
    -- No parameter has a variance, so the two lists are the same.
    have hplain : ∀ param ∈ decl.ownGenerics, param.variance ++ param.name = param.name := by
      intro param hparam
      have hvariance : param.variance = "" := by
        by_contra hsome
        refine hnone (List.any_eq_true.mpr ⟨param, List.mem_of_mem_drop hparam, ?_⟩)
        simpa using hsome
      rw [hvariance, String.empty_append]
    rw [hhead, List.map_congr_left hplain]

/--
**Variance is written before the type's own parameters and nowhere else.**  Let the names of an
interface or a delegate and of its parameters be identifiers, with as many parameters as the segments
of its name take and at least one for the innermost.  Then the head ends in the list of as many last
parameters as that segment takes, and in the declaration each parameter of this list has its own
keyword before it.  What stands before the list stays: lists of the types around, and of what a
delegate returns, are not touched.
-/
theorem variance_marks_own_parameters (decl : TypeDecl)
    (hname : decl.name.Takes decl.generics.length) (hsize : decl.generics.length < sizeLimit)
    (hgenerics : ∀ param ∈ decl.generics, IsIdentifier param.name)
    (hown : 0 < decl.name.ownArity) (hkind : decl.kind = .interface ∨ decl.kind = .delegate)
    (interfaces : List Signature) :
    let own := decl.ownGenerics
    own.length = decl.name.ownArity ∧ ∃ start : String,
      decl.head = start ++ "<" ++ join ", " (own.map ShownGeneric.name) ++ ">" ∧
      decl.variantHead
        = start ++ "<" ++ join ", " (own.map fun param => param.variance ++ param.name) ++ ">" ∧
      decl.declaration interfaces = decl.variantHead ++ decl.afterHead interfaces := by
  intro own
  obtain ⟨hle, start, hhead⟩ := TypeDecl.exists_head_own hname hsize hgenerics hown
  have hopen : ∀ param ∈ own, '<' ∉ param.name.toList := by
    intro param hparam hmem
    have hshown : param.name ∈ own.map ShownGeneric.name := List.mem_map_of_mem hparam
    rw [TypeDecl.map_name_ownGenerics hgenerics] at hshown
    obtain ⟨generic, hgeneric, hsame⟩ := List.mem_map.mp (List.mem_of_mem_drop hshown)
    rw [← hsame] at hmem
    exact (hgenerics generic hgeneric).notMem (by decide) hmem
  exact ⟨TypeDecl.length_ownGenerics hle, start, hhead,
    TypeDecl.variantHead_eq hown hle hopen hhead, TypeDecl.declaration_eq hkind interfaces⟩

/-- The method that a delegate from `A` to `List<R>` is called by. -/
def pickerInvoke : MethodDecl :=
  { MethodDecl.bare "Invoke" with
    returnType := .instantiation (.inSpace "Game" "List`1") [.parameter .type 2 "R"]
    parameters := [⟨"item", 0, .parameter .type 1 "A", none, []⟩] }

/-- The delegate `Picker<in A, out R>` inside of `Shelf<T>`. -/
def pickerDecl : TypeDecl :=
  { TypeDecl.bare (.nested (.top "Game" "Shelf`1" none) "Picker`2" none) with
    word := TypeWord.nestedPublic
    base? := some (.inSpace "System" "MulticastDelegate")
    generics := [⟨.type, 0, "T", GenericWord.covariant, []⟩,
      ⟨.type, 1, "A", GenericWord.contravariant, []⟩, ⟨.type, 2, "R", GenericWord.covariant, []⟩]
    methods := [pickerInvoke] }

/-- The list of `Shelf` and that of the returned type are left alone. -/
theorem variance_marks_own_parameters_picker :
    pickerDecl.head = "public delegate List<R> Shelf<T>.Picker<A, R>" ∧
      pickerDecl.declaration []
        = "public delegate List<R> Shelf<T>.Picker<in A, out R>" ++ pickerDecl.afterHead [] := by
  have hgame : ∀ {name : String}, IsIdentifier name →
      (TypeName.top (join "." ["Game"]) (name ++ "`" ++ naturalText 1) none).Takes 1 :=
    fun h => .top (by decide) (.marked h Nat.one_pos) none
  have hshelf := hgame (show IsIdentifier "Shelf" by decide)
  have hlist := hgame (show IsIdentifier "List" by decide)
  have hname : pickerDecl.name.Takes pickerDecl.generics.length :=
    .nested hshelf (HasArity.marked (show IsIdentifier "Picker" by decide) Nat.two_pos) none
  have hreturned : pickerInvoke.returnType.Regular := by
    refine .instantiation hlist (by decide) (by decide) fun arg harg => ?_
    rw [List.mem_singleton.mp harg]
    exact .parameter .type 2 (by decide)
  have hreturn : pickerInvoke.returnType.shownName = "List<R>" :=
    hreturned.shownName.trans (by decide)
  have hkind : pickerDecl.kind = .delegate := by decide
  have hinvoke : pickerDecl.invoke? = some pickerInvoke := by
    rw [TypeDecl.invoke?, hkind]
    rfl
  have hhead : pickerDecl.head = "public delegate List<R> Shelf<T>.Picker<A, R>" := by
    rw [pickerDecl.head_eq, shownOwner_name_eq hname (by decide) (by decide) (by decide)]
    simp only [TypeDecl.introduction, hkind, hinvoke, hreturn]
    decide
  obtain ⟨-, start, hstart, hvariant, hdeclaration⟩ :=
    variance_marks_own_parameters pickerDecl hname (by decide) (by decide) (by decide)
      (Or.inr hkind) []
  have hbefore : start = "public delegate List<R> Shelf<T>.Picker" := by
    refine (String.append_left_inj "<A, R>").mp ?_
    rw [hhead, String.append_assoc, String.append_assoc] at hstart
    exact hstart.symm
  refine ⟨hhead, hdeclaration.trans ?_⟩
  rw [hvariant, hbefore]
  exact congrArg (· ++ pickerDecl.afterHead []) (by decide)

end ApiSurface
