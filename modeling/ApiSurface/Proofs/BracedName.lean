/-
The full name of a reference and the reference inside identifiers.

Both write each segment of a name with its own share of the arguments, the one in
angle brackets and the other in braces, and they come to it in different ways.  An
identifier goes along the segments of the tree and takes arguments off a list.  The
full name starts as a flat text, in which the argument list is found again and put
in the place of the arities.  `reference_eq_braced` says that the two texts differ
in the brackets only.

They do differ where an instantiation has no arguments: its empty list stays in
the full name, and an identifier has no trace of it.

Neither depends on what characters names are made of, so long as they are not those
that the texts are cut at.
-/
import ApiSurface.Proofs.ReferenceText
import ApiSurface.Proofs.ShownName

namespace ApiSurface

open Text Rendering DocId

/-! ### Character by character -/

/-- The text with each character replaced by another one. -/
def recode (code : Char → Char) (text : String) : String := String.ofList (text.toList.map code)

/-- The text with braces in the place of angle brackets. -/
def braced : String → String :=
  recode fun c => if c = '<' then '\x7b' else if c = '>' then '\x7d' else c

section Recode

variable (code : Char → Char)

theorem recode_append (a b : String) : recode code (a ++ b) = recode code a ++ recode code b := by
  rw [recode, String.toList_append, List.map_append, String.ofList_append]
  rfl

theorem recode_of_fixed {text : String} (h : ∀ c ∈ text.toList, code c = c) :
    recode code text = text := by
  have hsame : text.toList.map code = text.toList := by
    conv_rhs => rw [← List.map_id text.toList]
    exact List.map_congr_left h
  rw [recode, hsame, String.ofList_toList]

theorem recode_join {sep : String} (hsep : recode code sep = sep) (parts : List String) :
    recode code (join sep parts) = join sep (parts.map (recode code)) := by
  induction parts with
  | nil => rfl
  | cons part rest ih =>
      cases rest with
      | nil => rfl
      | cons next rest =>
          rw [List.map_cons, List.map_cons, join, recode_append, recode_append, hsep, ih, join]
          · rfl
          · exact List.cons_ne_nil _ _
          · exact List.cons_ne_nil _ _

theorem recode_qualified (hdot : code '.' = '.') {space : String}
    (hspace : ∀ c ∈ space.toList, code c = c) (name : String) :
    recode code (qualified space name) = qualified space (recode code name) := by
  have hsep : recode code "." = "." := recode_of_fixed code (by simp [hdot])
  unfold qualified TypeName.fullName
  split
  · rfl
  · rw [recode_append, recode_append, recode_of_fixed code hspace, hsep]

end Recode

/-! ### Filled names -/

/-- The character is neither one that lists are cut at nor one that separates nested types. -/
def isQuiet (c : Char) : Bool := Name.isInert c && c ≠ '/'

/-- Namespace and segments are made of quiet characters. -/
def TypeName.Quiet : TypeName → Prop
  | .top space name _ =>
    (∀ c ∈ space.toList, isQuiet c = true) ∧ ∀ c ∈ name.toList, isQuiet c = true
  | .nested outer name _ => outer.Quiet ∧ ∀ c ∈ name.toList, isQuiet c = true

theorem isQuiet_iff {c : Char} : isQuiet c = true ↔ Name.isInert c = true ∧ c ≠ '/' := by
  rw [isQuiet, Bool.and_eq_true, decide_eq_true_eq]

theorem dot_of_isQuiet {c : Char} (h : isQuiet c = true) : (if c = '/' then '.' else c) = c :=
  if_neg (isQuiet_iff.mp h).2

theorem brace_of_isQuiet {c : Char} (h : isQuiet c = true) :
    (if c = '<' then '\x7b' else if c = '>' then '\x7d' else c) = c := by
  obtain ⟨hopen, hclose⟩ := (Name.isInert_iff.mp (isQuiet_iff.mp h).1).1
  rw [if_neg hopen, if_neg hclose]

theorem TypeName.Quiet.isInert {name : TypeName} (h : name.Quiet) :
    ∀ c ∈ name.fullName.toList, Name.isInert c = true := by
  induction name with
  | top space name scope =>
      intro c hc
      unfold TypeName.fullName at hc
      split at hc
      · exact (isQuiet_iff.mp (h.2 c hc)).1
      · rw [String.toList_append, String.toList_append, List.mem_append, List.mem_append] at hc
        rcases hc with (hc | hc) | hc
        · exact (isQuiet_iff.mp (h.1 c hc)).1
        · rw [List.mem_singleton.mp hc]
          decide
        · exact (isQuiet_iff.mp (h.2 c hc)).1
  | nested outer name scope ih =>
      intro c hc
      rw [TypeName.fullName, String.toList_append, String.toList_append, List.mem_append,
        List.mem_append] at hc
      rcases hc with (hc | hc) | hc
      · exact ih h.1 c hc
      · rw [List.mem_singleton.mp hc]
        decide
      · exact (isQuiet_iff.mp (h.2 c hc)).1

/-- Identifiers are quiet. -/
theorem TypeName.Takes.quiet {name : TypeName} {count : Nat} (h : name.Takes count) :
    name.Quiet := by
  have hname : ∀ {name : String} {arity : Nat}, HasArity name arity →
      ∀ c ∈ name.toList, isQuiet c = true := by
    intro name arity hname c hc
    refine isQuiet_iff.mpr ⟨hname.isInert c hc, ?_⟩
    rintro rfl
    cases hname with
    | bare h => exact h.notMem (by decide) hc
    | marked h hpos =>
        rw [toList_marked, List.mem_append, List.mem_cons] at hc
        rcases hc with hc | hc | hc
        · exact h.notMem (by decide) hc
        · exact absurd hc (by decide)
        · exact mem_naturalText hc (by decide)
  induction h with
  | top hspaces hname' scope =>
      refine ⟨fun c hc => ?_, hname hname'⟩
      rcases mem_toList_join hc with hdot | ⟨space, hspace, hmem⟩
      · rw [List.mem_singleton.mp hdot]
        decide
      · exact hname (.bare (hspaces space hspace)) c hmem
  | nested houter hname' scope ih => exact ⟨ih, hname hname'⟩

/-! ### Segments -/

section Segments

variable {name : String} {arity : Nat} (hname : IsMarked name arity)

include hname

theorem IsMarked.notMem_plainOf : arityMark ∉ (plainOf name).toList := by
  cases hname with
  | bare h => rwa [plainOf_of_notMem h]
  | marked h hpos => rwa [plainOf_marked]

theorem IsMarked.mem_of_mem_plainOf {c : Char} (hc : c ∈ (plainOf name).toList) :
    c ∈ name.toList := by
  cases hname with
  | bare h => rwa [plainOf_of_notMem h] at hc
  | marked h hpos =>
      rw [plainOf_marked] at hc
      rw [toList_marked]
      exact List.mem_append_left _ hc

/-- With all of its arguments, a segment shows no arity in any style. -/
theorem IsMarked.label_of_filled {own : List String} (hown : own.length = arity)
    (style : Rendering) : style.label (!own.isEmpty) name = plainOf name := by
  unfold Rendering.label
  split
  · rename_i hkeeps
    have hempty : own = [] := by simpa using (Bool.and_eq_true_iff.mp hkeeps).2
    rw [hempty] at hown
    cases hname with
    | bare h => exact (plainOf_of_notMem h).symm
    | marked h hpos => exact absurd hown.symm (Nat.ne_of_gt hpos)
  · rfl

end Segments

/-! ### Paths -/

/-- A filled path ends with the plain name of its last segment and the arguments of that. -/
theorem path_top {name : String} {arity : Nat} (hname : IsMarked name arity)
    (hsize : arity < sizeLimit) {texts : List String} (hcount : arity ≤ texts.length)
    (style : Rendering) (space : String) (scope : Option String) :
    style.path texts (.top space name scope)
      = style.outermost space (plainOf name) ++ style.list (texts.take arity) := by
  have hown : (texts.take arity).length = arity := by
    rw [List.length_take]
    omega
  rw [Rendering.path, hname.arityOf_eq hsize, hname.label_of_filled hown]

theorem path_nested {outer : TypeName} {count : Nat} (houter : outer.Counts count) {name : String}
    {arity : Nat} (hname : IsMarked name arity) (hsize : count + arity < sizeLimit)
    {texts : List String} (hcount : count + arity ≤ texts.length) (style : Rendering)
    (scope : Option String) :
    style.path texts (.nested outer name scope)
      = style.path texts outer ++ style.joint ++ plainOf name
        ++ style.list ((texts.drop count).take arity) := by
  have hown : ((texts.drop count).take arity).length = arity := by
    rw [List.length_take, List.length_drop]
    omega
  rw [Rendering.path, houter.totalArity_eq (by omega), hname.arityOf_eq (by omega),
    hname.label_of_filled hown]

theorem arityMark_notMem_list {own : List String} (h : ∀ text ∈ own, arityMark ∉ text.toList) :
    arityMark ∉ (localized.list own).toList := by
  intro hmem
  unfold Rendering.list at hmem
  split at hmem
  · exact absurd hmem (by simp)
  · rw [String.toList_append, String.toList_append, List.mem_append, List.mem_append] at hmem
    rcases hmem with (hmem | hmem) | hmem
    · exact absurd hmem (by decide)
    · rcases mem_toList_join hmem with hsep | ⟨text, htext, hmark⟩
      · exact absurd hsep (by decide)
      · exact h text htext hmark
    · exact absurd hmem (by decide)

/-- A filled path has a mark only where an argument has one. -/
theorem arityMark_notMem_path {name : TypeName} {count : Nat} (hname : name.Counts count)
    (hsize : count < sizeLimit) {texts : List String} (hcount : count ≤ texts.length)
    (htexts : ∀ text ∈ texts, arityMark ∉ text.toList) :
    arityMark ∉ (localized.path texts name).toList := by
  induction hname with
  | @top space name arity hspace hname scope =>
      rw [path_top hname hsize hcount]
      show arityMark ∉ (qualified space (plainOf name) ++ _).toList
      rw [String.toList_append, toList_qualified, List.mem_append, List.mem_append]
      rintro ((hmem | hmem) | hmem)
      · exact notMem_qualified hspace (by decide) hmem
      · exact hname.notMem_plainOf hmem
      · exact arityMark_notMem_list (fun text htext =>
          htexts text (List.mem_of_mem_take htext)) hmem
  | @nested outer count houter name arity hname scope ih =>
      rw [path_nested houter hname hsize hcount, String.toList_append, String.toList_append,
        String.toList_append, List.mem_append, List.mem_append, List.mem_append]
      rintro (((hmem | hmem) | hmem) | hmem)
      · exact ih (by omega) (by omega) hmem
      · exact absurd hmem (by decide)
      · exact hname.notMem_plainOf hmem
      · exact arityMark_notMem_list (fun text htext =>
          htexts text (List.mem_of_mem_drop (List.mem_of_mem_take htext))) hmem

/-- With a dot before nested types, a filled path is one of the full name. -/
theorem swap_path {name : TypeName} {count : Nat} (hname : name.Counts count)
    (hsize : count < sizeLimit) (hquiet : name.Quiet) {texts : List String}
    (hcount : count ≤ texts.length) :
    swap '/' '.' (localized.path texts name) = full.path (texts.map (swap '/' '.')) name := by
  have hplain : ∀ {name : String} {arity : Nat}, IsMarked name arity →
      (∀ c ∈ name.toList, isQuiet c = true) → swap '/' '.' (plainOf name) = plainOf name :=
    fun hname hquiet => recode_of_fixed _ fun c hc =>
      dot_of_isQuiet (hquiet c (hname.mem_of_mem_plainOf hc))
  have hlist : ∀ own : List String,
      swap '/' '.' (localized.list own) = full.list (own.map (swap '/' '.')) := by
    intro own
    cases own with
    | nil => rfl
    | cons first rest =>
        have hjoin : swap '/' '.' (join "," (first :: rest))
            = join "," ((first :: rest).map (swap '/' '.')) := recode_join _ (by decide) _
        show swap '/' '.' ("<" ++ join "," (first :: rest) ++ ">") = _
        rw [swap_append, swap_append, hjoin, show swap '/' '.' "<" = "<" by decide,
          show swap '/' '.' ">" = ">" by decide]
        rfl
  induction hname with
  | @top space name arity hspace hname scope =>
      have houtermost : swap '/' '.' (localized.outermost space (plainOf name))
          = full.outermost space (plainOf name) :=
        (recode_qualified _ rfl (fun c hc => dot_of_isQuiet (hquiet.1 c hc)) _).trans
          (congrArg (qualified space) (hplain hname hquiet.2))
      rw [path_top hname hsize hcount, path_top hname hsize (by simpa using hcount), swap_append,
        houtermost, hlist, List.map_take]
  | @nested outer count houter name arity hname scope ih =>
      rw [path_nested houter hname hsize hcount,
        path_nested houter hname hsize (by simpa using hcount), swap_append, swap_append,
        swap_append, ih (by omega) hquiet.1 (by omega), hplain hname hquiet.2, hlist, List.map_take,
        List.map_drop]
      rfl

/-! ### Names in identifiers -/

theorem spread_append (refs front back : List String) :
    spread refs (front ++ back)
      = spread refs front ++ spread (refs.drop (total (front.map arityOf))) back := by
  induction front generalizing refs with
  | nil => rfl
  | cons name front ih =>
      rw [List.cons_append, spread, ih, List.drop_drop, List.map_cons, total_cons, spread]
      rfl

theorem instantiated_top (space name : String) (scope : Option String) (refs : List String) :
    instantiated (.top space name scope) refs
      = qualified space (Segment.text ⟨name, refs.take (arityOf name)⟩) := by
  have hpath : join "." (distribute refs (TypeName.top space name scope).chain)
      = Segment.text ⟨name, refs.take (arityOf name)⟩ := by
    rw [distribute_eq_spread]
    rfl
  unfold instantiated
  rw [hpath]
  rfl

theorem instantiated_nested (outer : TypeName) (name : String) (scope : Option String)
    (refs : List String) :
    instantiated (.nested outer name scope) refs
      = instantiated outer refs ++ "."
        ++ Segment.text ⟨name, (refs.drop outer.totalArity).take (arityOf name)⟩ := by
  have houter : distribute refs outer.chain ≠ [] := by
    rw [distribute_eq_spread]
    exact fun hnil => spread_ne_nil refs outer.segments_ne_nil (List.map_eq_nil_iff.mp hnil)
  have hpath : join "." (distribute refs (TypeName.nested outer name scope).chain)
      = join "." (distribute refs outer.chain) ++ "."
        ++ Segment.text ⟨name, (refs.drop outer.totalArity).take (arityOf name)⟩ := by
    rw [TypeName.totalArity_eq]
    rw [distribute_eq_spread] at houter ⊢
    rw [TypeName.chain, List.map_append, spread_append, List.map_append,
      join_append houter (by simp [spread]), distribute_eq_spread]
    rfl
  unfold instantiated
  rw [hpath]
  rw [show (TypeName.nested outer name scope).rootSpace = outer.rootSpace from rfl]
  split
  · rfl
  · simp only [String.append_assoc]

/-- Without arguments a name is the dotted one. -/
theorem instantiated_no_refs {name : TypeName} (hquiet : name.Quiet) :
    instantiated name [] = name.dottedName := by
  induction name with
  | top space name scope =>
      rw [instantiated_top, List.take_nil, Segment.text_of_bare rfl]
      refine ((recode_qualified _ rfl (fun c hc => dot_of_isQuiet (hquiet.1 c hc)) name).trans
        ?_).symm
      rw [recode_of_fixed _ fun c hc => dot_of_isQuiet (hquiet.2 c hc)]
  | nested outer name scope ih =>
      rw [instantiated_nested, List.drop_nil, List.take_nil, Segment.text_of_bare rfl,
        ih hquiet.1, TypeName.dottedName, TypeName.dottedName, TypeName.fullName, swap_append,
        swap_append, swap_of_notMem fun hmem => (isQuiet_iff.mp (hquiet.2 _ hmem)).2 rfl]
      rfl

theorem braced_of_quiet {text : String} (h : ∀ c ∈ text.toList, isQuiet c = true) :
    braced text = text :=
  recode_of_fixed _ fun c hc => brace_of_isQuiet (h c hc)

theorem braced_append (a b : String) : braced (a ++ b) = braced a ++ braced b :=
  recode_append _ a b

/-- A segment with all of its arguments. -/
theorem braced_segment {name : String} {arity : Nat} (hname : IsMarked name arity)
    (hquiet : ∀ c ∈ name.toList, isQuiet c = true) {own : List String}
    (hown : own.length = arity) :
    braced (plainOf name ++ full.list own) = Segment.text ⟨name, own.map braced⟩ := by
  have hplain : braced (plainOf name) = plainOf name :=
    braced_of_quiet fun c hc => hquiet c (hname.mem_of_mem_plainOf hc)
  rw [braced_append, hplain]
  cases own with
  | nil =>
      cases hname with
      | bare h =>
          rw [plainOf_of_notMem h]
          exact String.append_empty
      | marked h hpos => exact absurd hown.symm (Nat.ne_of_gt hpos)
  | cons first rest =>
      show plainOf name ++ braced ("<" ++ join "," (first :: rest) ++ ">") = _
      rw [braced_append, braced_append, ← String.append_assoc, ← String.append_assoc]
      exact congrArg (plainOf name ++ "\x7b" ++ · ++ "\x7d") (recode_join _ (by decide) _)

/-- **With braces, a filled path is the name in identifiers.** -/
theorem braced_path {name : TypeName} {count : Nat} (hname : name.Counts count)
    (hsize : count < sizeLimit) (hquiet : name.Quiet) {texts : List String}
    (hcount : count ≤ texts.length) :
    braced (full.path texts name) = instantiated name (texts.map braced) := by
  induction hname with
  | @top space name arity hspace hname scope =>
      have hown : (texts.take arity).length = arity := by
        rw [List.length_take]
        omega
      rw [path_top hname hsize hcount, instantiated_top, hname.arityOf_eq hsize, ← List.map_take,
        ← braced_segment hname hquiet.2 hown]
      show braced (qualified space (plainOf name) ++ _) = _
      rw [← qualified_append]
      exact recode_qualified _ rfl (fun c hc => brace_of_isQuiet (hquiet.1 c hc)) _
  | @nested outer count houter name arity hname scope ih =>
      have hown : ((texts.drop count).take arity).length = arity := by
        rw [List.length_take, List.length_drop]
        omega
      rw [path_nested houter hname hsize hcount, instantiated_nested,
        houter.totalArity_eq (by omega), hname.arityOf_eq (by omega), ← List.map_drop,
        ← List.map_take, ← braced_segment hname hquiet.2 hown, String.append_assoc, braced_append,
        braced_append, ih (by omega) hquiet.1 (by omega)]
      rfl

/-! ### References -/

/-- A reference made of built-in types, named types that take no arguments, instantiations of named
types with as many arguments as the name takes and not fewer than `fewest`, arrays of one dimension
and pointers. -/
inductive Signature.Filled (fewest : Nat) : Signature → Prop
  | primitive (kind : Primitive) : Filled fewest (.primitive kind)
  | named {name : TypeName} (hname : name.Counts 0) (hquiet : name.Quiet) :
      Filled fewest (.named name)
  | instantiation {name : TypeName} {args : List Signature} (hname : name.Counts args.length)
      (hquiet : name.Quiet) (hfew : fewest ≤ args.length) (hsize : args.length < sizeLimit)
      (hargs : ∀ arg ∈ args, Filled fewest arg) :
      Filled fewest (.instantiation (.named name) args)
  | array {element : Signature} (h : Filled fewest element) {rank : Nat} (hrank : rank ≤ 1) :
      Filled fewest (.array element rank)
  | pointer {element : Signature} (h : Filled fewest element) : Filled fewest (.pointer element)

/-- The full name without the empty lists of instantiations that have no arguments. -/
def bareFull : Rendering := { full with hollow := "" }

theorem Signature.render_array {rank : Nat} (hrank : rank ≤ 1) (style : Rendering)
    (element : Signature) : (array element rank).render style = element.render style ++ "[]" := by
  rw [render, Nat.sub_eq_zero_of_le hrank, String.append_assoc, String.append_assoc]
  rfl

theorem Signature.reference_array_flat {rank : Nat} (hrank : rank ≤ 1) (element : Signature) :
    reference (array element rank) = reference element ++ "[]" := by
  rw [reference, if_pos hrank]

theorem path_bareFull (texts : List String) (name : TypeName) :
    bareFull.path texts name = full.path texts name := by
  induction name with
  | top space name scope => rfl
  | nested outer name scope ih =>
      rw [Rendering.path, Rendering.path, ih]
      rfl

namespace Signature.Filled

variable {fewest : Nat} {sig : Signature}

theorem outerRanks_le (h : sig.Filled fewest) : ∀ rank ∈ sig.outerRanks, rank ≤ 1 := by
  induction h with
  | primitive kind => exact fun _ hrank => absurd hrank List.not_mem_nil
  | named hname hquiet => exact fun _ hrank => absurd hrank List.not_mem_nil
  | instantiation hname hquiet hfew hsize hargs ih =>
      exact fun _ hrank => absurd hrank List.not_mem_nil
  | array h hrank ih =>
      intro rank hmem
      rcases List.mem_cons.mp hmem with rfl | hmem
      · exact hrank
      · exact ih rank hmem
  | pointer h ih => exact ih

theorem localizable (h : sig.Filled fewest) : sig.Localizable := by
  induction h with
  | primitive kind => exact .primitive kind
  | @named name hname hquiet => exact .named name
  | instantiation hname hquiet hfew hsize hargs ih =>
      exact .instantiation hname hsize (fun arg harg => (hargs arg harg).outerRanks_le) ih
  | @array element h rank hrank ih => exact .array ih rank
  | pointer h ih => exact .pointer ih

theorem inert (h : sig.Filled fewest) : sig.Inert := by
  have hnamed : ∀ {name : TypeName}, name.Quiet → (Signature.named name).Inert := by
    intro name hquiet text htext
    rw [List.mem_singleton.mp htext]
    exact hquiet.isInert
  induction h with
  | primitive kind => exact fun name hname => absurd hname List.not_mem_nil
  | named hname hquiet => exact hnamed hquiet
  | instantiation hname hquiet hfew hsize hargs ih =>
      exact inert_instantiation.mpr ⟨hnamed hquiet, ih⟩
  | array h hrank ih => exact ih
  | pointer h ih => exact ih

theorem stripByRef (h : sig.Filled fewest) : sig.stripByRef = sig := by
  cases h <;> rfl

/-- Every arity is filled, so the arities that are dropped from full names are none. -/
theorem arityMark_notMem_render (h : sig.Filled fewest) :
    arityMark ∉ (sig.render localized).toList := by
  have hplain : ∀ {name : TypeName}, name.Counts 0 →
      arityMark ∉ (localized.path [] name).toList :=
    fun hname => arityMark_notMem_path hname (by decide) (Nat.zero_le _)
      fun _ htext => absurd htext List.not_mem_nil
  induction h with
  | primitive kind => exact hplain kind.takes.counts
  | named hname hquiet => exact hplain hname
  | @instantiation name args hname hquiet hfew hsize hargs ih =>
      rw [toList_render_localized, List.mem_append]
      rintro (hmem | hmem)
      · refine arityMark_notMem_path hname hsize (by simp) (fun text htext => ?_) hmem
        obtain ⟨arg, harg, rfl⟩ := List.mem_map.mp htext
        exact ih arg harg
      · split at hmem
        · exact absurd hmem (by decide)
        · exact absurd hmem (by decide)
  | @array element h rank hrank ih =>
      rw [render_array hrank, String.toList_append, List.mem_append]
      rintro (hmem | hmem)
      · exact ih hmem
      · exact absurd hmem (by decide)
  | pointer h ih =>
      rw [render, String.toList_append, List.mem_append]
      rintro (hmem | hmem)
      · exact ih hmem
      · exact absurd hmem (by decide)

theorem swap_render (h : sig.Filled fewest) :
    swap '/' '.' (sig.render localized) = sig.render full := by
  induction h with
  | primitive kind => exact swap_path kind.takes.counts (by decide) kind.takes.quiet (Nat.zero_le _)
  | named hname hquiet => exact swap_path hname (by decide) hquiet (Nat.zero_le _)
  | @instantiation name args hname hquiet hfew hsize hargs ih =>
      have hmap : (args.map (render localized)).map (swap '/' '.') = args.map (render full) := by
        rw [List.map_map]
        exact List.map_congr_left ih
      simp only [render, renders_eq_map]
      rw [swap_append, swap_path hname hsize hquiet (by simp), hmap]
      split
      · rfl
      · rfl
  | @array element h rank hrank ih =>
      rw [render_array hrank, render_array hrank, swap_append, ih]
      rfl
  | pointer h ih =>
      rw [render, render, swap_append, ih]
      rfl

theorem shownFullName_eq (h : sig.Filled fewest) : sig.shownFullName = sig.render full := by
  rw [shownFullName, localizedName, h.stripByRef, localizedOr_rawName h.localizable h.inert,
    Name.stripArity, stripPlaceholders_of_notMem h.arityMark_notMem_render, String.ofList_toList,
    h.swap_render]

theorem braced_render (h : sig.Filled fewest) : braced (sig.render bareFull) = reference sig := by
  have hplain : ∀ {name : TypeName}, name.Counts 0 → name.Quiet →
      braced (bareFull.path [] name) = name.dottedName := by
    intro name hname hquiet
    rw [path_bareFull, braced_path hname (by decide) hquiet (Nat.zero_le _)]
    exact instantiated_no_refs hquiet
  induction h with
  | primitive kind =>
      have hdotted : (TypeName.parse kind.fullName).dottedName = kind.fullName := by
        rw [TypeName.dottedName, kind.fullName_parse]
        cases kind <;> decide
      exact (hplain kind.takes.counts kind.takes.quiet).trans hdotted
  | named hname hquiet => exact hplain hname hquiet
  | @instantiation name args hname hquiet hfew hsize hargs ih =>
      have hmap : (args.map (render bareFull)).map braced = args.map reference := by
        rw [List.map_map]
        exact List.map_congr_left ih
      have hrender : (Signature.instantiation (.named name) args).render bareFull
          = full.path (args.map (render bareFull)) name := by
        simp only [render, renders_eq_map, path_bareFull]
        split <;> exact String.append_empty
      show braced _ = instantiated name (references args)
      rw [hrender, braced_path hname hsize hquiet (by simp), hmap, references_eq_map]
  | @array element h rank hrank ih =>
      rw [render_array hrank, reference_array_flat hrank, braced_append, ih]
      rfl
  | pointer h ih =>
      rw [render, braced_append, ih]
      rfl

/-- Where every instantiation has arguments, no list is empty. -/
theorem render_bareFull (h : sig.Filled 1) : sig.render bareFull = sig.render full := by
  induction h with
  | primitive kind => exact path_bareFull _ _
  | named hname hquiet => exact path_bareFull _ _
  | @instantiation name args hname hquiet hfew hsize hargs ih =>
      have hmap : args.map (render bareFull) = args.map (render full) := List.map_congr_left ih
      have hne : args.isEmpty = false := by
        cases args with
        | nil => exact absurd hfew (by decide)
        | cons first rest => rfl
      simp only [render, renders_eq_map, path_bareFull, hmap, hne]
      rfl
  | @array element h rank hrank ih => rw [render_array hrank, render_array hrank, ih]
  | pointer h ih => rw [render, render, ih]

end Signature.Filled

/--
**Full names and identifiers hand out arguments alike.**  Let a reference be made of built-in types,
named types without arguments, instantiations with all of theirs, arrays of one dimension and
pointers.  Its full name is the tree written out, each segment with its own share of the arguments,
and behind an instantiation without arguments an empty list.  The reference in identifiers is the
same without the empty lists, and with braces in the place of angle brackets.  So it is the full
name with braces where every instantiation has arguments.
-/
theorem reference_eq_braced (sig : Signature) (h : sig.Filled 0) :
    (ShownType.of sig).fullName = sig.render full
      ∧ reference sig = braced (sig.render { full with hollow := "" })
      ∧ (sig.Filled 1 → reference sig = braced (ShownType.of sig).fullName) := by
  have hfull : (ShownType.of sig).fullName = sig.render full := h.shownFullName_eq
  refine ⟨hfull, h.braced_render.symm, fun hone => ?_⟩
  rw [hfull, ← hone.render_bareFull, hone.braced_render]

/-- A nested type with the arguments of the type around it and its own. -/
theorem reference_eq_braced_slots :
    let slot := TypeName.nested (.top "Game" "Shelf`1" none) "Slot`2" none
    let list := TypeName.top "Collections" "List`1" none
    let sig := Signature.array (.instantiation (.named slot)
      [.primitive .int32, .instantiation (.named list) [.pointer (.primitive .string)],
        .named (.top "Game" "Größe" none)]) 1
    (ShownType.of sig).fullName
        = "Game.Shelf<System.Int32>.Slot<Collections.List<System.String*>,Game.Größe>[]"
      ∧ reference sig = braced (ShownType.of sig).fullName := by
  intro slot list sig
  have hquiet : ∀ text : String, (text.toList.all fun c => isQuiet c = true) = true →
      ∀ c ∈ text.toList, isQuiet c = true := fun text h => forall_mem_of_all h
  have hmarked : ∀ (plain : String) {arity : Nat}, arityMark ∉ plain.toList → 0 < arity →
      IsMarked (plain ++ "`" ++ naturalText arity) arity := fun _ _ h hpos => .marked h hpos
  have hslot : slot.Counts 3 :=
    .nested (.top (by decide) (hmarked "Shelf" (by decide) Nat.one_pos) none)
      (hmarked "Slot" (by decide) Nat.two_pos) none
  have hlist : list.Counts 1 := .top (by decide) (hmarked "List" (by decide) Nat.one_pos) none
  have hslotQuiet : slot.Quiet :=
    ⟨⟨hquiet _ (by decide), hquiet _ (by decide)⟩, hquiet _ (by decide)⟩
  have hlistQuiet : list.Quiet := ⟨hquiet _ (by decide), hquiet _ (by decide)⟩
  have hfilled : ∀ fewest ≤ 1, sig.Filled fewest := by
    intro fewest hfew
    have hpointers : (Signature.instantiation (.named list) [.pointer (.primitive .string)]).Filled
        fewest := by
      refine .instantiation hlist hlistQuiet hfew (by decide) fun arg harg => ?_
      rw [List.mem_singleton.mp harg]
      exact .pointer (.primitive .string)
    refine .array (.instantiation hslot hslotQuiet ?_ (by decide) fun arg harg => ?_) (by decide)
    · show fewest ≤ 3
      omega
    · simp only [List.mem_cons, List.not_mem_nil, or_false] at harg
      rcases harg with rfl | rfl | rfl
      · exact .primitive .int32
      · exact hpointers
      · exact .named (.top (by decide) (.bare (by decide)) none)
          ⟨hquiet _ (by decide), hquiet _ (by decide)⟩
  obtain ⟨hfull, -, hbraced⟩ := reference_eq_braced sig (hfilled 0 (by decide))
  exact ⟨hfull.trans (by decide), hbraced (hfilled 1 (by decide))⟩

/-- The empty list of an instantiation without arguments is in the full name only. -/
theorem not_reference_eq_braced_fullName :
    ¬∀ sig : Signature, sig.Filled 0 → reference sig = braced (ShownType.of sig).fullName := by
  intro hall
  have hname : (TypeName.top "Game" "Slot" none).Counts 0 :=
    .top (by decide) (.bare (by decide)) none
  have hslot : (Signature.instantiation (.named (.top "Game" "Slot" none)) []).Filled 0 :=
    .instantiation hname ⟨forall_mem_of_all (by decide), forall_mem_of_all (by decide)⟩ (by decide)
      (by decide) (by simp)
  have hreference := hall _ hslot
  rw [show (ShownType.of _).fullName = _ from hslot.shownFullName_eq] at hreference
  exact absurd hreference (by decide)

end ApiSurface
