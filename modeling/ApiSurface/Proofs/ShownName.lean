/-
The names that references are shown by.

A shown name is made in two steps.  `Name.localizeOwn` reads the raw name, finds
its argument list again and fills the arities of the name with it, list by list;
`localizeOwn_rawName` says that this comes out as a rendering of the tree.  It is
an induction on the tree with any text behind the raw name, because the suffixes
of arrays and pointers stand behind the argument list and are carried along.  The
passes of `ApiSurface.Proofs.NamePasses` then lead from there to the two names.

An instantiation without arguments keeps the empty list of its raw name: nothing
in the name takes arguments, and a list that nothing takes is left where it is.
-/
import ApiSurface.Proofs.NamePasses

namespace ApiSurface

open Text Rendering

/-! ### Filling arities -/

theorem fill_append (args : List (List Char)) (used : Nat) (front back : List Name.Piece) :
    Name.fill args used (front ++ back)
      = (Name.fill args used front).bind fun first =>
          (Name.fill args first.used back).map fun second =>
            ⟨first.text ++ second.text, second.used⟩ := by
  induction front generalizing used with
  | nil =>
      show Name.fill args used back
        = (Name.fill args used back).map fun second => ⟨[] ++ second.text, second.used⟩
      cases Name.fill args used back with
      | error shortage => rfl
      | ok second => rfl
  | cons piece front ih =>
      cases piece with
      | plain c =>
          rw [List.cons_append, Name.fill, Name.fill, ih]
          cases Name.fill args used front with
          | error shortage => rfl
          | ok first =>
              cases hback : Name.fill args first.used back <;>
                simp [Except.bind, Except.map, hback]
      | placeholder digits =>
          rw [List.cons_append, Name.fill, Name.fill]
          cases Name.grant args.length used digits with
          | error shortage => rfl
          | ok count =>
              simp only [ih]
              cases Name.fill args (used + count) front with
              | error shortage => rfl
              | ok first =>
                  cases hback : Name.fill args first.used back <;>
                    simp [Except.bind, Except.map, hback]

theorem fill_plain (args : List (List Char)) (used : Nat) (text : List Char) :
    Name.fill args used (text.map .plain) = .ok ⟨text, used⟩ := by
  induction text with
  | nil => rfl
  | cons c rest ih => rw [List.map_cons, Name.fill, ih]; rfl

theorem readDigits_naturalText {n : Nat} (h : n < sizeLimit) :
    readDigits (naturalText n).toList = some n := by
  have hsize := readSize_naturalText n
  rw [if_pos h] at hsize
  unfold readSize at hsize
  split at hsize
  · rename_i digits hplus
    have hmem : '+' ∈ (naturalText n).toList := by rw [hplus]; exact List.mem_cons_self
    rw [naturalText, String.toList_ofList] at hmem
    exact absurd (Nat.isDigit_of_mem_toDigits (by decide) (by decide) hmem) (by decide)
  · exact hsize

theorem intercalate_toList (parts : List String) :
    [','].intercalate (parts.map String.toList) = (join "," parts).toList := by
  induction parts with
  | nil => rfl
  | cons part rest ih =>
      cases rest with
      | nil => simp [join]
      | cons next rest =>
          rw [toList_join_cons, ← ih]
          simp [List.intercalate]

theorem bracket_toList {parts : List String} (h : parts ≠ []) :
    Name.bracket (parts.map String.toList) = (localized.list parts).toList := by
  have hne : parts.isEmpty = false := by simpa using h
  rw [Name.bracket, intercalate_toList, Rendering.list, hne]
  simp [localized, slashed, full]

/-- A segment takes its own arguments, and what stands before it stays. -/
theorem IsMarked.fill {name : String} {arity : Nat} (h : IsMarked name arity)
    (args : List String) (used : Nat) (hsize : used + arity < sizeLimit)
    (hargs : used + arity ≤ args.length) {before : List Char} (hbefore : arityMark ∉ before) :
    Name.fill (args.map String.toList) used (Name.mangledPieces (before ++ name.toList))
      = .ok ⟨before
          ++ (localized.label (!((args.drop used).take arity).isEmpty) name).toList
          ++ (localized.list ((args.drop used).take arity)).toList, used + arity⟩ := by
  cases h with
  | bare h =>
      have hplain : arityMark ∉ before ++ name.toList := by
        intro hmem
        rcases List.mem_append.mp hmem with hmem | hmem
        · exact hbefore hmem
        · exact h hmem
      rw [mangledPieces_of_notMem hplain, fill_plain]
      simp [Rendering.list, Rendering.label, localized]
  | marked h hpos =>
      rename_i plain
      have hplain : arityMark ∉ before ++ plain.toList := by
        intro hmem
        rcases List.mem_append.mp hmem with hmem | hmem
        · exact hbefore hmem
        · exact h hmem
      have hown : (args.drop used).take arity ≠ [] := by
        intro hnil
        have hlength := congrArg List.length hnil
        rw [List.length_take, List.length_drop, List.length_nil] at hlength
        omega
      have hlist : Name.fill (args.map String.toList) used
          [.placeholder (naturalText arity).toList]
          = .ok ⟨(localized.list ((args.drop used).take arity)).toList, used + arity⟩ := by
        have hgrant : Name.grant (args.map String.toList).length used (naturalText arity).toList
            = .ok arity := by
          refine Name.grant_eq_ok_iff.mpr ⟨readDigits_naturalText (by omega), hsize, ?_⟩
          rwa [List.length_map]
        rw [Name.fill, hgrant]
        simp only [Name.fill, Except.map]
        rw [← List.map_drop, ← List.map_take, bracket_toList hown, List.append_nil]
      have hfilled : ((args.drop used).take arity).isEmpty = false := by simpa using hown
      rw [toList_marked, ← List.append_assoc, mangledPieces_append hplain, mangledPieces_mark,
        fill_append, fill_plain, Except.bind, hlist, hfilled]
      simp [Except.map, Rendering.label, localized, slashed, full, plainOf_marked]

/-- A name takes its arguments from the front, segment by segment. -/
theorem TypeName.Counts.fill {name : TypeName} {count : Nat} (h : name.Counts count)
    (args : List String) (hargs : count ≤ args.length) (hsize : count < sizeLimit) :
    Name.fill (args.map String.toList) 0 (Name.mangledPieces name.fullName.toList)
      = .ok ⟨(localized.path args name).toList, count⟩ := by
  induction h with
  | top hspace hname scope =>
      rename_i space name arity
      have hfull : (TypeName.top space name scope).fullName = qualified space name := rfl
      have hfill := hname.fill args 0 (by omega) (by omega) (notMem_qualified hspace (by decide))
      rw [hfull, toList_qualified, hfill, List.drop_zero, Nat.zero_add]
      simp only [Rendering.path, hname.arityOf_eq hsize, String.toList_append]
      generalize localized.label (!(args.take arity).isEmpty) name = label
      show _ = Except.ok (⟨(qualified space label).toList ++ _, arity⟩ : Name.Filled)
      rw [toList_qualified _ label]
  | nested houter hname scope ih =>
      rename_i outer count name arity
      have hpieces : Name.mangledPieces (outer.fullName.toList ++ '/' :: name.toList)
          = Name.mangledPieces outer.fullName.toList
            ++ (.plain '/' :: Name.mangledPieces name.toList) :=
        piecesFrom_append (by decide) (by decide) _ _ _
      have hown := hname.fill args count hsize hargs (List.not_mem_nil (a := arityMark))
      rw [List.nil_append] at hown
      rw [TypeName.toList_fullName_nested, hpieces, fill_append, ih (by omega) (by omega),
        Except.bind, Name.fill, hown]
      simp only [Rendering.path, houter.totalArity_eq (by omega), hname.arityOf_eq (by omega),
        String.toList_append, Except.map]
      simp [localized, slashed]

/-! ### Raw names are localized -/

theorem localizeOwn_eq (name : List Char) :
    Name.localizeOwn name = match Name.firstList name with
      | .absent => .ok name
      | .unclosed _ _ => .error (.malformed name)
      | .found cut =>
        match (Name.arguments cut.inside).mapM Name.localizeOwn with
        | .error fault => .error fault
        | .ok args =>
          match Name.fill args 0 (Name.mangledPieces cut.head) with
          | .error shortage => .error (shortage.fault name)
          | .ok filled =>
            .ok (filled.text ++ (if filled.used = 0 then Name.bracket args else [])
              ++ cut.tail) := by
  rw [Name.localizeOwn]
  split
  · rename_i hlist; simp only [hlist]
  · rename_i hlist; simp only [hlist]
  · rename_i cut hlist
    cases hargs : (Name.arguments cut.inside).mapM Name.localizeOwn with
    | error fault => simp [hlist, hargs]
    | ok args => cases hfill : Name.fill args 0 (Name.mangledPieces cut.head) <;>
        simp [hlist, hargs, hfill]

theorem localizeOwn_of_absent {name : List Char} (h : '<' ∉ name) :
    Name.localizeOwn name = .ok name := by
  rw [localizeOwn_eq, Name.firstList, cutFirst_eq_none_iff.mpr h]

theorem localizeOwn_of_found {name : List Char} {cut : Name.Bracketed} {args : List (List Char)}
    {filled : Name.Filled} (h : Name.firstList name = .found cut)
    (hargs : (Name.arguments cut.inside).mapM Name.localizeOwn = .ok args)
    (hfill : Name.fill args 0 (Name.mangledPieces cut.head) = .ok filled) :
    Name.localizeOwn name
      = .ok (filled.text ++ (if filled.used = 0 then Name.bracket args else []) ++ cut.tail) := by
  simp only [localizeOwn_eq name, h, hargs, hfill]

/-- A name that no arguments are given to takes its own. -/
theorem localizedOr_nil (raw : String) :
    Name.localizedOr raw [] = match Name.localizeOwn raw.toList with
      | .ok text => String.ofList text
      | .error _ => raw := by
  unfold Name.localizedOr Name.localize Name.localizeOrFault Name.localizeChars
  simp only [List.map_nil, List.isEmpty_nil, true_or, if_true]
  cases Name.localizeOwn raw.toList with
  | ok text => rfl
  | error fault => rfl

theorem mapM_cons_of_ok {ε α β : Type} {f : α → Except ε β} {item : α} {first : β}
    (h : f item = .ok first) (rest : List α) :
    (item :: rest).mapM f = (rest.mapM f).map fun more => first :: more := by
  rw [List.mapM_cons, h]
  cases rest.mapM f with
  | error fault => rfl
  | ok more => rfl

theorem mapM_eq_ok {α ε : Type} {f : List Char → Except ε (List Char)}
    {read write : α → List Char} {items : List α}
    (h : ∀ item ∈ items, f (read item) = .ok (write item)) :
    (items.map read).mapM f = .ok (items.map write) := by
  induction items with
  | nil => rfl
  | cons item rest ih =>
      have hrest := ih fun other hother => h other (List.mem_cons_of_mem item hother)
      rw [List.map_cons, mapM_cons_of_ok (h item List.mem_cons_self), hrest]
      rfl

theorem HasArity.isInert {name : String} {arity : Nat} (h : HasArity name arity) :
    ∀ c ∈ name.toList, Name.isInert c = true := by
  intro c hc
  cases h with
  | bare h => exact isInert_of_isWordChar (h.chars c hc)
  | marked h hpos =>
      rw [toList_marked, List.mem_append, List.mem_cons] at hc
      rcases hc with hc | rfl | hc
      · exact isInert_of_isWordChar (h.chars c hc)
      · decide
      · rw [naturalText, String.toList_ofList] at hc
        have hdigit := Nat.isDigit_of_mem_toDigits (by decide) (by decide) hc
        exact isInert_of_isWordChar (by simp [Name.isWordChar, Char.isAlphanum, hdigit])

theorem TypeName.Takes.isInert {name : TypeName} {count : Nat} (h : name.Takes count) :
    ∀ c ∈ name.fullName.toList, Name.isInert c = true := by
  induction h with
  | top hspaces hname scope =>
      intro c hc
      rcases mem_qualified hspaces hc with hpath | hmem
      · exact isInert_of_isPathChar hpath
      · exact hname.isInert c hmem
  | nested houter hname scope ih =>
      intro c hc
      rw [TypeName.fullName, String.toList_append, String.toList_append, List.mem_append,
        List.mem_append] at hc
      rcases hc with (hc | hc) | hc
      · exact ih c hc
      · rw [List.mem_singleton.mp hc]
        decide
      · exact hname.isInert c hc

theorem Signature.Formed.inert {sig : Signature} (h : sig.Formed) : sig.Inert := by
  induction h with
  | primitive kind => exact fun name hname => absurd hname List.not_mem_nil
  | named hname =>
      intro text htext
      rw [List.mem_singleton.mp htext]
      exact hname.isInert
  | instantiation hname hsize hargs ih =>
      refine inert_instantiation.mpr ⟨?_, ih⟩
      intro text htext
      rw [List.mem_singleton.mp htext]
      exact hname.isInert
  | array h rank ih => exact ih
  | byRef h ih => exact ih
  | pointer h ih => exact ih
  | parameter owner index hname =>
      intro text htext
      rw [List.mem_singleton.mp htext]
      exact fun c hc => isInert_of_isWordChar (hname.chars c hc)

/-- Without arguments a localized path is the full name. -/
theorem localized_path_nil (name : TypeName) : localized.path [] name = name.fullName := by
  induction name with
  | top space name scope =>
      show qualified space _ ++ _ = _
      simp [Rendering.list, Rendering.label, localized, qualified, TypeName.fullName]
  | nested outer name scope ih =>
      rw [Rendering.path, ih]
      simp [Rendering.list, Rendering.label, localized, slashed, TypeName.fullName]

/-- A name that takes no arguments is written in the same way whatever there is to take. -/
theorem path_of_counts_zero {name : TypeName} {count : Nat} (h : name.Counts count)
    (hzero : count = 0) (style : Rendering) (args : List String) :
    style.path args name = style.path [] name := by
  have hsize : 0 < sizeLimit := by decide
  induction h with
  | top hspace hname scope =>
      subst hzero
      simp only [Rendering.path, hname.arityOf_eq hsize, List.take_zero]
  | nested houter hname scope ih =>
      rename_i outer count name arity
      have harity : arityOf name = 0 := by
        rw [hname.arityOf_eq (by omega)]
        omega
      simp only [Rendering.path, ih (by omega), harity, List.take_zero]

theorem notMem_open_of_isInert {text : List Char} (h : ∀ c ∈ text, Name.isInert c = true) :
    '<' ∉ text := by
  intro hmem
  exact (Name.isInert_iff.mp (h '<' hmem)).1.1 rfl

theorem localizeOwn_inert {text tail : List Char} (h : ∀ c ∈ text, Name.isInert c = true)
    (htail : '<' ∉ tail) : Name.localizeOwn (text ++ tail) = .ok (text ++ tail) := by
  refine localizeOwn_of_absent fun hmem => ?_
  rcases List.mem_append.mp hmem with hmem | hmem
  · exact notMem_open_of_isInert h hmem
  · exact htail hmem

section Instantiation

variable {name : TypeName} {args : List Signature} (hname : name.Counts args.length)
  (hsize : args.length < sizeLimit) (hinert : (Signature.instantiation (.named name) args).Inert)

theorem toList_render_localized :
    ((Signature.instantiation (.named name) args).render localized).toList
      = (localized.path (args.map (Signature.render localized)) name).toList
        ++ (if args.isEmpty then "<>" else "").toList := by
  simp only [Signature.render, Signature.renders_eq_map, String.toList_append]
  rfl

include hname hsize hinert

/-- The inside of an empty list has one piece, which is empty, and nothing takes it. -/
theorem localizeOwn_hollow (hempty : args = []) (tail : List Char) :
    Name.localizeOwn ((Signature.instantiation (.named name) args).rawName.toList ++ tail)
      = .ok (((Signature.instantiation (.named name) args).render localized).toList ++ tail) := by
  subst hempty
  have hlocal : (Name.arguments []).mapM Name.localizeOwn = .ok [[]] := by
    have hnil : Name.localizeOwn [] = .ok [] := localizeOwn_of_absent List.not_mem_nil
    show ([[]] : List (List Char)).mapM Name.localizeOwn = _
    rw [List.mapM_cons, hnil]
    rfl
  have hfill := hname.fill [""] (by simp) hsize
  have hone := localizeOwn_of_found (Signature.firstList_rawName hinert tail) hlocal hfill
  rw [path_of_counts_zero hname rfl] at hone
  rw [hone, toList_render_localized]
  rfl

theorem localizeOwn_filled (hne : args ≠ [])
    (hflat : ∀ arg ∈ args, ∀ rank ∈ arg.outerRanks, rank ≤ 1)
    (hargs : ∀ arg ∈ args,
      Name.localizeOwn arg.rawName.toList = .ok (arg.render localized).toList) (tail : List Char) :
    Name.localizeOwn ((Signature.instantiation (.named name) args).rawName.toList ++ tail)
      = .ok (((Signature.instantiation (.named name) args).render localized).toList ++ tail) := by
  obtain ⟨-, hinertArgs⟩ := Signature.inert_instantiation.mp hinert
  have hlocal : (Name.arguments (join "," (args.map Signature.rawName)).toList).mapM
        Name.localizeOwn
      = .ok (args.map fun arg => (arg.render localized).toList) := by
    rw [Signature.arguments_args hne hinertArgs hflat]
    exact mapM_eq_ok hargs
  have hfill := hname.fill (args.map (Signature.render localized)) (by simp) hsize
  rw [List.map_map] at hfill
  have hused : args.length ≠ 0 := by simpa using hne
  rw [localizeOwn_of_found (Signature.firstList_rawName hinert tail) hlocal hfill,
    toList_render_localized]
  simp [hused, hne]

end Instantiation

/-- An instantiation is one of a named type, with as many arguments as its name takes, and no array
of more than one dimension stands inside an argument. -/
inductive Signature.Localizable : Signature → Prop
  | primitive (kind : Primitive) : Localizable (.primitive kind)
  | named (name : TypeName) : Localizable (.named name)
  | instantiation {name : TypeName} {args : List Signature} (hname : name.Counts args.length)
      (hsize : args.length < sizeLimit)
      (hflat : ∀ arg ∈ args, ∀ rank ∈ arg.outerRanks, rank ≤ 1)
      (hargs : ∀ arg ∈ args, Localizable arg) : Localizable (.instantiation (.named name) args)
  | array {element : Signature} (h : Localizable element) (rank : Nat) :
      Localizable (.array element rank)
  | byRef {element : Signature} (h : Localizable element) : Localizable (.byRef element)
  | pointer {element : Signature} (h : Localizable element) : Localizable (.pointer element)
  | parameter (owner : ParameterOwner) (index : Nat) (name : String) :
      Localizable (.parameter owner index name)

theorem Signature.Regular.localizable {sig : Signature} (h : sig.Regular) : sig.Localizable := by
  induction h with
  | primitive kind => exact .primitive kind
  | @named name count hname => exact .named name
  | instantiation hname hsize hflat hargs ih => exact .instantiation hname.counts hsize hflat ih
  | array h rank ih => exact .array ih rank
  | byRef h ih => exact .byRef ih
  | pointer h ih => exact .pointer ih
  | @parameter owner index name hname => exact .parameter owner index name

/-- **The argument lists of a raw name end up at the segments they belong to.** -/
theorem localizeOwn_rawName {sig : Signature} (h : sig.Localizable) (hinert : sig.Inert) :
    ∀ tail : List Char, '<' ∉ tail →
      Name.localizeOwn (sig.rawName.toList ++ tail)
        = .ok ((sig.render localized).toList ++ tail) := by
  induction h with
  | primitive kind =>
      intro tail htail
      rw [Signature.render, localized_path_nil, kind.fullName_parse]
      exact localizeOwn_inert (Signature.isInert_primitive kind) htail
  | named name =>
      intro tail htail
      rw [Signature.render, localized_path_nil]
      exact localizeOwn_inert hinert.named htail
  | instantiation hname hsize hflat hargs ih =>
      rename_i name args
      intro tail htail
      obtain ⟨-, hinertArgs⟩ := Signature.inert_instantiation.mp hinert
      by_cases hempty : args = []
      · exact localizeOwn_hollow hname hsize hinert hempty tail
      · refine localizeOwn_filled hname hsize hinert hempty hflat (fun arg harg => ?_) tail
        have hown := ih arg harg (hinertArgs arg harg) [] List.not_mem_nil
        rwa [List.append_nil, List.append_nil] at hown
  | array hel rank ih =>
      intro tail htail
      have hsuffix : '<' ∉ '[' :: (List.replicate (rank - 1) ',' ++ [']']) ++ tail := by
        intro hmem
        simp only [List.cons_append, List.append_assoc, List.mem_cons, List.mem_append,
          List.mem_replicate, List.not_mem_nil, false_or] at hmem
        rcases hmem with hmem | ⟨-, hmem⟩ | hmem | hmem
        · exact absurd hmem (by decide)
        · exact absurd hmem (by decide)
        · exact absurd hmem (by decide)
        · exact htail hmem
      have hrest := ih hinert _ hsuffix
      rw [Signature.toList_rawName_array, List.append_assoc, hrest]
      simp [Signature.render, Signature.toList_copies_comma]
  | byRef hel ih =>
      intro tail htail
      have hrest := ih hinert ('&' :: tail) (by simp [htail])
      rw [Signature.toList_rawName_byRef, List.append_assoc]
      exact hrest.trans (by simp [Signature.render])
  | pointer hel ih =>
      intro tail htail
      have hrest := ih hinert ('*' :: tail) (by simp [htail])
      rw [Signature.toList_rawName_pointer, List.append_assoc]
      exact hrest.trans (by simp [Signature.render])
  | parameter owner index name =>
      intro tail htail
      exact localizeOwn_inert hinert.parameter htail

theorem localizedOr_rawName {sig : Signature} (h : sig.Localizable) (hinert : sig.Inert) :
    Name.localizedOr sig.rawName [] = sig.render localized := by
  have hlocal := localizeOwn_rawName h hinert [] List.not_mem_nil
  rw [List.append_nil, List.append_nil] at hlocal
  rw [localizedOr_nil, hlocal]
  exact String.ofList_toList

/-! ### The two shown names -/

theorem Signature.Regular.stripByRef {sig : Signature} (h : sig.Regular) :
    sig.stripByRef.Regular := by
  cases h with
  | byRef h => exact h
  | primitive kind => exact .primitive kind
  | named hname => exact .named hname
  | instantiation hname hsize hflat hargs => exact .instantiation hname hsize hflat hargs
  | array h rank => exact .array h rank
  | pointer h => exact .pointer h
  | parameter owner index hname => exact .parameter owner index hname

/-- The localized name without arities, before it is taken apart for the two names. -/
theorem Signature.Regular.localizedName {sig : Signature} (h : sig.Regular) :
    sig.localizedName = sig.stripByRef.render slashed := by
  have hregular := h.stripByRef
  rw [Signature.localizedName, localizedOr_rawName hregular.localizable hregular.formed.inert,
    Name.stripArity, (turns_stripPlaceholders.render hregular).1,
    String.ofList_toList]

theorem swap_eq_dotNested (text : String) :
    swap '/' '.' text = String.ofList (dotNested text.toList) := rfl

theorem Signature.Regular.shownFullName {sig : Signature} (h : sig.Regular) :
    sig.shownFullName = sig.stripByRef.render full := by
  rw [Signature.shownFullName, h.localizedName, swap_eq_dotNested,
    (turns_full.render h.stripByRef).1, String.ofList_toList]

/-- The passes from a localized name without arities to the displayed one. -/
def displayChars (text : List Char) : List Char :=
  dotNested (Name.unqualifyChars (Name.friendlyChars text))

theorem display_eq (text : String) :
    Name.display text = String.ofList (displayChars text.toList) := by
  rw [Name.display, Name.unqualified, Name.friendly, swap_eq_dotNested, String.toList_ofList,
    String.toList_ofList]
  rfl

theorem Signature.Regular.displayChars_render {sig : Signature} (h : sig.Regular) :
    displayChars (sig.render slashed).toList = (sig.render displayed).toList := by
  have hfriendly := (turns_friendlyChars.render h).1
  have hunqualified := (turns_dropSpaces.render h).1
  have hspaced := (turns_spaceArguments.render h).1
  have hdisplayed := (turns_displayed.render h).1
  unfold dropSpaces at hunqualified
  rw [displayChars, hfriendly, Name.unqualifyChars, hunqualified, hspaced, hdisplayed]

theorem Signature.Regular.shownName {sig : Signature} (h : sig.Regular) :
    sig.shownName = sig.stripByRef.render displayed := by
  rw [Signature.shownName, h.localizedName, display_eq, h.stripByRef.displayChars_render,
    String.ofList_toList]

/--
**Shown names are renderings of the tree.**  For a regular reference the full name and the displayed
name are the reference, without an outermost by-reference, written out segment by segment: each with
its own share of the arguments and without arities that nothing fills.  An instantiation without
arguments keeps an empty list behind its name.
-/
theorem shown_eq_render (sig : Signature) (h : sig.Regular) :
    (ShownType.of sig).fullName = sig.stripByRef.render full
      ∧ (ShownType.of sig).name = sig.stripByRef.render displayed :=
  ⟨h.shownFullName, h.shownName⟩

/-- A nested type takes the arguments behind those of the type around it. -/
theorem shown_slots :
    let list := TypeName.top "Collections" "List`1" none
    let slot := TypeName.nested (.top "Game" "Shelf`1" none) "Slot`2" none
    let sig := Signature.byRef (.array (.instantiation (.named slot)
      [.primitive .int32, .instantiation (.named list) [.primitive .string],
        .pointer (.parameter .type 0 "T")]) 2)
    (ShownType.of sig).fullName
        = "Game.Shelf<System.Int32>.Slot<Collections.List<System.String>,T*>[,]"
      ∧ (ShownType.of sig).name = "Shelf<int>.Slot<List<string>, T*>[,]" := by
  intro list slot sig
  have hidentifier : ∀ text : String,
      text ≠ "" ∧ (text.toList.all fun c => Name.isWordChar c = true) = true → IsIdentifier text :=
    fun text h => ⟨h.1, forall_mem_of_all h.2⟩
  have hspace : ∀ space : String, IsIdentifier space → ∀ other ∈ [space], IsIdentifier other := by
    intro space h other hother
    rwa [List.mem_singleton.mp hother]
  have hlist : list.Takes 1 :=
    .top (hspace "Collections" (hidentifier _ (by decide)))
      (HasArity.marked (hidentifier "List" (by decide)) Nat.one_pos) none
  have hshelf : (TypeName.top "Game" "Shelf`1" none).Takes 1 :=
    .top (hspace "Game" (hidentifier _ (by decide)))
      (HasArity.marked (hidentifier "Shelf" (by decide)) Nat.one_pos) none
  have hslot : slot.Takes 3 :=
    .nested hshelf (HasArity.marked (hidentifier "Slot" (by decide)) Nat.two_pos) none
  have hstrings : (Signature.instantiation (.named list) [.primitive .string]).Regular := by
    refine .instantiation hlist (by decide) (by decide) fun arg harg => ?_
    rw [List.mem_singleton.mp harg]
    exact .primitive .string
  have hregular : sig.Regular := by
    refine .byRef (.array (.instantiation hslot (by decide) (by decide) fun arg harg => ?_) 2)
    simp only [List.mem_cons, List.not_mem_nil, or_false] at harg
    rcases harg with rfl | rfl | rfl
    · exact .primitive .int32
    · exact hstrings
    · exact .pointer (.parameter .type 0 (hidentifier _ (by decide)))
  obtain ⟨hfull, hname⟩ := shown_eq_render sig hregular
  exact ⟨hfull.trans (by decide), hname.trans (by decide)⟩

/-- The empty list of an instantiation without arguments is shown and not dropped. -/
theorem not_shown_without_empty_list :
    ¬∀ sig : Signature, sig.Regular →
      (ShownType.of sig).fullName = sig.stripByRef.render { full with hollow := "" }
        ∧ (ShownType.of sig).name = sig.stripByRef.render { displayed with hollow := "" } := by
  intro hall
  have hname : (TypeName.top (join "." ["Game"]) "Slot" none).Takes 0 := by
    refine .top (fun space hspace => ?_) (.bare ⟨by decide, forall_mem_of_all (by decide)⟩) none
    rw [List.mem_singleton.mp hspace]
    exact ⟨by decide, forall_mem_of_all (by decide)⟩
  have hslot : (Signature.instantiation (.inSpace "Game" "Slot") []).Regular :=
    .instantiation hname (by decide) (by simp) (by simp)
  have hfull := (hall _ hslot).1
  rw [show (ShownType.of _).fullName = _ from hslot.shownFullName] at hfull
  exact absurd hfull (by decide)

end ApiSurface
