/-
The mangled names of an instantiation.

A reference shows its mangled name in two ways.  As a reference it cuts its raw
name at the argument list.  As an argument of another one it takes its full name
and puts the number of arguments back in the place of the first list, and since a
full name has dots before its nested types, nothing behind that list is looked at.
So it names the leading type, and the two agree only if that is the type itself.

The number that is put back has to be right for arguments of any kind.  The raw
name of an argument may have commas of its own, between the dimensions of arrays,
and is then taken for several arguments; the lists of the full name get the first
ones, as many as there should be.  What matters is that each of these pieces counts
for one: `Name.IsEntry` says so, and `Signature.Formed.continues` that localizing
makes an entry of whatever the splitter cuts out of an argument.
-/
import ApiSurface.Proofs.LeadingType
import ApiSurface.Proofs.MangledRoundTrip
import ApiSurface.Proofs.RootName

namespace ApiSurface

open Text Rendering

/-! ### From localized names to full ones -/

/-- The passes from a localized name to the full one. -/
def fullChars (text : List Char) : List Char := dotNested (Name.stripPlaceholders text)

theorem dotNested_append (s t : List Char) : dotNested (s ++ t) = dotNested s ++ dotNested t :=
  List.map_append

theorem fullChars_separates {c : Char} (hmark : Name.isMark c = false)
    (hdigit : isDecimalDigit c = false) (hslash : c ≠ '/') : Separates fullChars c := by
  intro before after
  rw [fullChars, stripPlaceholders_separates hmark hdigit, dotNested_append]
  simp [dotNested, fullChars, hslash]

theorem fullChars_slash (before after : List Char) :
    fullChars (before ++ '/' :: after) = fullChars before ++ '.' :: fullChars after := by
  rw [fullChars, stripPlaceholders_separates (by decide) (by decide), dotNested_append]
  simp [dotNested, fullChars]

theorem fullChars_join (parts : List String) :
    fullChars (join "," parts).toList
      = (join "," (parts.map fun part => String.ofList (fullChars part.toList))).toList := by
  induction parts with
  | nil => rfl
  | cons part rest ih =>
      cases rest with
      | nil => simp [join]
      | cons next rest =>
          have hcomma := fullChars_separates (c := ',') (by decide) (by decide) (by decide)
          rw [List.map_cons] at ih
          have hcut := hcomma part.toList (join "," (next :: rest)).toList
          rw [List.map_cons, List.map_cons, toList_join_cons, toList_join_cons, ← ih]
          simpa using hcut

theorem mem_settle {c : Char} {pending : Name.Pending} (h : .plain c ∈ pending.settle) :
    c = arityMark := by
  cases pending with
  | nothing => exact absurd h List.not_mem_nil
  | marks count => exact Name.Piece.plain.inj (List.eq_of_mem_replicate h)
  | digits reversed => simp [Name.Pending.settle] at h

theorem mem_of_mem_piecesFrom {c : Char} {text : List Char} {pending : Name.Pending}
    (h : .plain c ∈ Name.piecesFrom pending text) : c ∈ text ∨ c = arityMark := by
  have hlater : ∀ {d : Char} {rest : List Char}, c ∈ rest ∨ c = arityMark →
      c ∈ d :: rest ∨ c = arityMark := fun hfound => hfound.imp_left (List.mem_cons_of_mem _)
  have hplain : ∀ {d : Char} {rest : List Char} {more : List Name.Piece},
      (.plain c ∈ more → c ∈ rest ∨ c = arityMark) → .plain c ∈ .plain d :: more →
        c ∈ d :: rest ∨ c = arityMark := by
    intro d rest more hmore hmem
    rcases List.mem_cons.mp hmem with hhere | hmem
    · exact Or.inl (by simp [Name.Piece.plain.inj hhere])
    · exact hlater (hmore hmem)
  fun_induction Name.piecesFrom pending text with
  | case1 pending => exact Or.inr (mem_settle h)
  | case2 d rest hmark ih => exact hlater (ih h)
  | case3 d rest hmark ih => exact hplain ih h
  | case4 d rest count hmark ih => exact hlater (ih h)
  | case5 d rest count hmark hdigit ih => exact hlater (ih h)
  | case6 d rest count hmark hdigit ih =>
      rcases List.mem_append.mp h with h | h
      · exact Or.inr (mem_settle h)
      · exact hplain ih h
  | case7 d rest reversed hdigit ih => exact hlater (ih h)
  | case8 d rest reversed hdigit hmark ih =>
      rcases List.mem_append.mp h with h | h
      · exact Or.inr (mem_settle h)
      · exact hlater (ih h)
  | case9 d rest reversed hdigit hmark ih =>
      rcases List.mem_append.mp h with h | h
      · exact Or.inr (mem_settle h)
      · exact hplain ih h

/-- Dropping arities adds nothing to a text. -/
theorem mem_stripPlaceholders {c : Char} {text : List Char} (h : c ∈ Name.stripPlaceholders text) :
    c ∈ text ∨ c = arityMark := by
  obtain ⟨piece, hpiece, hc⟩ := List.mem_flatMap.mp h
  cases piece with
  | plain d =>
      obtain rfl : c = d := List.mem_singleton.mp hc
      exact mem_of_mem_piecesFrom hpiece
  | placeholder digits => exact absurd hc List.not_mem_nil

theorem mem_fullChars {c : Char} {text : List Char} (h : c ∈ fullChars text) :
    c ∈ text ∨ c = arityMark ∨ c = '.' := by
  obtain ⟨d, hd, rfl⟩ := List.mem_map.mp h
  by_cases hslash : d = '/'
  · simp [hslash]
  · rw [if_neg hslash]
    rcases mem_stripPlaceholders hd with hmem | hmark
    · exact Or.inl hmem
    · exact Or.inr (Or.inl hmark)

namespace Name

/-! ### Entries -/

/-- The full form of the text counts for one argument wherever it stands in a list: the search for
the closing bracket runs over it, and the splitter keeps it whole. -/
structure IsEntry (text : List Char) : Prop where
  passes : Passes (fullChars text)
  kept : ∀ depth : Int, 0 ≤ depth → KeptAt depth (fullChars text)

theorem IsEntry.of_forall {text : List Char} (h : ∀ c ∈ text, c ∉ ['<', '>', ',']) :
    IsEntry text := by
  have hfull : ∀ c ∈ fullChars text, c ∉ ['<', '>', ','] := by
    intro c hc
    rcases mem_fullChars hc with hmem | rfl | rfl
    · exact h c hmem
    · decide
    · decide
  simp only [List.mem_cons, List.not_mem_nil, or_false, not_or] at hfull
  refine ⟨.of_forall fun c hc => ⟨(hfull c hc).1, (hfull c hc).2.1⟩, fun depth _ => ?_⟩
  exact .of_forall fun c hc => ⟨⟨(hfull c hc).1, (hfull c hc).2.1⟩, Or.inl (hfull c hc).2.2⟩

/-- The marks between and behind the names of a reference, angle brackets and commas apart. -/
def joints : List Char := ['/', '[', ']', '&', '*']

theorem fullChars_joint {c : Char} (hc : c ∈ joints) (before after : List Char) :
    ∃ d, (d = '.' ∨ d ∈ joints)
      ∧ fullChars (before ++ c :: after) = fullChars before ++ d :: fullChars after := by
  by_cases hslash : c = '/'
  · rw [hslash]
    exact ⟨'.', Or.inl rfl, fullChars_slash before after⟩
  · have hplain : ∀ c ∈ joints, isMark c = false ∧ isDecimalDigit c = false :=
      forall_mem_of_all (by decide)
    exact ⟨c, Or.inr hc, fullChars_separates (hplain c hc).1 (hplain c hc).2 hslash before after⟩

theorem IsEntry.joined {c : Char} (hc : c ∈ joints) {before after : List Char}
    (hbefore : IsEntry before) (hafter : IsEntry after) : IsEntry (before ++ c :: after) := by
  obtain ⟨d, hd, hfull⟩ := fullChars_joint hc before after
  have hother : (d ≠ '<' ∧ d ≠ '>') ∧ d ≠ ',' := by
    have hall : ∀ d ∈ '.' :: joints, (d ≠ '<' ∧ d ≠ '>') ∧ d ≠ ',' :=
      forall_mem_of_all (by decide)
    exact hall d (by simpa using hd)
  constructor
  · rw [hfull]
    exact hbefore.passes.append ((Passes.single hother.1).append hafter.passes)
  · intro depth hdepth
    rw [hfull]
    exact (hbefore.kept depth hdepth).append
      ((KeptAt.single hother.1 (Or.inl hother.2)).append (hafter.kept depth hdepth))

theorem KeptAt.join {depth : Int} (hdepth : depth ≠ 0) {parts : List String}
    (h : ∀ part ∈ parts, KeptAt depth part.toList) : KeptAt depth (Text.join "," parts).toList := by
  induction parts with
  | nil => exact .nil depth
  | cons part rest ih =>
      have hpart := h part List.mem_cons_self
      cases rest with
      | nil => exact hpart
      | cons next rest =>
          rw [Text.toList_join_cons]
          exact hpart.append ((KeptAt.single (c := ',') (by decide) (Or.inr hdepth)).append
            (ih fun other hother => h other (List.mem_cons_of_mem part hother)))

/-- Entries in brackets behind an entry make one entry. -/
theorem IsEntry.list {before : List Char} (hbefore : IsEntry before) {parts : List String}
    (hparts : ∀ part ∈ parts, IsEntry part.toList) :
    IsEntry (before ++ '<' :: ((Text.join "," parts).toList ++ ['>'])) := by
  have hopen := fullChars_separates (c := '<') (by decide) (by decide) (by decide)
  have hclose := fullChars_separates (c := '>') (by decide) (by decide) (by decide)
  have hfull : fullChars (before ++ '<' :: ((Text.join "," parts).toList ++ ['>']))
      = fullChars before ++ ('<' :: (Text.join "," (parts.map fun part =>
          String.ofList (fullChars part.toList))).toList ++ ['>']) := by
    rw [hopen, hclose, fullChars_join]
    simp [fullChars, stripPlaceholders, mangledPieces, piecesFrom, Pending.settle, dotNested]
  constructor
  · rw [hfull]
    refine hbefore.passes.append (Passes.wrap (Passes.join fun text htext => ?_))
    obtain ⟨part, hpart, rfl⟩ := List.mem_map.mp htext
    rw [String.toList_ofList]
    exact (hparts part hpart).passes
  · intro depth hdepth
    rw [hfull]
    refine (hbefore.kept depth hdepth).append (KeptAt.wrap (KeptAt.join (by omega) ?_))
    intro text htext
    obtain ⟨part, hpart, rfl⟩ := List.mem_map.mp htext
    rw [String.toList_ofList]
    exact (hparts part hpart).kept (depth + 1) (by omega)

theorem IsEntry.of_isInert {text : List Char} (h : ∀ c ∈ text, isInert c = true) :
    IsEntry text := by
  refine .of_forall fun c hc => ?_
  obtain ⟨⟨hopen, hclose⟩, hcomma, -⟩ := isInert_iff.mp (h c hc)
  simp [hopen, hclose, hcomma]

theorem IsEntry.append_list {before : List Char} (hbefore : IsEntry before) {parts : List String}
    (hparts : ∀ part ∈ parts, IsEntry part.toList) :
    IsEntry (before ++ (localized.list parts).toList) := by
  by_cases hnone : parts = []
  · simpa [hnone, Rendering.list] using hbefore
  · rw [TypeName.toList_localized_list hnone]
    exact hbefore.list hparts

/-- A path that is filled with entries is one. -/
theorem IsEntry.path {entries : List String} (h : ∀ entry ∈ entries, IsEntry entry.toList)
    {name : TypeName} {count : Nat} (hname : name.Takes count) :
    IsEntry (localized.path entries name).toList := by
  have hlabel : ∀ {name : String} {arity : Nat}, HasArity name arity → ∀ isFilled,
      ∀ c ∈ (localized.label isFilled name).toList, isInert c = true := by
    intro name arity hname isFilled
    unfold Rendering.label
    split
    · exact hname.isInert
    · exact fun c hc => isInert_of_isWordChar (hname.plain.chars c hc)
  induction hname with
  | @top spaces hspaces name arity hname scope =>
      rw [Rendering.path, String.toList_append]
      refine IsEntry.append_list (.of_isInert fun c hc => ?_) fun entry hentry =>
        h entry (List.mem_of_mem_take hentry)
      rcases mem_qualified hspaces hc with hpath | hmem
      · exact isInert_of_isPathChar hpath
      · exact hlabel hname _ c hmem
  | nested houter hname scope ih =>
      rw [Rendering.path, String.toList_append, String.toList_append, String.toList_append]
      refine IsEntry.append_list ?_ fun entry hentry =>
        h entry (List.mem_of_mem_drop (List.mem_of_mem_take hentry))
      rw [List.append_assoc]
      exact ih.joined (c := '/') (by decide) (.of_isInert (hlabel hname _))

/-! ### Pieces of arguments -/

/-- Localizing the text gives an entry. -/
def Settles (text : List Char) : Prop := ∃ entry, localizeOwn text = .ok entry ∧ IsEntry entry

/-- The text has no blanks, and it settles whatever marks come behind it. -/
structure Continues (text : List Char) : Prop where
  notBlank : ∀ c ∈ text, isBlank c = false
  settles : ∀ marks, (∀ c ∈ marks, c ∈ joints) → Settles (text ++ marks)

theorem Continues.self {text : List Char} (h : Continues text) : Settles text := by
  simpa using h.settles [] (by simp)

theorem Continues.snoc {text : List Char} (h : Continues text) {c : Char} (hc : c ∈ joints) :
    Continues (text ++ [c]) := by
  have hblank : ∀ c ∈ joints, isBlank c = false := forall_mem_of_all (by decide)
  constructor
  · intro d hd
    rcases List.mem_append.mp hd with hd | hd
    · exact h.notBlank d hd
    · rw [List.mem_singleton.mp hd]
      exact hblank c hc
  · intro marks hmarks
    rw [List.append_assoc]
    refine h.settles ([c] ++ marks) fun d hd => ?_
    rcases List.mem_cons.mp hd with rfl | hd
    · exact hc
    · exact hmarks d hd

theorem Continues.of_isInert {text : List Char} (h : ∀ c ∈ text, isInert c = true) :
    Continues text := by
  have hjoints : ∀ c ∈ joints, isInert c = true := forall_mem_of_all (by decide)
  refine ⟨fun c hc => (isInert_iff.mp (h c hc)).2.2, fun marks hmarks => ?_⟩
  have hall : ∀ c ∈ text ++ marks, isInert c = true := by
    intro c hc
    rcases List.mem_append.mp hc with hc | hc
    · exact h c hc
    · exact hjoints c (hmarks c hc)
  exact ⟨_, localizeOwn_of_absent (notMem_open_of_isInert hall), .of_isInert hall⟩

/-- The pieces that begin with such a text settle, if what comes behind its suffix does. -/
theorem settles_argumentsFrom {suffix rest : List Char}
    (hsuffix : ∀ c ∈ suffix, c = ',' ∨ c ∈ joints)
    (hrest : ∀ current, Continues current.reverse →
      ∀ piece ∈ argumentsFrom 0 current rest, Settles piece) {current : List Char}
    (hcurrent : Continues current.reverse) :
    ∀ piece ∈ argumentsFrom 0 current (suffix ++ rest), Settles piece := by
  have hnone : Continues ([] : List Char).reverse := .of_isInert (by simp)
  induction suffix generalizing current with
  | nil => exact hrest current hcurrent
  | cons c suffix ih =>
      have hlater := fun d hd => hsuffix d (List.mem_cons_of_mem c hd)
      rw [List.cons_append, argumentsFrom]
      by_cases hcomma : c = ','
      · rw [if_pos ⟨hcomma, rfl⟩]
        intro piece hpiece
        rcases List.mem_cons.mp hpiece with rfl | hpiece
        · rw [trim_of_forall hcurrent.notBlank]
          exact hcurrent.self
        · exact ih hlater hnone piece hpiece
      · have hjoint : c ∈ joints := (hsuffix c List.mem_cons_self).resolve_left hcomma
        have hother : ∀ c ∈ joints, c ≠ '<' ∧ c ≠ '>' := forall_mem_of_all (by decide)
        obtain ⟨hopen, hclose⟩ := hother c hjoint
        rw [if_neg fun hcut => hcomma hcut.1]
        simp only [if_neg hopen, if_neg hclose]
        refine ih hlater ?_
        rw [List.reverse_cons]
        exact hcurrent.snoc hjoint

end Name

namespace Signature

open Name

/-- The reference without the arrays, pointers and by-references around it. -/
def core : Signature → Signature
  | array element _ => element.core
  | byRef element => element.core
  | pointer element => element.core
  | sig => sig

theorem exists_rawName_eq (sig : Signature) :
    ∃ suffix : List Char, sig.rawName.toList = sig.core.rawName.toList ++ suffix
      ∧ ∀ c ∈ suffix, c = ',' ∨ c ∈ joints := by
  have hself : ∀ sig : Signature, sig.core = sig →
      ∃ suffix : List Char, sig.rawName.toList = sig.core.rawName.toList ++ suffix
        ∧ ∀ c ∈ suffix, c = ',' ∨ c ∈ joints := by
    intro sig hcore
    exact ⟨[], by rw [hcore, List.append_nil], by simp⟩
  induction sig using Signature.induction with
  | primitive kind => exact hself _ rfl
  | named name => exact hself _ rfl
  | instantiation base args ihbase ihargs => exact hself _ rfl
  | parameter owner index name => exact hself _ rfl
  | array element rank ih =>
      obtain ⟨suffix, hraw, hsuffix⟩ := ih
      refine ⟨suffix ++ '[' :: (List.replicate (rank - 1) ',' ++ [']']), ?_, ?_⟩
      · rw [toList_rawName_array, hraw, List.append_assoc]
        rfl
      · intro c hc
        simp only [List.mem_append, List.mem_cons, List.mem_replicate, List.not_mem_nil,
          or_false] at hc
        rcases hc with hc | rfl | ⟨-, rfl⟩ | rfl
        · exact hsuffix c hc
        · exact Or.inr (by decide)
        · exact Or.inl rfl
        · exact Or.inr (by decide)
  | byRef element ih =>
      obtain ⟨suffix, hraw, hsuffix⟩ := ih
      refine ⟨suffix ++ ['&'], by rw [toList_rawName_byRef, hraw, List.append_assoc]; rfl, ?_⟩
      intro c hc
      rcases List.mem_append.mp hc with hc | hc
      · exact hsuffix c hc
      · exact Or.inr (by rw [List.mem_singleton.mp hc]; decide)
  | pointer element ih =>
      obtain ⟨suffix, hraw, hsuffix⟩ := ih
      refine ⟨suffix ++ ['*'], by rw [toList_rawName_pointer, hraw, List.append_assoc]; rfl, ?_⟩
      intro c hc
      rcases List.mem_append.mp hc with hc | hc
      · exact hsuffix c hc
      · exact Or.inr (by rw [List.mem_singleton.mp hc]; decide)

theorem Formed.core {sig : Signature} (h : sig.Formed) :
    sig.core.Formed ∧ sig.core.outerRanks = [] := by
  induction h with
  | primitive kind => exact ⟨.primitive kind, rfl⟩
  | named hname => exact ⟨.named hname, rfl⟩
  | instantiation hname hsize hargs ih => exact ⟨.instantiation hname hsize hargs, rfl⟩
  | array h rank ih => exact ih
  | byRef h ih => exact ih
  | pointer h ih => exact ih
  | parameter owner index hname => exact ⟨.parameter owner index hname, rfl⟩

/-- What the splitter makes of the arguments of a list settles. -/
theorem settles_arguments {args : List Signature} (hne : args ≠ []) (h : ∀ arg ∈ args, arg.Formed)
    (hcore : ∀ arg ∈ args, Continues arg.core.rawName.toList) :
    ∀ piece ∈ Name.arguments (join "," (args.map rawName)).toList, Settles piece := by
  have hone : ∀ arg : Signature, arg.Formed → Continues arg.core.rawName.toList →
      ∀ rest : List Char, (∀ current, Continues current.reverse →
        ∀ piece ∈ argumentsFrom 0 current rest, Settles piece) →
      ∀ piece ∈ argumentsFrom 0 [] (arg.rawName.toList ++ rest), Settles piece := by
    intro arg hformed hcontinues rest hrest
    obtain ⟨suffix, hraw, hsuffix⟩ := arg.exists_rawName_eq
    obtain ⟨hcoreFormed, hranks⟩ := hformed.core
    have hkept := hcoreFormed.inert.keptAt_zero (by simp [hranks])
    rw [hraw, List.append_assoc, hkept, List.append_nil]
    exact settles_argumentsFrom hsuffix hrest (by rwa [List.reverse_reverse])
  have hlast : ∀ {current : List Char}, Continues current.reverse →
      Settles (trim current.reverse) := by
    intro current hcurrent
    rw [trim_of_forall hcurrent.notBlank]
    exact hcurrent.self
  unfold Name.arguments
  induction args with
  | nil => exact absurd rfl hne
  | cons arg rest ih =>
      have harg := hone arg (h arg List.mem_cons_self) (hcore arg List.mem_cons_self)
      cases rest with
      | nil =>
          have hend := harg [] fun current hcurrent piece hpiece => by
            rw [List.mem_singleton.mp hpiece]
            exact hlast hcurrent
          rwa [List.append_nil] at hend
      | cons next rest =>
          have hrest := ih (List.cons_ne_nil next rest)
            (fun other hother => h other (List.mem_cons_of_mem arg hother))
            (fun other hother => hcore other (List.mem_cons_of_mem arg hother))
          rw [List.map_cons, List.map_cons, toList_join_cons]
          refine harg _ fun current hcurrent piece hpiece => ?_
          have hcut : argumentsFrom 0 current (",".toList
              ++ (join "," (next.rawName :: rest.map rawName)).toList)
              = trim current.reverse
                :: argumentsFrom 0 [] (join "," (next.rawName :: rest.map rawName)).toList :=
            if_pos ⟨rfl, rfl⟩
          rw [hcut] at hpiece
          rcases List.mem_cons.mp hpiece with rfl | hpiece
          · exact hlast hcurrent
          · exact hrest piece hpiece

theorem exists_mapM_eq_ok {pieces : List (List Char)} (h : ∀ piece ∈ pieces, Settles piece) :
    ∃ entries : List String, pieces.mapM localizeOwn = .ok (entries.map String.toList)
      ∧ entries.length = pieces.length ∧ ∀ entry ∈ entries, IsEntry entry.toList := by
  induction pieces with
  | nil => exact ⟨[], rfl, rfl, by simp⟩
  | cons piece rest ih =>
      obtain ⟨first, hfirst, hentry⟩ := h piece List.mem_cons_self
      obtain ⟨entries, hmap, hlength, hentries⟩ :=
        ih fun other hother => h other (List.mem_cons_of_mem piece hother)
      refine ⟨String.ofList first :: entries, ?_, by simp [hlength], ?_⟩
      · rw [mapM_cons_of_ok hfirst, hmap]
        simp [Except.map]
      · intro entry hmem
        rcases List.mem_cons.mp hmem with rfl | hmem
        · rwa [String.toList_ofList]
        · exact hentries entry hmem

/-- An instantiation is localized with entries, of which there are as many as it has arguments or
more. -/
theorem exists_entries {name : TypeName} {args : List Signature} (hne : args ≠ [])
    (h : (instantiation (named name) args).Formed)
    (hcore : ∀ arg ∈ args, Continues arg.core.rawName.toList) :
    ∃ entries : List String, (∀ entry ∈ entries, IsEntry entry.toList)
      ∧ args.length ≤ entries.length
      ∧ ∀ tail, localizeOwn ((instantiation (named name) args).rawName.toList ++ tail)
        = .ok ((localized.path entries name).toList ++ tail) := by
  cases h with
  | instantiation hname hsize hargs =>
      have hinert := (Formed.instantiation hname hsize hargs).inert
      obtain ⟨entries, hmap, hlength, hentries⟩ :=
        exists_mapM_eq_ok (settles_arguments hne hargs hcore)
      have hmany := length_arguments_args hne (inert_instantiation.mp hinert).2
      have hfill := hname.counts.fill entries (by omega) hsize
      have hused : args.length ≠ 0 := by simpa using hne
      refine ⟨entries, hentries, by omega, fun tail => ?_⟩
      rw [localizeOwn_of_found (firstList_rawName hinert tail) hmap hfill]
      simp [hused]

/-- **Whatever is cut out of an argument settles.** -/
theorem Formed.continues {sig : Signature} (h : sig.Formed) :
    Continues sig.core.rawName.toList := by
  induction h with
  | primitive kind => exact .of_isInert (isInert_primitive kind)
  | named hname => exact .of_isInert hname.isInert
  | parameter owner index hname =>
      exact .of_isInert fun c hc => isInert_of_isWordChar (hname.chars c hc)
  | array h rank ih => exact ih
  | byRef h ih => exact ih
  | pointer h ih => exact ih
  | @instantiation name args hname hsize hargs ih =>
      have hformed := Formed.instantiation hname hsize hargs
      refine ⟨hformed.inert.notBlank, fun marks hmarks => ?_⟩
      have hjoints : ∀ c ∈ joints, isInert c = true := forall_mem_of_all (by decide)
      have hentry : ∀ {text : List Char}, IsEntry text → IsEntry (text ++ marks) := by
        intro text htext
        cases marks with
        | nil => simpa using htext
        | cons c marks =>
            refine htext.joined (hmarks c List.mem_cons_self) (.of_isInert fun d hd => ?_)
            exact hjoints d (hmarks d (List.mem_cons_of_mem c hd))
      by_cases hempty : args = []
      · have hhollow := localizeOwn_hollow hname.counts hsize hformed.inert hempty marks
        refine ⟨_, hhollow, hentry ?_⟩
        have hnone : ∀ part ∈ ([] : List String), IsEntry part.toList := by simp
        rw [toList_render_localized, hempty]
        exact (IsEntry.path hnone hname).list hnone
      · obtain ⟨entries, hentries, -, hlocalized⟩ := exists_entries hempty hformed ih
        exact ⟨_, hlocalized marks, hentry (.path hentries hname)⟩

end Signature

/-! ### The two mangled names -/

namespace Name

theorem unlocalizeChars_list {head inside tail : List Char} (hhead : '<' ∉ head)
    (hinside : Passes inside) (htail : tail.head? ≠ some '/') :
    unlocalizeChars (head ++ '<' :: (inside ++ '>' :: tail))
      = head ++ arityMark :: Nat.toDigits 10 (arguments inside).length := by
  have hlist : firstList (head ++ '<' :: (inside ++ '>' :: tail))
      = .found ⟨head, inside, tail⟩ := by
    rw [firstList, cutFirst_append hhead]
    simp only [closing_of_passes hinside]
  rw [unlocalizeChars_eq]
  simp only [hlist]
  rw [if_neg htail, List.append_nil]

theorem slash_notMem_fullChars (text : List Char) : '/' ∉ fullChars text := by
  intro hmem
  obtain ⟨c, -, hc⟩ := List.mem_map.mp hmem
  by_cases hslash : c = '/'
  · simp [hslash] at hc
  · rw [if_neg hslash] at hc
    exact hslash hc

/-- Counting back from the full form of a path that is filled with entries gives the leading
type. -/
theorem unlocalizeChars_fullChars_path {entries : List String}
    (hentries : ∀ entry ∈ entries, IsEntry entry.toList) {name : TypeName} {count : Nat}
    (hname : name.Takes count) (hpos : 0 < count) (hsize : count < sizeLimit)
    (hmany : count ≤ entries.length) :
    unlocalizeChars (fullChars (localized.path entries name).toList)
      = name.leading.dottedName.toList := by
  obtain ⟨rest, hpath⟩ := hname.exists_path hpos hsize entries hmany
  obtain ⟨own, hleading⟩ := hname.leading
  obtain ⟨harity, hless⟩ := hname.arityOf_leading hpos hsize
  have hplain : fullChars (slashed.path [] name.leading).toList
      = dotNested (slashed.path [] name.leading).toList := by
    rw [fullChars, stripPlaceholders_of_notMem
      (hleading.notMem_slashed (by decide) (by decide) (by decide))]
  have hopen : '<' ∉ fullChars (slashed.path [] name.leading).toList := by
    intro hmem
    rcases mem_fullChars hmem with hmem | hmark | hdot
    · exact hleading.notMem_slashed (by decide) (by decide) (by decide) hmem
    · exact absurd hmark (by decide)
    · exact absurd hdot (by decide)
  -- the list of the leading type in its full form
  let parts : List String := (entries.take (arityOf name.leading.name)).map fun part =>
    String.ofList (fullChars part.toList)
  have hparts : ∀ part ∈ parts, Passes part.toList ∧ KeptAt 0 part.toList := by
    intro text htext
    obtain ⟨part, hpart, rfl⟩ := List.mem_map.mp htext
    have hentry := hentries part (List.mem_of_mem_take hpart)
    rw [String.toList_ofList]
    exact ⟨hentry.passes, hentry.kept 0 (Int.le_refl 0)⟩
  have hlength : parts.length = arityOf name.leading.name := by
    rw [List.length_map, List.length_take]
    omega
  have hcount : (arguments (Text.join "," parts).toList).length = arityOf name.leading.name := by
    have hne : parts ≠ [] := by
      intro hnil
      rw [hnil, List.length_nil] at hlength
      omega
    rw [length_arguments_of_keptAt hne fun part hpart => (hparts part hpart).2, hlength]
  have htail : (fullChars rest).head? ≠ some '/' := by
    intro hhead
    exact slash_notMem_fullChars rest (List.mem_of_mem_head? hhead)
  have hslash : '/' ∉ arityMark :: (naturalText (arityOf name.leading.name)).toList := by
    intro hmem
    rcases List.mem_cons.mp hmem with hmark | hdigit
    · exact absurd hmark (by decide)
    · exact mem_naturalText hdigit (by decide)
  rw [hpath, fullChars_separates (by decide) (by decide) (by decide),
    fullChars_separates (by decide) (by decide) (by decide), fullChars_join,
    unlocalizeChars_list hopen (.join fun part hpart => (hparts part hpart).1) htail, hcount,
    TypeName.dottedName, swap_eq_dotNested, String.toList_ofList,
    hname.fullName_leading hpos hsize, dotNested_append, hplain, dotNested_of_notMem hslash,
    naturalText, String.toList_ofList]

end Name

section Names

variable {name : TypeName} {count : Nat} (h : name.Takes count)

include h

theorem TypeName.Takes.notMem_fullName {c : Char} (hc : Name.isWordChar c = false)
    (hother : c ∉ ['.', '/', arityMark]) : c ∉ name.fullName.toList := by
  simp only [List.mem_cons, List.not_mem_nil, or_false, not_or] at hother
  obtain ⟨hdot, hslash, hmark⟩ := hother
  have hsegment : ∀ {name : String} {arity : Nat}, HasArity name arity → c ∉ name.toList := by
    intro name arity hname
    cases hname with
    | bare hplain => exact hplain.notMem hc
    | marked hplain hpos =>
        rw [toList_marked, List.mem_append, List.mem_cons, not_or, not_or]
        refine ⟨hplain.notMem hc, hmark, fun hmem => ?_⟩
        rw [naturalText, String.toList_ofList] at hmem
        have hdigit := Nat.isDigit_of_mem_toDigits (by decide) (by decide) hmem
        simp [Name.isWordChar, Char.isAlphanum, hdigit] at hc
  induction h with
  | top hspaces hname scope =>
      intro hmem
      rcases mem_qualified hspaces hmem with hpath | hmem
      · simp [isPathChar, hc, hdot] at hpath
      · exact hsegment hname hmem
  | nested houter hname scope ih =>
      intro hmem
      rw [TypeName.toList_fullName_nested, List.mem_append, List.mem_cons] at hmem
      rcases hmem with hmem | hmem | hmem
      · exact ih hmem
      · exact hslash hmem
      · exact hsegment hname hmem

/-- A reference that is cut at its list has the dotted name of its type. -/
theorem mangled_instantiation (args : List Signature) :
    Name.mangled (Signature.instantiation (.named name) args).rawName = name.dottedName := by
  refine Signature.mangled_rawName fun c hc hmark => ?_
  have hall : ∀ c ∈ Name.endMarks, Name.isWordChar c = false ∧ c ∉ ['.', '/', arityMark] :=
    forall_mem_of_all (by decide)
  exact h.notMem_fullName (hall c hmark).1 (hall c hmark).2 hc

end Names

theorem toList_shownFullName {sig : Signature} (hsig : sig.stripByRef = sig) {text : List Char}
    (h : Name.localizeOwn sig.rawName.toList = .ok text) :
    sig.shownFullName.toList = fullChars text := by
  have hlocalized : Name.localizedOr sig.rawName [] = String.ofList text := by
    rw [localizedOr_nil, h]
  rw [Signature.shownFullName, Signature.localizedName, hsig, hlocalized, swap_eq_dotNested,
    Name.stripArity, String.toList_ofList, String.toList_ofList, String.toList_ofList]
  rfl

theorem TypeName.length_leading_le (name : TypeName) :
    name.leading.fullName.toList.length ≤ name.fullName.toList.length := by
  induction name with
  | top space name scope => rw [leading_top]
  | nested outer name scope ih =>
      by_cases hzero : outer.totalArity = 0
      · rw [leading_nested_of_eq_zero hzero]
      · rw [leading_nested_of_ne_zero hzero, fullName, String.toList_append, String.toList_append,
          List.length_append, List.length_append]
        omega

/-- A type leads its name only if nothing around it takes arguments: a type around it has a shorter
name. -/
theorem TypeName.dottedName_leading_eq_iff (name : TypeName) :
    name.leading.dottedName = name.dottedName ↔ ∀ outer ∈ name.outer?, outer.totalArity = 0 := by
  constructor
  · intro hsame outer houter
    by_contra hzero
    cases name with
    | top space name scope => exact absurd houter (by simp [outer?])
    | nested inner name scope =>
        obtain rfl : inner = outer := Option.some.inj houter
        have hlength := congrArg (fun text => text.toList.length) hsame
        have hless := inner.length_leading_le
        rw [leading_nested_of_ne_zero hzero] at hlength
        simp only [dottedName, swap, String.toList_ofList, List.length_map, fullName,
          String.toList_append, List.length_append] at hlength
        simp at hlength
        omega
  · intro houter
    rw [leading_eq_self houter]

section Instantiation

variable {name : TypeName} {args : List Signature}

/-- The empty list of an instantiation without arguments counts for one. -/
theorem unlocalize_hollow (hname : name.Takes args.length) (hempty : args = []) :
    Name.unlocalize (Signature.instantiation (.named name) args).shownFullName
      = name.dottedName ++ "`1" := by
  subst hempty
  have hsize : ([] : List Signature).length < sizeLimit := by decide
  have hinert := (Signature.Formed.instantiation hname hsize (by simp)).inert
  have hlocalized := localizeOwn_hollow hname.counts hsize hinert rfl []
  rw [List.append_nil, List.append_nil, toList_render_localized] at hlocalized
  have hmark : arityMark ∉ name.fullName.toList := by
    rw [hname.fullName_of_eq_zero rfl]
    exact hname.notMem_slashed (by decide) (by decide) (by decide)
  have hfull : fullChars name.fullName.toList = name.dottedName.toList := by
    rw [fullChars, stripPlaceholders_of_notMem hmark, TypeName.dottedName, swap_eq_dotNested,
      String.toList_ofList]
  have hopen : '<' ∉ name.dottedName.toList := by
    rw [← hfull]
    intro hmem
    rcases mem_fullChars hmem with hmem | hmark | hdot
    · exact hname.notMem_fullName (by decide) (by decide) hmem
    · exact absurd hmark (by decide)
    · exact absurd hdot (by decide)
  have hlist : fullChars (name.fullName.toList ++ ['<', '>'])
      = name.dottedName.toList ++ '<' :: ([] ++ '>' :: []) := by
    rw [fullChars_separates (by decide) (by decide) (by decide), hfull]
    rfl
  rw [Name.unlocalize, toList_shownFullName rfl hlocalized, List.map_nil, localized_path_nil]
  refine (congrArg (fun text => String.ofList (Name.unlocalizeChars text)) hlist).trans ?_
  rw [Name.unlocalizeChars_list hopen .nil (by simp), String.ofList_append, String.ofList_toList]
  rfl

theorem unlocalize_filled (hne : args ≠ [])
    (h : (Signature.instantiation (.named name) args).Formed) :
    Name.unlocalize (Signature.instantiation (.named name) args).shownFullName
      = name.leading.dottedName := by
  cases h with
  | instantiation hname hsize hargs =>
      have hformed := Signature.Formed.instantiation hname hsize hargs
      obtain ⟨entries, hentries, hmany, hlocalized⟩ :=
        Signature.exists_entries hne hformed fun arg harg => (hargs arg harg).continues
      have hown := hlocalized []
      rw [List.append_nil, List.append_nil] at hown
      rw [Name.unlocalize, toList_shownFullName rfl hown,
        Name.unlocalizeChars_fullChars_path hentries hname (List.length_pos_of_ne_nil hne) hsize
          hmany,
        String.ofList_toList]

end Instantiation

/--
**The two mangled names of an instantiation agree unless a type around it takes arguments.**  As a
reference it has the dotted name of its type.  As an argument it has that of the leading type, or,
if it has no arguments, the dotted name of its type with an arity of one.  So the two are the same
exactly if there are arguments and nothing around the type takes any of them.
-/
theorem argument_mangledName_eq_iff (name : TypeName) (args : List Signature)
    (h : (Signature.instantiation (.named name) args).Formed) :
    let sig := Signature.instantiation (.named name) args
    (ShownType.of sig).mangledName = name.dottedName
      ∧ (ShownArgument.of sig).mangledName
        = (if args = [] then name.dottedName ++ "`1" else name.leading.dottedName)
      ∧ ((ShownArgument.of sig).mangledName = (ShownType.of sig).mangledName ↔
        args ≠ [] ∧ ∀ outer ∈ name.outer?, outer.totalArity = 0) := by
  intro sig
  cases h with
  | instantiation hname hsize hargs =>
      have hformed : sig.Formed := .instantiation hname hsize hargs
      have hreference : (ShownType.of sig).mangledName = name.dottedName :=
        mangled_instantiation hname args
      have hargument : (ShownArgument.of sig).mangledName
          = if args = [] then name.dottedName ++ "`1" else name.leading.dottedName := by
        show Name.unlocalize sig.shownFullName = _
        by_cases hempty : args = []
        · rw [if_pos hempty]
          exact unlocalize_hollow hname hempty
        · rw [if_neg hempty]
          exact unlocalize_filled hempty hformed
      refine ⟨hreference, hargument, ?_⟩
      rw [hreference, hargument]
      by_cases hempty : args = []
      · simp [hempty]
      · simp only [hempty, if_false, ne_eq, not_false_eq_true, true_and]
        exact name.dottedName_leading_eq_iff

/-- As an argument, `Outer<int>.Inner<string[,]>` has the mangled name of `Outer`. -/
theorem argument_mangledName_of_inner :
    let inner := TypeName.nested (.top "Game" "Outer`1" none) "Inner`1" none
    let sig := Signature.instantiation (.named inner)
      [.primitive .int32, .array (.primitive .string) 2]
    (ShownType.of sig).mangledName = "Game.Outer`1.Inner`1"
      ∧ (ShownArgument.of sig).mangledName = "Game.Outer`1" := by
  intro inner sig
  have houter : (TypeName.top (join "." ["Game"]) ("Outer" ++ "`" ++ naturalText 1) none).Takes 1 :=
    .top (by decide) (.marked (by decide) Nat.one_pos) none
  have hinner : inner.Takes 2 :=
    .nested houter (HasArity.marked (show IsIdentifier "Inner" by decide) Nat.one_pos) none
  have hformed : sig.Formed := by
    refine .instantiation hinner (by decide) fun arg harg => ?_
    rcases List.mem_pair.mp harg with rfl | rfl
    · exact .primitive .int32
    · exact .array (.primitive .string) 2
  obtain ⟨hreference, hargument, -⟩ := argument_mangledName_eq_iff inner _ hformed
  exact ⟨hreference.trans (by decide), hargument.trans (by decide)⟩

end ApiSurface
