/-
Names as they are written inside identifiers.

An identifier writes a name as a path: the namespace and the segments of the type,
outermost first, with dots between them and the arguments handed out to the
segments that take them.  This file shows that a path can be read back: from its
text, `instantiated_inj` recovers the dotted name and the texts of all arguments.

Not all of the name comes back.  A namespace and an enclosing type look the same
in a path, so names with the same dotted form are written alike;
`instantiated_congr` says so for names that take the same number of arguments.
-/
import ApiSurface.DocId
import ApiSurface.Proofs.Segment

namespace ApiSurface

open Text

/-! ### Paths -/

/-- The text of a path: its segments with dots between them. -/
def pathText (path : List Segment) : String := join "." (path.map Segment.text)

/-- The name of a path, arities in the place of arguments. -/
def pathName (path : List Segment) : String := join "." (path.map Segment.name)

theorem pathText_isReference {path : List Segment} (hne : path ≠ [])
    (h : ∀ s ∈ path, s.Fits) : IsReference (pathText path) := by
  have hparts : ∀ part ∈ path.map Segment.text, ∃ s ∈ path, s.text = part :=
    fun part hpart => List.mem_map.mp hpart
  refine ⟨?_, ?_, ?_⟩
  · refine join_ne_empty (by simpa using hne) fun part hpart => ?_
    obtain ⟨s, hs, rfl⟩ := hparts part hpart
    exact (h s hs).named.nonempty
  · refine enclosed_join (.of_plain (forall_mem_of_all (by decide))) fun part hpart => ?_
    obtain ⟨s, hs, rfl⟩ := hparts part hpart
    exact (h s hs).enclosed.mono (by simp)
  · intro c hc hreserved
    rcases mem_toList_join hc with hdot | ⟨part, hpart, hmem⟩
    · rw [List.mem_singleton.mp hdot] at hreserved
      exact absurd hreserved (by decide)
    · obtain ⟨s, hs, rfl⟩ := hparts part hpart
      exact (h s hs).free c hmem hreserved

theorem pathText_isNamed {path : List Segment} (hne : path ≠ []) (h : ∀ s ∈ path, s.Fits) :
    IsNamed (pathText path) := by
  induction path with
  | nil => exact absurd rfl hne
  | cons s rest ih =>
      have hs := (h s List.mem_cons_self).named
      cases rest with
      | nil => exact hs
      | cons next rest =>
          have hrest := ih (List.cons_ne_nil next rest) fun t ht =>
            h t (List.mem_cons_of_mem s ht)
          have hlist : (pathText (s :: next :: rest)).toList
              = s.text.toList ++ ('.' :: (pathText (next :: rest)).toList) :=
            toList_join_cons "." s.text next.text (rest.map Segment.text)
          refine ⟨?_, ?_, ?_⟩
          · rw [hlist, List.head?_append_of_ne_nil _ hs.toList_ne_nil]
            exact hs.head
          · rw [hlist, List.getLast?_append_of_ne_nil _ (List.cons_ne_nil _ _),
              List.getLast?_cons_of_ne_nil hrest.toList_ne_nil]
            exact hrest.last
          · intro hempty
            rw [← String.toList_eq_nil_iff, hlist, List.append_eq_nil_iff] at hempty
            exact hs.toList_ne_nil hempty.1

/-- **A path can be read back from its text.** -/
theorem pathText_inj {p q : List Segment} (hp : ∀ s ∈ p, s.Fits) (hq : ∀ s ∈ q, s.Fits)
    (heq : pathText p = pathText q) : p = q := by
  have hpieces : ∀ {path : List Segment}, (∀ s ∈ path, s.Fits) →
      ∀ part ∈ path.map Segment.text, Enclosed ['.', ','] part.toList ∧ part ≠ "" := by
    intro path h part hpart
    obtain ⟨s, hs, rfl⟩ := List.mem_map.mp hpart
    exact ⟨(h s hs).enclosed, (h s hs).named.nonempty⟩
  have htexts : p.map Segment.text = q.map Segment.text :=
    join_inj (c := '.') (by decide) rfl (hpieces hp) (hpieces hq) heq
  clear heq hpieces
  induction p generalizing q with
  | nil => exact (List.map_eq_nil_iff.mp htexts.symm).symm
  | cons s p ih =>
      cases q with
      | nil => exact absurd htexts (by simp)
      | cons t q =>
          obtain ⟨htext, hrest⟩ := List.cons.inj htexts
          rw [(hp s List.mem_cons_self).text_inj (hq t List.mem_cons_self) htext,
            ih (fun s' hs' => hp s' (List.mem_cons_of_mem s hs'))
              (fun t' ht' => hq t' (List.mem_cons_of_mem t ht')) hrest]

/-! ### Arguments along a name -/

/-- The sum of some counts. -/
def total (counts : List Nat) : Nat := counts.foldr (· + ·) 0

@[simp] theorem total_cons (n : Nat) (counts : List Nat) : total (n :: counts) = n + total counts :=
  rfl

@[simp] theorem total_append (as bs : List Nat) : total (as ++ bs) = total as + total bs := by
  induction as with
  | nil => exact (Nat.zero_add (total bs)).symm
  | cons n as ih => rw [List.cons_append, total_cons, total_cons, ih, Nat.add_assoc]

theorem total_eq_zero_iff {counts : List Nat} : total counts = 0 ↔ ∀ n ∈ counts, n = 0 := by
  induction counts with
  | nil => exact ⟨fun _ n hn => absurd hn List.not_mem_nil, fun _ => rfl⟩
  | cons n counts ih => rw [total_cons, Nat.add_eq_zero_iff, ih, List.forall_mem_cons]

/-- How many arguments a segment takes. -/
def arityOf (name : String) : Nat := (TypeName.top "" name none).ownArity

/-- A segment without arguments. -/
def bare (name : String) : Segment := ⟨name, []⟩

/-- Gives each segment, outermost first, as many of the arguments as it takes. -/
def spread (refs : List String) : List String → List Segment
  | [] => []
  | name :: inner =>
    ⟨name, refs.take (arityOf name)⟩ :: spread (refs.drop (arityOf name)) inner

theorem distribute_eq_spread (refs : List String) (chain : List TypeName) :
    DocId.distribute refs chain = (spread refs (chain.map TypeName.name)).map Segment.text := by
  induction chain generalizing refs with
  | nil => rfl
  | cons t inner ih =>
      have htake : refs.take (min t.ownArity refs.length) = refs.take t.ownArity :=
        List.take_eq_take_min.symm
      have hdrop : refs.drop (min t.ownArity refs.length) = refs.drop t.ownArity :=
        List.drop_eq_drop_min.symm
      have htext : (if min t.ownArity refs.length = 0 then t.name
          else t.plainName ++ "\x7b" ++ join "," (refs.take t.ownArity) ++ "\x7d")
          = Segment.text ⟨t.name, refs.take (arityOf t.name)⟩ := by
        have hempty : (min t.ownArity refs.length = 0) ↔ refs.take (arityOf t.name) = [] := by
          rw [List.take_eq_nil_iff, Nat.min_eq_zero_iff, ← List.length_eq_zero_iff]
          rfl
        by_cases hnone : refs.take (arityOf t.name) = []
        · rw [if_pos (hempty.mpr hnone), Segment.text_of_bare hnone]
        · rw [if_neg (fun hzero => hnone (hempty.mp hzero)), Segment.text,
            if_neg (by simpa using hnone)]
          rfl
      rw [DocId.distribute, List.map_cons, spread, List.map_cons, htake, hdrop, ih]
      exact congrArg (· :: _) htext

theorem spread_map_name (refs names : List String) :
    (spread refs names).map Segment.name = names := by
  induction names generalizing refs with
  | nil => rfl
  | cons name inner ih => rw [spread, List.map_cons, ih]

theorem spread_ne_nil (refs : List String) {names : List String} (h : names ≠ []) :
    spread refs names ≠ [] := by
  cases names with
  | nil => exact absurd rfl h
  | cons name inner => exact List.cons_ne_nil _ _

/-- With as many arguments as the segments take, none is left over. -/
theorem spread_flatMap_args {refs names : List String}
    (h : refs.length = total (names.map arityOf)) :
    (spread refs names).flatMap Segment.args = refs := by
  induction names generalizing refs with
  | nil => exact (List.eq_nil_of_length_eq_zero h).symm
  | cons name inner ih =>
      rw [List.map_cons, total_cons] at h
      rw [spread, List.flatMap_cons, ih (by rw [List.length_drop]; omega), List.take_append_drop]

theorem spread_nil (names : List String) : spread [] names = names.map bare := by
  induction names with
  | nil => rfl
  | cons name inner ih => rw [spread, List.take_nil, List.drop_nil, ih]; rfl

theorem bare_fits {name : String} (h : IsSegment name) : (bare name).Fits :=
  ⟨h, fun hne => absurd rfl hne, fun _ harg => absurd harg List.not_mem_nil⟩

theorem spread_fits {refs names : List String} (hnames : ∀ name ∈ names, IsSegment name)
    (hrefs : ∀ ref ∈ refs, IsReference ref) (h : refs.length = total (names.map arityOf)) :
    ∀ s ∈ spread refs names, s.Fits := by
  induction names generalizing refs with
  | nil => intro s hs; exact absurd hs List.not_mem_nil
  | cons name inner ih =>
      rw [List.map_cons, total_cons] at h
      intro s hs
      rcases List.mem_cons.mp hs with rfl | hmem
      · refine ⟨hnames name List.mem_cons_self, fun _ => ?_, fun arg harg => ?_⟩
        · show (refs.take (arityOf name)).length = arityOf name
          rw [List.length_take]
          omega
        · exact hrefs arg (List.mem_of_mem_take harg)
      · exact ih (fun n hn => hnames n (List.mem_cons_of_mem name hn))
          (fun ref href => hrefs ref (List.mem_of_mem_drop href))
          (by rw [List.length_drop]; omega) s hmem

/-- Segments that take nothing are written bare, so it does not matter where a namespace ends. -/
theorem spread_append_of_total_eq_zero {refs extra names : List String}
    (h : total (extra.map arityOf) = 0) :
    spread refs (extra ++ names) = extra.map bare ++ spread refs names := by
  induction extra with
  | nil => rfl
  | cons name extra ih =>
      rw [List.map_cons, total_cons] at h
      have hname : arityOf name = 0 := by omega
      rw [List.cons_append, spread, hname, List.take_zero, List.drop_zero, ih (by omega)]
      rfl

/-! ### Names -/

/-- Every segment of the namespace and of the name is one. -/
inductive TypeName.WellFormed : TypeName → Prop
  | top {spaces : List String} (hspaces : ∀ space ∈ spaces, IsSegment space) {name : String}
      (hname : IsSegment name) (scope : Option String) :
      WellFormed (.top (join "." spaces) name scope)
  | nested {outer : TypeName} (houter : outer.WellFormed) {name : String}
      (hname : IsSegment name) (scope : Option String) : WellFormed (.nested outer name scope)

namespace TypeName

/-- How many arguments the name takes, over all of its segments. -/
def totalArity (name : TypeName) : Nat := total (name.chain.map ownArity)

/-- The names of the segments, outermost first. -/
def segments (name : TypeName) : List String := name.chain.map TypeName.name

theorem totalArity_eq (name : TypeName) : name.totalArity = total (name.segments.map arityOf) := by
  rw [totalArity, segments, List.map_map]
  rfl

theorem segments_ne_nil (name : TypeName) : name.segments ≠ [] := by
  cases name <;> simp [segments, chain]

theorem WellFormed.segments {name : TypeName} (h : name.WellFormed) :
    ∀ segment ∈ name.segments, IsSegment segment := by
  induction h with
  | top hspaces hname scope =>
      intro segment hsegment
      rw [List.mem_singleton.mp hsegment]
      exact hname
  | nested houter hname scope ih =>
      intro segment hsegment
      rw [TypeName.segments, chain, List.map_append, List.mem_append] at hsegment
      rcases hsegment with hmem | hmem
      · exact ih segment hmem
      · rw [List.mem_singleton.mp hmem]
        exact hname

end TypeName

theorem swap_append (old new : Char) (a b : String) :
    swap old new (a ++ b) = swap old new a ++ swap old new b := by
  rw [swap, String.toList_append, List.map_append, String.ofList_append]
  rfl

theorem swap_of_notMem {old new : Char} {text : String} (h : old ∉ text.toList) :
    swap old new text = text := by
  have hsame : text.toList.map (fun c => if c = old then new else c) = text.toList := by
    conv_rhs => rw [← List.map_id text.toList]
    refine List.map_congr_left fun c hc => if_neg ?_
    rintro rfl
    exact h hc
  rw [swap, hsame, String.ofList_toList]

theorem IsSegment.swap {segment : String} (h : IsSegment segment) :
    Text.swap '/' '.' segment = segment :=
  swap_of_notMem (h.notMem (by decide) (by decide))

/-- A name is written as its namespace and its segments, with dots between all of them. -/
theorem TypeName.WellFormed.exists_spaces {name : TypeName} (h : name.WellFormed) :
    ∃ spaces : List String, (∀ space ∈ spaces, IsSegment space) ∧
      name.rootSpace = join "." spaces ∧
      name.dottedName = join "." (spaces ++ name.segments) := by
  induction h with
  | @top spaces hspaces name hname scope =>
      refine ⟨spaces, hspaces, rfl, ?_⟩
      have hpath : (if (join "." spaces).isEmpty then name else join "." spaces ++ "." ++ name)
          = join "." (spaces ++ [name]) := by
        by_cases hnil : spaces = []
        · rw [hnil]
          rfl
        · have hne : join "." spaces ≠ "" :=
            join_ne_empty hnil fun space hspace => (hspaces space hspace).ne_empty
          rw [if_neg (by simpa using hne), join_append hnil (List.cons_ne_nil _ _)]
          rfl
      show Text.swap '/' '.' (if (join "." spaces).isEmpty then name
        else join "." spaces ++ "." ++ name) = join "." (spaces ++ [name])
      rw [hpath]
      refine swap_of_notMem fun hmem => ?_
      rcases mem_toList_join hmem with hdot | ⟨part, hpart, hslash⟩
      · exact absurd (List.mem_singleton.mp hdot) (by decide)
      · rcases List.mem_append.mp hpart with hspace | hlast
        · exact (hspaces part hspace).notMem (by decide) (by decide) hslash
        · rw [List.mem_singleton.mp hlast] at hslash
          exact hname.notMem (by decide) (by decide) hslash
  | @nested outer houter name hname scope ih =>
      obtain ⟨spaces, hspaces, hroot, hdotted⟩ := ih
      refine ⟨spaces, hspaces, hroot, ?_⟩
      have hsegments : (TypeName.nested outer name scope).segments = outer.segments ++ [name] := by
        rw [TypeName.segments, chain, List.map_append]
        rfl
      have houterNe : spaces ++ outer.segments ≠ [] := by
        simp [segments_ne_nil]
      rw [hsegments, ← List.append_assoc, join_append houterNe (List.cons_ne_nil _ _), ← hdotted]
      show Text.swap '/' '.' (outer.fullName ++ "/" ++ name) = _
      rw [swap_append, swap_append, hname.swap]
      rfl

/-! ### Instantiated names -/

/-- The path of an instantiated name whose namespace is made of `spaces`. -/
def pathOf (spaces : List String) (name : TypeName) (refs : List String) : List Segment :=
  spaces.map bare ++ spread refs name.segments

theorem pathText_pathOf {spaces : List String} {name : TypeName}
    (hspaces : ∀ space ∈ spaces, IsSegment space) (hroot : name.rootSpace = join "." spaces)
    (refs : List String) : pathText (pathOf spaces name refs) = DocId.instantiated name refs := by
  have htexts : (pathOf spaces name refs).map Segment.text
      = spaces ++ DocId.distribute refs name.chain := by
    rw [pathOf, List.map_append, List.map_map, distribute_eq_spread]
    congr 1
    exact List.map_id spaces
  have hchain : DocId.distribute refs name.chain ≠ [] := by
    rw [distribute_eq_spread]
    exact fun hnil => spread_ne_nil refs name.segments_ne_nil (List.map_eq_nil_iff.mp hnil)
  rw [pathText, htexts, DocId.instantiated, hroot]
  by_cases hnil : spaces = []
  · rw [hnil]
    rfl
  · have hne : join "." spaces ≠ "" :=
      join_ne_empty hnil fun space hspace => (hspaces space hspace).ne_empty
    simp only [if_neg (show ¬(join "." spaces).isEmpty = true by simpa using hne)]
    exact join_append hnil hchain

theorem pathName_pathOf (spaces : List String) (name : TypeName) (refs : List String) :
    pathName (pathOf spaces name refs) = join "." (spaces ++ name.segments) := by
  rw [pathName, pathOf, List.map_append, List.map_map, spread_map_name]
  congr 2
  exact List.map_id spaces

/-- The arguments are as many as the name takes, or there are none. -/
def Suits (name : TypeName) (refs : List String) : Prop :=
  refs = [] ∨ refs.length = name.totalArity

theorem pathOf_args (spaces : List String) {name : TypeName} {refs : List String}
    (h : Suits name refs) : (pathOf spaces name refs).flatMap Segment.args = refs := by
  have hbare : ∀ names : List String, (names.map bare).flatMap Segment.args = [] := by
    intro names
    rw [List.flatMap_eq_nil_iff]
    intro s hs
    obtain ⟨name, -, rfl⟩ := List.mem_map.mp hs
    rfl
  rw [pathOf, List.flatMap_append, hbare, List.nil_append]
  rcases h with rfl | hcount
  · rw [spread_nil, hbare]
  · exact spread_flatMap_args (hcount.trans name.totalArity_eq)

theorem pathOf_fits {spaces : List String} {name : TypeName} {refs : List String}
    (hspaces : ∀ space ∈ spaces, IsSegment space) (hname : name.WellFormed)
    (hrefs : ∀ ref ∈ refs, IsReference ref) (h : Suits name refs) :
    ∀ s ∈ pathOf spaces name refs, s.Fits := by
  have hbare : ∀ {names : List String}, (∀ n ∈ names, IsSegment n) →
      ∀ s ∈ names.map bare, s.Fits := by
    intro names hnames s hs
    obtain ⟨n, hn, rfl⟩ := List.mem_map.mp hs
    exact bare_fits (hnames n hn)
  intro s hs
  rcases List.mem_append.mp hs with hmem | hmem
  · exact hbare hspaces s hmem
  · rcases h with rfl | hcount
    · rw [spread_nil] at hmem
      exact hbare hname.segments s hmem
    · exact spread_fits hname.segments hrefs (hcount.trans name.totalArity_eq) s hmem

theorem pathOf_ne_nil (spaces : List String) (name : TypeName) (refs : List String) :
    pathOf spaces name refs ≠ [] :=
  fun hnil => spread_ne_nil refs name.segments_ne_nil (List.append_eq_nil_iff.mp hnil).2

/-- Without arguments an instantiated name is the dotted one. -/
theorem instantiated_nil {name : TypeName} (h : name.WellFormed) :
    DocId.instantiated name [] = name.dottedName := by
  obtain ⟨spaces, hspaces, hroot, hdotted⟩ := h.exists_spaces
  have htexts : (pathOf spaces name []).map Segment.text = spaces ++ name.segments := by
    rw [pathOf, spread_nil, ← List.map_append, List.map_map]
    exact List.map_id _
  rw [← pathText_pathOf hspaces hroot, pathText, htexts, hdotted]

/-- The text of an instantiated name is one of a reference, and one that begins with a name. -/
theorem instantiated_text {name : TypeName} (hname : name.WellFormed) {refs : List String}
    (hrefs : ∀ ref ∈ refs, IsReference ref) (hsuits : Suits name refs) :
    IsReference (DocId.instantiated name refs) ∧ IsNamed (DocId.instantiated name refs) := by
  obtain ⟨spaces, hspaces, hroot, -⟩ := hname.exists_spaces
  have hfits := pathOf_fits hspaces hname hrefs hsuits
  rw [← pathText_pathOf hspaces hroot]
  exact ⟨pathText_isReference (pathOf_ne_nil spaces name refs) hfits,
    pathText_isNamed (pathOf_ne_nil spaces name refs) hfits⟩

/-- **An instantiated name can be read back**: its text tells the dotted name and all arguments. -/
theorem instantiated_inj {n m : TypeName} (hn : n.WellFormed) (hm : m.WellFormed)
    {refs refs' : List String} (hrefs : ∀ ref ∈ refs, IsReference ref)
    (hrefs' : ∀ ref ∈ refs', IsReference ref) (hsuits : Suits n refs) (hsuits' : Suits m refs')
    (heq : DocId.instantiated n refs = DocId.instantiated m refs') :
    n.dottedName = m.dottedName ∧ refs = refs' := by
  obtain ⟨spaces, hspaces, hroot, hdotted⟩ := hn.exists_spaces
  obtain ⟨spaces', hspaces', hroot', hdotted'⟩ := hm.exists_spaces
  rw [← pathText_pathOf hspaces hroot, ← pathText_pathOf hspaces' hroot'] at heq
  have hpath : pathOf spaces n refs = pathOf spaces' m refs' :=
    pathText_inj (pathOf_fits hspaces hn hrefs hsuits) (pathOf_fits hspaces' hm hrefs' hsuits') heq
  refine ⟨?_, ?_⟩
  · rw [hdotted, hdotted', ← pathName_pathOf spaces n refs, hpath, pathName_pathOf]
  · rw [← pathOf_args spaces hsuits, hpath, pathOf_args spaces' hsuits']

/-- Names with the same dotted form that take the same arguments are written alike, wherever their
namespaces end. -/
theorem instantiated_congr {n m : TypeName} (hn : n.WellFormed) (hm : m.WellFormed)
    {refs : List String} (hcount : refs.length = n.totalArity)
    (hcount' : refs.length = m.totalArity) (heq : n.dottedName = m.dottedName) :
    DocId.instantiated n refs = DocId.instantiated m refs := by
  obtain ⟨spaces, hspaces, hroot, hdotted⟩ := hn.exists_spaces
  obtain ⟨spaces', hspaces', hroot', hdotted'⟩ := hm.exists_spaces
  have hpieces : ∀ {spaces : List String} {name : TypeName},
      (∀ space ∈ spaces, IsSegment space) → name.WellFormed →
      ∀ part ∈ spaces ++ name.segments, Enclosed ['.'] part.toList ∧ part ≠ "" := by
    intro spaces name hspaces hname part hpart
    have hpart' : IsSegment part := by
      rcases List.mem_append.mp hpart with hmem | hmem
      · exact hspaces part hmem
      · exact hname.segments part hmem
    exact ⟨hpart'.enclosed (forall_mem_of_all (by decide)), hpart'.ne_empty⟩
  have hsegments : spaces ++ n.segments = spaces' ++ m.segments :=
    join_inj (c := '.') (by decide) rfl (hpieces hspaces hn) (hpieces hspaces' hm)
      (by rw [← hdotted, ← hdotted', heq])
  rw [TypeName.totalArity_eq] at hcount hcount'
  have hpath : pathOf spaces n refs = pathOf spaces' m refs := by
    unfold pathOf
    -- The shorter namespace leaves segments to the name that the longer one swallows.
    rcases List.append_eq_append_iff.mp hsegments with ⟨extra, rfl, hmore⟩ | ⟨extra, rfl, hmore⟩
    · rw [hmore, List.map_append, total_append] at hcount
      rw [hmore, spread_append_of_total_eq_zero (by omega), List.map_append, List.append_assoc]
    · rw [hmore, List.map_append, total_append] at hcount'
      rw [hmore, spread_append_of_total_eq_zero (by omega), List.map_append, List.append_assoc]
  rw [← pathText_pathOf hspaces hroot, ← pathText_pathOf hspaces' hroot', hpath]

end ApiSurface
