/-
References to types can be read back.

`DocId.reference` flattens a tree into one text.  Two well-formed references have
the same text exactly if they agree: `Signature.canonical` erases what the text
does not show, which is the names of generic parameters, resolution scopes, where
in a dotted name the namespace ends, and the difference between a built-in type
and the named one it stands for.

The last character of a text tells arrays and pointers from the rest, and the
first one tells parameters from paths.  Paths are taken apart in
`ApiSurface.Proofs.Path`; the induction over the tree is on the left reference,
with the right one arbitrary.
-/
import ApiSurface.Proofs.Path

namespace ApiSurface

open Text DocId

namespace Signature

/-- A reference without by-reference whose names are well formed, and whose instantiations are of
named types and pass as many arguments as the name takes, at least one. -/
inductive WellFormed : Signature → Prop
  | primitive (kind : Primitive) : WellFormed (.primitive kind)
  | named {name : TypeName} (hname : name.WellFormed) : WellFormed (.named name)
  | instantiation {name : TypeName} {args : List Signature} (hname : name.WellFormed)
      (hargs : args ≠ []) (hcount : args.length = name.totalArity)
      (hwf : ∀ arg ∈ args, WellFormed arg) : WellFormed (.instantiation (.named name) args)
  | array {element : Signature} (h : WellFormed element) (rank : Nat) :
      WellFormed (.array element rank)
  | pointer {element : Signature} (h : WellFormed element) : WellFormed (.pointer element)
  | parameter (owner : ParameterOwner) (index : Nat) (name : String) :
      WellFormed (.parameter owner index name)

mutual

/-- The reference without parameter names and scopes, with built-in types as named ones, arrays of
rank at least one, and dotted names. -/
def canonical : Signature → Signature
  | primitive kind => named (.top "" kind.fullName none)
  | named name => named (.top "" name.dottedName none)
  | instantiation base args => instantiation base.canonical (canonicals args)
  | array element rank => array element.canonical (max rank 1)
  | byRef element => byRef element.canonical
  | pointer element => pointer element.canonical
  | parameter owner index _ => parameter owner index ""

/-- The canonical forms of a list of references. -/
def canonicals : List Signature → List Signature
  | [] => []
  | sig :: rest => sig.canonical :: canonicals rest

end

@[simp] theorem canonicals_eq_map (sigs : List Signature) :
    canonicals sigs = sigs.map canonical := by
  induction sigs with
  | nil => rfl
  | cons sig rest ih => rw [canonicals, ih, List.map_cons]

/-- The two references are the same type as far as identifiers can tell. -/
def Agrees (s t : Signature) : Prop := s.canonical = t.canonical

instance (s t : Signature) : Decidable (s.Agrees t) :=
  inferInstanceAs (Decidable (s.canonical = t.canonical))

end Signature

theorem DocId.references_eq_map (sigs : List Signature) :
    references sigs = sigs.map reference := by
  induction sigs with
  | nil => rfl
  | cons sig rest ih => rw [references, ih, List.map_cons]

/-! ### Paths -/

namespace Signature

/-- The canonical form of a dotted name with arguments. -/
def canonicalPath (dotted : String) (args : List Signature) : Signature :=
  if args.isEmpty then .named (.top "" dotted none)
  else .instantiation (.named (.top "" dotted none)) args

theorem canonicalPath_inj {dotted dotted' : String} {args args' : List Signature}
    (h : canonicalPath dotted args = canonicalPath dotted' args') :
    dotted = dotted' ∧ args = args' := by
  unfold canonicalPath at h
  by_cases hargs : args = [] <;> by_cases hargs' : args' = []
  · simp_all
  · simp [hargs, hargs'] at h
  · simp [hargs, hargs'] at h
  · simpa [hargs, hargs'] using h

/-- The reference is a name with arguments, or without any. -/
structure IsPath (sig : Signature) (name : TypeName) (args : List Signature) : Prop where
  wellFormed : name.WellFormed
  wellFormedArgs : ∀ arg ∈ args, arg.WellFormed
  count : args = [] ∨ args.length = name.totalArity
  text : reference sig = instantiated name (args.map reference)
  canonical_eq : sig.canonical = canonicalPath name.dottedName (args.map canonical)

theorem isPath_named {name : TypeName} (h : name.WellFormed) : (named name).IsPath name [] :=
  ⟨h, fun _ harg => absurd harg List.not_mem_nil, Or.inl rfl, (instantiated_nil h).symm, rfl⟩

/-- A built-in type is written as a type of the namespace `System`. -/
theorem exists_isPath_primitive (kind : Primitive) : ∃ name, (primitive kind).IsPath name [] := by
  have hplain : IsPlain (String.ofList (kind.fullName.toList.drop 7)) := by
    cases kind <;> exact ⟨by decide, forall_mem_of_all (by decide)⟩
  have hsystem : IsPlain "System" := ⟨by decide, forall_mem_of_all (by decide)⟩
  have hname : (TypeName.top (join "." ["System"]) (String.ofList (kind.fullName.toList.drop 7))
      none).WellFormed :=
    .top (fun space hspace => by
      rw [List.mem_singleton.mp hspace]
      exact .bare hsystem) (.bare hplain) none
  have hdotted : (TypeName.top (join "." ["System"]) (String.ofList (kind.fullName.toList.drop 7))
      none).dottedName = kind.fullName := by
    cases kind <;> decide
  have hpath := isPath_named hname
  refine ⟨_, hname, hpath.wellFormedArgs, Or.inl rfl, ?_, ?_⟩
  · rw [← hpath.text]
    exact hdotted.symm
  · rw [hdotted]
    rfl

theorem isPath_instantiation {name : TypeName} {args : List Signature} (hname : name.WellFormed)
    (hargs : args ≠ []) (hcount : args.length = name.totalArity)
    (hwf : ∀ arg ∈ args, arg.WellFormed) :
    (instantiation (.named name) args).IsPath name args := by
  refine ⟨hname, hwf, Or.inr hcount, ?_, ?_⟩
  · show instantiated name (references args) = _
    rw [references_eq_map]
  · rw [Signature.canonical, canonicals_eq_map, canonicalPath, if_neg (by simpa using hargs)]
    rfl

/-! ### Suffixes -/

/-- What is written behind the element of an array. -/
def arraySuffix (rank : Nat) : String :=
  if rank ≤ 1 then "[]" else "[" ++ join "," (List.replicate rank "0:") ++ "]"

theorem reference_array (element : Signature) (rank : Nat) :
    reference (array element rank) = reference element ++ arraySuffix rank := rfl

/-- What stands between the brackets of an array. -/
def arrayBounds (rank : Nat) : List Char :=
  if rank ≤ 1 then [] else (join "," (List.replicate rank "0:")).toList

theorem toList_arraySuffix (rank : Nat) :
    (arraySuffix rank).toList = '[' :: (arrayBounds rank ++ [']']) := by
  unfold arraySuffix arrayBounds
  split
  · rfl
  · rw [String.toList_append, String.toList_append, List.append_assoc]
    rfl

theorem mem_arrayBounds {rank : Nat} {c : Char} (h : c ∈ arrayBounds rank) :
    c ∈ ['0', ':', ','] := by
  unfold arrayBounds at h
  split at h
  · exact absurd h List.not_mem_nil
  · rcases mem_toList_join h with hcomma | ⟨part, hpart, hmem⟩
    · rw [List.mem_singleton.mp hcomma]
      decide
    · rw [List.eq_of_mem_replicate hpart] at hmem
      have hbound : ∀ d ∈ "0:".toList, d ∈ ['0', ':', ','] := forall_mem_of_all (by decide)
      exact hbound c hmem

theorem length_join_bounds (n : Nat) :
    (join "," (List.replicate (n + 1) "0:")).toList.length = 3 * n + 2 := by
  induction n with
  | zero => rfl
  | succ n ih =>
      rw [List.replicate_succ, List.replicate_succ, toList_join_cons, ← List.replicate_succ,
        List.length_append, List.length_append, ih]
      show 2 + (1 + (3 * n + 2)) = _
      omega

theorem arrayBounds_inj {rank rank' : Nat} (h : arrayBounds rank = arrayBounds rank') :
    max rank 1 = max rank' 1 := by
  have hlength : ∀ r, (arrayBounds r).length = 3 * (max r 1 - 1) + (if r ≤ 1 then 0 else 2) := by
    intro r
    unfold arrayBounds
    by_cases hr : r ≤ 1
    · rw [if_pos hr, if_pos hr, List.length_nil]
      omega
    · obtain ⟨n, rfl⟩ : ∃ n, r = n + 1 := ⟨r - 1, by omega⟩
      rw [if_neg hr, if_neg hr, length_join_bounds]
      omega
  have hcount := congrArg List.length h
  rw [hlength, hlength] at hcount
  split at hcount <;> split at hcount <;> omega

/-! ### What the text of a reference is like -/

theorem IsPath.suits {sig : Signature} {name : TypeName} {args : List Signature}
    (h : sig.IsPath name args) : Suits name (args.map reference) := by
  rcases h.count with rfl | hcount
  · exact Or.inl rfl
  · exact Or.inr (by rw [List.length_map, hcount])

theorem IsPath.isReference {sig : Signature} {name : TypeName} {args : List Signature}
    (h : sig.IsPath name args) (hargs : ∀ arg ∈ args, IsReference (reference arg)) :
    IsReference (reference sig) ∧ IsNamed (reference sig) := by
  rw [h.text]
  refine instantiated_text h.wellFormed (fun ref href => ?_) h.suits
  obtain ⟨arg, harg, rfl⟩ := List.mem_map.mp href
  exact hargs arg harg

theorem isReference_append {text suffix : String} (h : IsReference text)
    (henclosed : Enclosed [','] suffix.toList) (hfree : ∀ c ∈ suffix.toList, c ∉ [')', '@']) :
    IsReference (text ++ suffix) := by
  refine ⟨?_, ?_, ?_⟩
  · intro hempty
    exact h.nonempty (String.append_eq_empty_iff.mp hempty).1
  · rw [String.toList_append]
    exact h.enclosed.append henclosed
  · intro c hc
    rw [String.toList_append, List.mem_append] at hc
    rcases hc with hc | hc
    · exact h.free c hc
    · exact hfree c hc

theorem toList_reference_parameter (owner : ParameterOwner) (index : Nat) (name : String) :
    (reference (parameter owner index name)).toList
      = owner.marks.toList ++ (naturalText index).toList :=
  String.toList_append ..

theorem isReference_parameter (owner : ParameterOwner) (index : Nat) (name : String) :
    IsReference (reference (parameter owner index name)) := by
  have hchars : ∀ c ∈ (reference (parameter owner index name)).toList,
      c = arityMark ∨ c ∉ punctuation := by
    intro c hc
    rw [toList_reference_parameter, List.mem_append] at hc
    rcases hc with hmark | hdigit
    · left
      cases owner with
      | type => exact List.mem_singleton.mp hmark
      | method => exact (List.mem_pair.mp hmark).elim id id
    · exact Or.inr (mem_naturalText hdigit)
  refine ⟨?_, .of_plain fun c hc => ?_, fun c hc => ?_⟩
  · intro hempty
    exact naturalText_ne_empty index (String.append_eq_empty_iff.mp hempty).2
  · rcases hchars c hc with rfl | hplain
    · decide
    · have hkept : ∀ b ∈ ['\x7b', '[', '\x7d', ']', ','], b ∈ punctuation :=
        forall_mem_of_all (by decide)
      refine ⟨weight_eq_zero fun hb => hplain (hkept c ?_), fun hb => hplain (hkept c ?_)⟩
      · exact List.mem_append_left [','] hb
      · exact List.mem_append_right ['\x7b', '[', '\x7d', ']'] hb
  · rcases hchars c hc with rfl | hplain
    · decide
    · have hkept : ∀ r ∈ [')', '@'], r ∈ punctuation := forall_mem_of_all (by decide)
      exact fun hr => hplain (hkept c hr)

theorem enclosed_arraySuffix (rank : Nat) : Enclosed [','] (arraySuffix rank).toList := by
  rw [toList_arraySuffix]
  refine Enclosed.wrap (.of_plain fun c hc => ⟨?_, List.not_mem_nil⟩) (by decide) (by decide)
    (forall_mem_of_all (by decide))
  have hzero : ∀ b ∈ ['0', ':', ','], weight b = 0 := forall_mem_of_all (by decide)
  exact hzero c (mem_arrayBounds hc)

theorem WellFormed.isReference {sig : Signature} (h : sig.WellFormed) :
    IsReference (reference sig) := by
  induction h with
  | primitive kind =>
      obtain ⟨name, hpath⟩ := exists_isPath_primitive kind
      exact (hpath.isReference fun _ harg => absurd harg List.not_mem_nil).1
  | named hname =>
      exact ((isPath_named hname).isReference fun _ harg => absurd harg List.not_mem_nil).1
  | instantiation hname hargs hcount hwf ih =>
      exact ((isPath_instantiation hname hargs hcount hwf).isReference ih).1
  | array h rank ih =>
      rw [reference_array]
      refine isReference_append ih (enclosed_arraySuffix rank) fun c hc => ?_
      rw [toList_arraySuffix, List.mem_cons, List.mem_append, List.mem_singleton] at hc
      rcases hc with rfl | hbound | rfl
      · decide
      · have hfree : ∀ b ∈ ['0', ':', ','], b ∉ [')', '@'] := forall_mem_of_all (by decide)
        exact hfree c (mem_arrayBounds hbound)
      · decide
  | pointer h ih =>
      exact isReference_append ih (.of_plain (forall_mem_of_all (by decide)))
        (forall_mem_of_all (by decide))
  | parameter owner index name => exact isReference_parameter owner index name

/-! ### Telling the kinds apart -/

/-- The kinds of references that look different. -/
inductive Shape where
  | path
  | parameter
  | array
  | pointer
  deriving DecidableEq

/-- The kind of a reference.  Built-in, named and instantiated types all look like paths. -/
def shape : Signature → Shape
  | array .. => .array
  | pointer _ => .pointer
  | parameter .. => .parameter
  | _ => .path

/-- The kind that the ends of a text show. -/
def shapeOf (text : List Char) : Shape :=
  if text.getLast? = some ']' then .array
  else if text.getLast? = some '*' then .pointer
  else if text.head? = some arityMark then .parameter
  else .path

theorem shape_canonical (sig : Signature) : sig.canonical.shape = sig.shape := by
  cases sig <;> rfl

theorem IsPath.shape {sig : Signature} {name : TypeName} {args : List Signature}
    (h : sig.IsPath name args) : sig.shape = .path := by
  rw [← shape_canonical sig, h.canonical_eq, canonicalPath]
  split <;> rfl

theorem WellFormed.exists_isPath {sig : Signature} (h : sig.WellFormed)
    (hshape : sig.shape = .path) : ∃ name args, sig.IsPath name args := by
  cases h with
  | primitive kind =>
      obtain ⟨name, hpath⟩ := exists_isPath_primitive kind
      exact ⟨name, [], hpath⟩
  | named hname => exact ⟨_, [], isPath_named hname⟩
  | instantiation hname hargs hcount hwf =>
      exact ⟨_, _, isPath_instantiation hname hargs hcount hwf⟩
  | array h rank => exact absurd hshape (by simp [shape])
  | pointer h => exact absurd hshape (by simp [shape])
  | parameter owner index name => exact absurd hshape (by simp [shape])

theorem shapeOf_parameter (owner : ParameterOwner) (index : Nat) (name : String) :
    shapeOf (reference (parameter owner index name)).toList = .parameter := by
  rw [toList_reference_parameter]
  have hdigits : (naturalText index).toList ≠ [] := fun hnil =>
    naturalText_ne_empty index (String.toList_eq_nil_iff.mp hnil)
  have hlast : ∀ c ∈ punctuation,
      (owner.marks.toList ++ (naturalText index).toList).getLast? ≠ some c := by
    intro c hc hlast
    rw [List.getLast?_append_of_ne_nil _ hdigits] at hlast
    exact mem_naturalText (List.mem_of_getLast? hlast) hc
  have hhead : (owner.marks.toList ++ (naturalText index).toList).head? = some arityMark := by
    cases owner <;> rfl
  rw [shapeOf, if_neg (hlast _ (by decide)), if_neg (hlast _ (by decide)), if_pos hhead]

/-- The ends of its text tell the kind of a reference. -/
theorem WellFormed.shapeOf_reference {sig : Signature} (h : sig.WellFormed) :
    shapeOf (reference sig).toList = sig.shape := by
  by_cases hshape : sig.shape = .path
  · obtain ⟨name, args, hpath⟩ := h.exists_isPath hshape
    have hnamed := (hpath.isReference fun arg harg => (hpath.wellFormedArgs arg harg).isReference).2
    rw [hshape, shapeOf, if_neg hnamed.last.1, if_neg hnamed.last.2, if_neg hnamed.head]
  · cases h with
    | primitive kind => exact absurd rfl hshape
    | named hname => exact absurd rfl hshape
    | instantiation hname hargs hcount hwf => exact absurd rfl hshape
    | @array element h rank =>
        have hlast : (reference (.array element rank)).toList.getLast? = some ']' := by
          rw [reference_array, String.toList_append, toList_arraySuffix, ← List.cons_append,
            ← List.append_assoc, List.getLast?_concat]
        rw [shapeOf, if_pos hlast]
        rfl
    | @pointer element h =>
        have hlast : (reference (.pointer element)).toList.getLast? = some '*' := by
          show (reference element ++ "*").toList.getLast? = _
          rw [String.toList_append]
          exact List.getLast?_concat
        rw [shapeOf, hlast]
        rfl
    | parameter owner index name => exact shapeOf_parameter owner index name

/-! ### Equal texts and agreement -/

/-- Two texts are equal exactly if the references agree. -/
def Faithful (s t : Signature) : Prop := reference s = reference t ↔ s.Agrees t

/-- References of different kinds have different texts and do not agree. -/
theorem faithful_of_shape_ne {s t : Signature} (hs : s.WellFormed) (ht : t.WellFormed)
    (hne : s.shape ≠ t.shape) : s.Faithful t := by
  refine ⟨fun heq => absurd ?_ hne, fun heq => absurd ?_ hne⟩
  · rw [← hs.shapeOf_reference, ← ht.shapeOf_reference, heq]
  · rw [← shape_canonical s, ← shape_canonical t, heq]

theorem map_reference_eq_iff {as bs : List Signature} (h : ∀ a ∈ as, ∀ b ∈ bs, a.Faithful b) :
    as.map reference = bs.map reference ↔ as.map canonical = bs.map canonical := by
  induction as generalizing bs with
  | nil => rw [List.map_nil, List.map_nil, List.nil_eq, List.nil_eq, List.map_eq_nil_iff,
      List.map_eq_nil_iff]
  | cons a as ih =>
      cases bs with
      | nil => simp
      | cons b bs =>
          have hhead : reference a = reference b ↔ a.canonical = b.canonical :=
            h a List.mem_cons_self b List.mem_cons_self
          have htail := ih fun a' ha b' hb =>
            h a' (List.mem_cons_of_mem a ha) b' (List.mem_cons_of_mem b hb)
          simp only [List.map_cons, List.cons.injEq, hhead, htail]

theorem IsPath.faithful {s t : Signature} {n m : TypeName} {as bs : List Signature}
    (hs : s.IsPath n as) (ht : t.IsPath m bs) (h : ∀ a ∈ as, ∀ b ∈ bs, a.Faithful b) :
    s.Faithful t := by
  have hrefs : ∀ {sig : Signature} {name : TypeName} {args : List Signature},
      sig.IsPath name args → ∀ ref ∈ args.map reference, IsReference ref := by
    intro sig name args hpath ref href
    obtain ⟨arg, harg, rfl⟩ := List.mem_map.mp href
    exact (hpath.wellFormedArgs arg harg).isReference
  unfold Faithful Agrees
  rw [hs.text, ht.text, hs.canonical_eq, ht.canonical_eq]
  refine ⟨fun heq => ?_, fun heq => ?_⟩
  · obtain ⟨hname, hargs⟩ := instantiated_inj hs.wellFormed ht.wellFormed (hrefs hs) (hrefs ht)
      hs.suits ht.suits heq
    rw [hname, (map_reference_eq_iff h).mp hargs]
  · obtain ⟨hname, hargs⟩ := canonicalPath_inj heq
    have hargs' := (map_reference_eq_iff h).mpr hargs
    have hlength : as.length = bs.length := by
      rw [← List.length_map canonical, hargs, List.length_map]
    rw [← hargs']
    by_cases hnil : as = []
    · rw [hnil, List.map_nil, instantiated_nil hs.wellFormed, instantiated_nil ht.wellFormed, hname]
    · have hnil' : bs ≠ [] := by
        rintro rfl
        exact hnil (List.eq_nil_of_length_eq_zero hlength)
      have hn := hs.count.resolve_left hnil
      have hm := ht.count.resolve_left hnil'
      exact instantiated_congr hs.wellFormed ht.wellFormed (by rw [List.length_map, hn])
        (by rw [List.length_map, hlength, hm]) hname

theorem faithful_array {s t : Signature} (h : s.Faithful t) (rank rank' : Nat) :
    (array s rank).Faithful (array t rank') := by
  refine ⟨fun heq => ?_, fun heq => ?_⟩
  · have hlist := congrArg String.toList heq
    rw [reference_array, reference_array, String.toList_append, String.toList_append,
      toList_arraySuffix, toList_arraySuffix] at hlist
    -- The last opening bracket is the one of the suffix, as there is none among the bounds.
    have hbracket : ∀ r, '[' ∉ arrayBounds r ++ [']'] := by
      intro r hmem
      rcases List.mem_append.mp hmem with hbound | hclosing
      · exact absurd (mem_arrayBounds hbound) (by decide)
      · exact absurd hclosing (by decide)
    obtain ⟨helement, hsuffix⟩ := last_inj (hbracket rank) (hbracket rank') hlist
    have hagrees : s.canonical = t.canonical := h.mp (String.toList_inj.mp helement)
    show Signature.array s.canonical (max rank 1) = .array t.canonical (max rank' 1)
    rw [hagrees, arrayBounds_inj (List.append_cancel_right hsuffix)]
  · obtain ⟨helement, hrank⟩ := Signature.array.inj heq
    have hsuffix : arraySuffix rank = arraySuffix rank' := by
      unfold arraySuffix
      by_cases hplain : rank ≤ 1
      · rw [if_pos hplain, if_pos (by omega)]
      · rw [if_neg hplain, if_neg (by omega), show rank = rank' by omega]
    rw [reference_array, reference_array, h.mpr helement, hsuffix]

theorem faithful_pointer {s t : Signature} (h : s.Faithful t) :
    (pointer s).Faithful (pointer t) := by
  refine ⟨fun heq => ?_, fun heq => ?_⟩
  · have hagrees : s.canonical = t.canonical := h.mp ((String.append_left_inj "*").mp heq)
    show Signature.pointer s.canonical = .pointer t.canonical
    rw [hagrees]
  · show reference s ++ "*" = reference t ++ "*"
    rw [h.mpr (Signature.pointer.inj heq)]

theorem faithful_parameter (owner owner' : ParameterOwner) (index index' : Nat)
    (name name' : String) :
    (parameter owner index name).Faithful (parameter owner' index' name') := by
  have hdigits : ∀ {n : Nat} {rest : List Char}, (naturalText n).toList ≠ arityMark :: rest := by
    intro n rest heq
    exact mem_naturalText (heq ▸ List.mem_cons_self) (by decide)
  refine ⟨fun heq => ?_, fun heq => ?_⟩
  · have hlist := congrArg String.toList heq
    rw [toList_reference_parameter, toList_reference_parameter] at hlist
    have howner : owner = owner' := by
      cases owner <;> cases owner'
      · rfl
      · exact absurd (List.cons.inj hlist).2 hdigits
      · exact absurd (List.cons.inj hlist).2.symm hdigits
      · rfl
    subst howner
    have hindex := naturalText_inj.mp (String.toList_inj.mp (List.append_cancel_left hlist))
    rw [Agrees, hindex]
    rfl
  · obtain ⟨rfl, rfl, -⟩ := Signature.parameter.inj heq
    rfl

/-- A path is told from every reference, once its arguments are. -/
theorem IsPath.faithful_of_args {s t : Signature} {name : TypeName} {args : List Signature}
    (hpath : s.IsPath name args) (hs : s.WellFormed) (ht : t.WellFormed)
    (h : ∀ a ∈ args, ∀ b : Signature, b.WellFormed → a.Faithful b) : s.Faithful t := by
  by_cases hshape : t.shape = .path
  · obtain ⟨name', args', hpath'⟩ := ht.exists_isPath hshape
    exact hpath.faithful hpath' fun a ha b hb => h a ha b (hpath'.wellFormedArgs b hb)
  · refine faithful_of_shape_ne hs ht fun heq => hshape ?_
    rw [← heq, hpath.shape]

/-- **The text of a reference tells the reference**, up to what no identifier shows. -/
theorem WellFormed.faithful {s t : Signature} (hs : s.WellFormed) (ht : t.WellFormed) :
    s.Faithful t := by
  -- The kinds are told apart by their shapes; within one kind the parts are smaller.
  induction hs generalizing t with
  | primitive kind =>
      obtain ⟨name, hpath⟩ := exists_isPath_primitive kind
      exact hpath.faithful_of_args (.primitive kind) ht fun a ha => absurd ha List.not_mem_nil
  | named hname =>
      exact (isPath_named hname).faithful_of_args (.named hname) ht fun a ha =>
        absurd ha List.not_mem_nil
  | instantiation hname hargs hcount hwf ih =>
      exact (isPath_instantiation hname hargs hcount hwf).faithful_of_args
        (.instantiation hname hargs hcount hwf) ht fun a ha b hb => ih a ha hb
  | array h rank ih =>
      by_cases hshape : t.shape = .array
      · cases ht with
        | array h' rank' => exact faithful_array (ih h') rank rank'
        | _ => exact absurd hshape (by simp [shape])
      · exact faithful_of_shape_ne (.array h rank) ht (Ne.symm hshape)
  | pointer h ih =>
      by_cases hshape : t.shape = .pointer
      · cases ht with
        | pointer h' => exact faithful_pointer (ih h')
        | _ => exact absurd hshape (by simp [shape])
      · exact faithful_of_shape_ne (.pointer h) ht (Ne.symm hshape)
  | parameter owner index name =>
      by_cases hshape : t.shape = .parameter
      · cases ht with
        | parameter owner' index' name' =>
            exact faithful_parameter owner owner' index index' name name'
        | _ => exact absurd hshape (by simp [shape])
      · exact faithful_of_shape_ne (.parameter owner index name) ht (Ne.symm hshape)

/-- A type nested in `Game.Box` and one of the namespace `Game.Box` are written alike. -/
example : (named (.nested (.top "Game" "Box" none) "Lid" none)).Agrees
    (.named (.top "Game.Box" "Lid" none)) := by
  decide

end Signature

end ApiSurface
