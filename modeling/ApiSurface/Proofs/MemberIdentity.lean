/-
Members with the same documentation identifier.

A member has two texts that stand for its signature: the key under which it hides
inherited members, and the identifier under which its prose is filed.  They are
composed separately.  The identifier replaces some characters of the name, leaves
out an empty parameter list and shows the declared types; the key shows the types
as they are bound.  On a type by itself nothing is bound, and there the two tell
the same members apart: `docId_eq_iff_identityKey_eq`.

The identifiers of fields, events and properties have the key behind the declaring
type as it is.  Those of methods are taken apart.  Neither the name nor the number
of generic parameters has a parenthesis or the mark of conversions, so what
comes before the parameters ends at the first of these; and no reference has a
closing parenthesis, so the parameters end at the first one.
-/
import ApiSurface.Chain
import ApiSurface.Proofs.MethodIdentity

namespace ApiSurface

open Text DocId

/-- Two texts with nothing but a stop behind their first parts have the same parts. -/
theorem headed_inj {stops : List Char} :
    ∀ {before before' after after' : List Char}, (∀ c ∈ before, c ∉ stops) →
      (∀ c ∈ before', c ∉ stops) → (∀ c ∈ after.head?, c ∈ stops) →
      (∀ c ∈ after'.head?, c ∈ stops) → before ++ after = before' ++ after' →
        before = before' ∧ after = after' := by
  intro before
  induction before with
  | nil =>
      intro before' after after' _ hbefore' hafter _ heq
      cases before' with
      | nil => exact ⟨rfl, heq⟩
      | cons c rest =>
          have hhead : c ∈ after.head? := by
            rw [show after = c :: (rest ++ after') from heq]
            rfl
          exact absurd (hafter c hhead) (hbefore' c List.mem_cons_self)
  | cons c rest ih =>
      intro before' after after' hbefore hbefore' hafter hafter' heq
      cases before' with
      | nil =>
          have hhead : c ∈ after'.head? := by
            rw [show after' = c :: (rest ++ after) from heq.symm]
            rfl
          exact absurd (hafter' c hhead) (hbefore c List.mem_cons_self)
      | cons c' rest' =>
          obtain ⟨rfl, htail⟩ := List.cons.inj heq
          obtain ⟨rfl, hafterEq⟩ := ih (fun d hd => hbefore d (List.mem_cons_of_mem c hd))
            (fun d hd => hbefore' d (List.mem_cons_of_mem c hd)) hafter hafter' htail
          exact ⟨rfl, hafterEq⟩

/-! ### References in a parameter list -/

/-- What is needed of a text to find it again in a parameter list. -/
structure IsListed (text : String) : Prop where
  nonempty : text ≠ ""
  enclosed : Enclosed [','] text.toList
  free : ')' ∉ text.toList

theorem IsReference.isListed {text : String} (h : IsReference text) : IsListed text :=
  ⟨h.nonempty, h.enclosed, fun hmem => h.free _ hmem (by decide)⟩

theorem IsSegment.isListed {segment : String} (h : IsSegment segment) : IsListed segment :=
  ⟨h.ne_empty, h.enclosed (forall_mem_of_all (by decide)), h.notMem (by decide) (by decide)⟩

theorem IsListed.append {text suffix : String} (h : IsListed text)
    (henclosed : Enclosed [','] suffix.toList) (hfree : ')' ∉ suffix.toList) :
    IsListed (text ++ suffix) := by
  refine ⟨fun hempty => h.nonempty (String.append_eq_empty_iff.mp hempty).1, ?_, ?_⟩
  · rw [String.toList_append]
    exact h.enclosed.append henclosed
  · rw [String.toList_append, List.mem_append]
    rintro (hmem | hmem)
    · exact h.free hmem
    · exact hfree hmem

theorem isListed_join {parts : List String} (hne : parts ≠ [])
    (hparts : ∀ part ∈ parts, IsListed part) : IsListed (join "." parts) := by
  refine ⟨join_ne_empty hne fun part hpart => (hparts part hpart).nonempty, ?_, fun hmem => ?_⟩
  · exact enclosed_join (.of_plain (forall_mem_of_all (by decide)))
      fun part hpart => (hparts part hpart).enclosed
  · rcases mem_toList_join hmem with hdot | ⟨part, hpart, hmem'⟩
    · exact absurd hdot (by decide)
    · exact (hparts part hpart).free hmem'

/-- Whatever its arguments are like inside, a segment closes the braces around them. -/
theorem isListed_distribute {segments : List TypeName} :
    ∀ {refs : List String}, (∀ t ∈ segments, IsSegment t.name) → (∀ ref ∈ refs, IsListed ref) →
      ∀ part ∈ distribute refs segments, IsListed part := by
  induction segments with
  | nil => exact fun _ _ part hpart => absurd hpart List.not_mem_nil
  | cons segment inner ih =>
      intro refs hsegments hrefs part hpart
      have hsegment := hsegments segment List.mem_cons_self
      rcases List.mem_cons.mp hpart with rfl | hmem
      · by_cases harity : min segment.ownArity refs.length = 0
        · rw [if_pos harity]
          exact hsegment.isListed
        · rw [if_neg harity, String.append_assoc, String.append_assoc]
          have hplain := (hsegment.eq_marked (by omega)).1
          generalize min segment.ownArity refs.length = arity
          have hargs : ∀ arg ∈ refs.take arity, IsListed arg :=
            fun arg harg => hrefs arg (List.mem_of_mem_take harg)
          have hinner : Enclosed [] (join "," (refs.take arity)).toList :=
            enclosed_join (.of_plain (forall_mem_of_all (by decide))) fun arg harg =>
              (hargs arg harg).enclosed.mono (by simp)
          refine (IsSegment.bare hplain).isListed.append ?_ ?_
          · rw [String.toList_append, String.toList_append]
            exact hinner.wrap (by decide) (by decide) (forall_mem_of_all (by decide))
          · rw [String.toList_append, String.toList_append, List.mem_append, List.mem_append]
            rintro (hopen | hmem | hclose)
            · exact absurd hopen (by decide)
            · rcases mem_toList_join hmem with hcomma | ⟨arg, harg, hmem'⟩
              · exact absurd hcomma (by decide)
              · exact (hargs arg harg).free hmem'
            · exact absurd hclose (by decide)
      · exact ih (fun t ht => hsegments t (List.mem_cons_of_mem segment ht))
          (fun ref href => hrefs ref (List.mem_of_mem_drop href)) part hmem

theorem isListed_instantiated {name : TypeName} (hname : name.WellFormed) {refs : List String}
    (hrefs : ∀ ref ∈ refs, IsListed ref) : IsListed (instantiated name refs) := by
  obtain ⟨spaces, hspaces, hroot, -⟩ := hname.exists_spaces
  have hpath : IsListed (join "." (distribute refs name.chain)) := by
    refine isListed_join ?_
      (isListed_distribute (fun t ht => hname.segments t.name (List.mem_map_of_mem ht)) hrefs)
    rw [distribute_eq_spread]
    exact fun hnil => spread_ne_nil refs name.segments_ne_nil (List.map_eq_nil_iff.mp hnil)
  unfold instantiated
  by_cases hempty : name.rootSpace = ""
  · rw [if_pos (by simpa using hempty)]
    exact hpath
  · rw [if_neg (by simpa using hempty)]
    have hspace : IsListed name.rootSpace := by
      rw [hroot] at hempty ⊢
      refine isListed_join ?_ fun space hmem => (hspaces space hmem).isListed
      rintro rfl
      exact hempty rfl
    exact (hspace.append (.of_plain (forall_mem_of_all (by decide))) (by decide)).append
      hpath.enclosed hpath.free

/-- A reference whose names are well formed and whose instantiations are of named types. -/
inductive Signature.Proper : Signature → Prop
  | primitive (kind : Primitive) : Proper (.primitive kind)
  | named {name : TypeName} (hname : name.WellFormed) : Proper (.named name)
  | instantiation {name : TypeName} {args : List Signature} (hname : name.WellFormed)
      (hargs : ∀ arg ∈ args, Proper arg) : Proper (.instantiation (.named name) args)
  | array {element : Signature} (h : Proper element) (rank : Nat) : Proper (.array element rank)
  | byRef {element : Signature} (h : Proper element) : Proper (.byRef element)
  | pointer {element : Signature} (h : Proper element) : Proper (.pointer element)
  | parameter (owner : ParameterOwner) (index : Nat) (name : String) :
      Proper (.parameter owner index name)

theorem Signature.Proper.isListed {sig : Signature} (h : sig.Proper) :
    IsListed (reference sig) := by
  induction h with
  | primitive kind => exact (WellFormed.primitive kind).isReference.isListed
  | named hname => exact (WellFormed.named hname).isReference.isListed
  | @instantiation name args hname hargs ih =>
      show IsListed (instantiated name (references args))
      rw [references_eq_map]
      refine isListed_instantiated hname fun ref href => ?_
      obtain ⟨arg, harg, rfl⟩ := List.mem_map.mp href
      exact ih arg harg
  | array h rank ih =>
      rw [reference_array]
      refine ih.append (enclosed_arraySuffix rank) fun hmem => ?_
      rw [toList_arraySuffix, List.mem_cons, List.mem_append] at hmem
      rcases hmem with hopen | hbound | hclose
      · exact absurd hopen (by decide)
      · exact absurd (mem_arrayBounds hbound) (by decide)
      · exact absurd hclose (by decide)
  | byRef h ih => exact ih.append (.of_plain (forall_mem_of_all (by decide))) (by decide)
  | pointer h ih => exact ih.append (.of_plain (forall_mem_of_all (by decide))) (by decide)
  | parameter owner index name => exact (isReference_parameter owner index name).isListed

namespace ShownParameter

theorem isListed_keyText {p : ShownParameter} (h : p.type.signature.Proper) :
    IsListed p.keyText := by
  unfold keyText parameterReference
  refine h.isListed.append ?_ ?_
  · exact .of_plain (by cases p.isByRef <;> exact forall_mem_of_all (by decide))
  · cases p.isByRef <;> decide

variable {ps qs : List ShownParameter}

theorem keyTexts_eq_empty_iff (h : ∀ p ∈ ps, p.type.signature.Proper) :
    keyTexts ps = "" ↔ ps = [] := by
  constructor
  · intro hempty
    by_contra hne
    refine join_ne_empty (by simpa using hne) (fun text htext => ?_) hempty
    obtain ⟨p, hp, rfl⟩ := List.mem_map.mp htext
    exact (isListed_keyText (h p hp)).nonempty
  · rintro rfl
    rfl

theorem closing_notMem_keyTexts (h : ∀ p ∈ ps, p.type.signature.Proper) :
    ')' ∉ (keyTexts ps).toList := by
  intro hmem
  rcases mem_toList_join hmem with hcomma | ⟨text, htext, hmem'⟩
  · exact absurd hcomma (by decide)
  · obtain ⟨p, hp, rfl⟩ := List.mem_map.mp htext
    exact (isListed_keyText (h p hp)).free hmem'

/-- The texts of the parameters can be told from the text of the list. -/
theorem map_keyText_of_keyTexts (hps : ∀ p ∈ ps, p.type.signature.Proper)
    (hqs : ∀ q ∈ qs, q.type.signature.Proper) (heq : keyTexts ps = keyTexts qs) :
    ps.map keyText = qs.map keyText := by
  have hpieces : ∀ {rs : List ShownParameter}, (∀ r ∈ rs, r.type.signature.Proper) →
      ∀ text ∈ rs.map keyText, Enclosed [','] text.toList ∧ text ≠ "" := by
    intro rs hrs text htext
    obtain ⟨r, hr, rfl⟩ := List.mem_map.mp htext
    exact ⟨(isListed_keyText (hrs r hr)).enclosed, (isListed_keyText (hrs r hr)).nonempty⟩
  exact join_inj (List.mem_singleton.mpr rfl) rfl (hpieces hps) (hpieces hqs) heq

/-- The parameters in parentheses, or nothing if there are none. -/
def listed (ps : List ShownParameter) : String :=
  if ps.isEmpty then "" else "(" ++ keyTexts ps ++ ")"

theorem toList_listed (h : ps ≠ []) :
    (listed ps).toList = '(' :: ((keyTexts ps).toList ++ [')']) := by
  unfold listed
  rw [if_neg (by simpa using h), String.toList_append, String.toList_append, List.append_assoc]
  rfl

theorem listed_head : ∀ c ∈ (listed ps).toList.head?, c = '(' := by
  intro c hc
  by_cases hnone : ps = []
  · rw [hnone] at hc
    exact absurd hc (by simp [listed])
  · rw [toList_listed hnone] at hc
    exact (Option.mem_some_iff.mp hc).symm

theorem listed_inj (heq : (listed ps).toList = (listed qs).toList) :
    keyTexts ps = keyTexts qs := by
  by_cases hps : ps = [] <;> by_cases hqs : qs = []
  · rw [hps, hqs]
  · rw [toList_listed hqs, hps] at heq
    exact absurd heq (by simp [listed])
  · rw [toList_listed hps, hqs] at heq
    exact absurd heq (by simp [listed])
  · rw [toList_listed hps, toList_listed hqs] at heq
    exact String.toList_inj.mp (List.append_cancel_right (List.cons.inj heq).2)

/-- An identifier lists the parameters so where the declared types are the bound ones. -/
theorem declaredParameters_eq (h : ∀ p ∈ ps, p.type.declared = p.type.signature) :
    declaredParameters ps = listed ps := by
  have htexts : ps.map (fun p => parameterReference p.type.declared p.isByRef)
      = ps.map keyText :=
    List.map_congr_left fun p hp => by rw [keyText, h p hp]
  unfold declaredParameters listed keyTexts
  rw [htexts]

end ShownParameter

/-! ### Members -/

namespace Member

/-- What the identifier of the member stands for. -/
def idKind : Member → DocId.Kind
  | field _ => .field
  | property _ => .property
  | event _ => .event
  | method _ => .method

/-- The name in the metadata. -/
def metadataName : Member → String
  | field f => f.name
  | property p => p.name
  | event e => e.name
  | method m => m.metadataName

/-- The parameters of a method or an indexer. -/
def parameters : Member → List ShownParameter
  | field _ => []
  | property p => p.parameters
  | event _ => []
  | method m => m.parameters

/-- The characters by which an identifier ends a name, and those it puts in the place of others. -/
def nameMarks : List Char := ['(', arityMark, '~', '#', '\x7b', '\x7d']

/-- The name has none of the marks, and the types of the parameters are proper. -/
structure Legible (a : Member) : Prop where
  name : ∀ c ∈ a.metadataName.toList, c ∉ nameMarks
  parameters : ∀ p ∈ a.parameters, p.type.signature.Proper

/-- The member is seen on its own: what it shows is what was declared. -/
structure Unbound (a : Member) : Prop where
  parameters : ∀ p ∈ a.parameters, p.type.declared = p.type.signature
  result : ∀ m, a = .method m → m.returnType.declared = m.returnType.signature

end Member

/-! ### Methods -/

/-- What stands for a character of a method's name in an identifier. -/
def documentedChar (c : Char) : Char :=
  if c = '.' then '#' else if c = '<' then '\x7b' else if c = '>' then '\x7d' else c

/-- The character that another one stands for. -/
def plainChar (c : Char) : Char :=
  if c = '#' then '.' else if c = '\x7b' then '<' else if c = '\x7d' then '>' else c

theorem plainChar_documentedChar {c : Char} (hc : c ∉ ['#', '\x7b', '\x7d']) :
    plainChar (documentedChar c) = c := by
  simp only [List.mem_cons, List.not_mem_nil, or_false, not_or] at hc
  unfold documentedChar
  split_ifs with hdot hless hgreater
  · rw [hdot]; rfl
  · rw [hless]; rfl
  · rw [hgreater]; rfl
  · rw [plainChar, if_neg hc.1, if_neg hc.2.1, if_neg hc.2.2]

namespace ShownMethod

/-- Constructors are no exception: their name is replaced as any other would be. -/
theorem toList_documentedName (m : ShownMethod) :
    m.documentedName.toList = m.metadataName.toList.map documentedChar := by
  unfold documentedName
  split
  · rename_i hctor
    rw [hctor]
    decide
  · simp only [swap, String.toList_ofList, List.map_map]
    refine List.map_congr_left fun c _ => ?_
    simp only [Function.comp_apply, documentedChar]
    split_ifs <;> simp_all

theorem map_plainChar_documentedName {m : ShownMethod}
    (h : ∀ c ∈ m.metadataName.toList, c ∉ ['#', '\x7b', '\x7d']) :
    m.documentedName.toList.map plainChar = m.metadataName.toList := by
  rw [toList_documentedName, List.map_map]
  conv_rhs => rw [← List.map_id m.metadataName.toList]
  exact List.map_congr_left fun c hc => plainChar_documentedChar (h c hc)

/-- The identifier of a method behind the declaring type. -/
def idText (m : ShownMethod) : String :=
  m.documentedName ++ m.arityText ++ declaredParameters m.parameters
    ++ if m.isConversion then "~" ++ reference m.returnType.declared else ""

/-- The two methods have the same parts to compose a key or an identifier of. -/
structure SameParts (m m' : ShownMethod) : Prop where
  name : m.metadataName = m'.metadataName
  arity : m.arityText = m'.arityText
  parameters : ShownParameter.keyTexts m.parameters = ShownParameter.keyTexts m'.parameters
  tail : m.keyTail = m'.keyTail

theorem arityText_chars (m : ShownMethod) :
    (∀ c ∈ m.arityText.toList, c ∉ ['(', '~'])
      ∧ ∀ c ∈ m.arityText.toList.head?, c ∈ [arityMark] := by
  by_cases hplain : m.generics = []
  · rw [arityText_of_plain hplain]
    exact ⟨by simp, by simp⟩
  · rw [arityText_of_generic hplain]
    refine ⟨fun c hc => ?_, fun c hc => ?_⟩
    · rcases List.mem_cons.mp hc with rfl | hc
      · decide
      · rcases List.mem_cons.mp hc with rfl | hdigit
        · decide
        · have hkept : ∀ r ∈ ['(', '~'], r ∈ punctuation := forall_mem_of_all (by decide)
          exact fun hr => mem_naturalText hdigit (hkept c hr)
    · rw [List.head?_cons, Option.mem_some_iff] at hc
      exact List.mem_singleton.mpr hc.symm

/-- A name ends at the mark of the arity, and the arity at the parameters or the target. -/
theorem head_inj {m m' : ShownMethod} {name name' : String} {rest rest' : List Char}
    (hname : ∀ c ∈ name.toList, c ∉ ['(', '~', arityMark])
    (hname' : ∀ c ∈ name'.toList, c ∉ ['(', '~', arityMark])
    (hrest : ∀ c ∈ rest.head?, c ∈ ['(', '~']) (hrest' : ∀ c ∈ rest'.head?, c ∈ ['(', '~'])
    (heq : (name ++ m.arityText).toList ++ rest = (name' ++ m'.arityText).toList ++ rest') :
    name = name' ∧ m.arityText = m'.arityText ∧ rest = rest' := by
  have hfree : ∀ {name : String} (m : ShownMethod), (∀ c ∈ name.toList, c ∉ ['(', '~', arityMark]) →
      ∀ c ∈ (name ++ m.arityText).toList, c ∉ ['(', '~'] := by
    intro name m hname c hc
    rw [String.toList_append, List.mem_append] at hc
    rcases hc with hc | hc
    · exact fun hstop => hname c hc (List.mem_append_left [arityMark] hstop)
    · exact m.arityText_chars.1 c hc
  obtain ⟨hhead, hrestEq⟩ := headed_inj (hfree m hname) (hfree m' hname') hrest hrest' heq
  rw [String.toList_append, String.toList_append] at hhead
  obtain ⟨hnameEq, harity⟩ := headed_inj
    (fun c hc hmark => hname c hc (List.mem_append_right ['(', '~'] hmark))
    (fun c hc hmark => hname' c hc (List.mem_append_right ['(', '~'] hmark))
    m.arityText_chars.2 m'.arityText_chars.2 hhead
  exact ⟨String.toList_inj.mp hnameEq, String.toList_inj.mp harity, hrestEq⟩

section Parts

variable {m m' : ShownMethod} (h : (Member.method m).Legible) (h' : (Member.method m').Legible)

include h in
theorem metadataName_chars : ∀ c ∈ m.metadataName.toList, c ∉ ['(', '~', arityMark] := by
  have hkept : ∀ r ∈ ['(', '~', arityMark], r ∈ Member.nameMarks := forall_mem_of_all (by decide)
  exact fun c hc hmark => h.name c hc (hkept c hmark)

include h in
theorem documentedName_chars : ∀ c ∈ m.documentedName.toList, c ∉ ['(', '~', arityMark] := by
  intro c hc
  rw [toList_documentedName, List.mem_map] at hc
  obtain ⟨d, hd, rfl⟩ := hc
  unfold documentedChar
  split_ifs
  · decide
  · decide
  · decide
  · exact metadataName_chars h d hd

include h h'

theorem documentedName_inj (heq : m.documentedName = m'.documentedName) :
    m.metadataName = m'.metadataName := by
  have hkept : ∀ r ∈ ['#', '\x7b', '\x7d'], r ∈ Member.nameMarks := forall_mem_of_all (by decide)
  refine String.toList_inj.mp ?_
  rw [← map_plainChar_documentedName fun c hc hmark => h.name c hc (hkept c hmark),
    ← map_plainChar_documentedName fun c hc hmark => h'.name c hc (hkept c hmark), heq]

theorem identityKey_eq_iff_sameParts : m.identityKey = m'.identityKey ↔ m.SameParts m' := by
  rw [← String.toList_inj, toList_identityKey, toList_identityKey]
  constructor
  · intro heq
    obtain ⟨hname, harity, hrest⟩ := head_inj (metadataName_chars h) (metadataName_chars h')
      (by simp) (by simp) heq
    obtain ⟨hparams, htail⟩ := first_inj (ShownParameter.closing_notMem_keyTexts h.parameters)
      (ShownParameter.closing_notMem_keyTexts h'.parameters) (List.cons.inj hrest).2
    exact ⟨hname, harity, String.toList_inj.mp hparams, String.toList_inj.mp htail⟩
  · rintro ⟨hname, harity, hparams, htail⟩
    rw [keyHead, keyHead, hname, harity, hparams, htail]

end Parts

/-- What an identifier has behind the name and the arity. -/
def idRest (m : ShownMethod) : String := ShownParameter.listed m.parameters ++ m.keyTail

theorem idText_eq {m : ShownMethod} (h : (Member.method m).Unbound) :
    m.idText = m.documentedName ++ m.arityText ++ m.idRest := by
  have hparams : declaredParameters m.parameters = ShownParameter.listed m.parameters :=
    ShownParameter.declaredParameters_eq h.parameters
  unfold idText idRest keyTail
  rw [hparams, h.result m rfl, ← String.append_assoc]

theorem toList_idRest_of_parameters {m : ShownMethod} (h : m.parameters ≠ []) :
    m.idRest.toList
      = '(' :: ((ShownParameter.keyTexts m.parameters).toList ++ ')' :: m.keyTail.toList) := by
  unfold idRest
  rw [String.toList_append, ShownParameter.toList_listed h, List.cons_append, List.append_assoc]
  rfl

theorem idRest_of_no_parameters {m : ShownMethod} (h : m.parameters = []) :
    m.idRest = m.keyTail := by
  unfold idRest
  rw [h]
  exact String.empty_append

theorem keyTail_head (m : ShownMethod) : ∀ c ∈ m.keyTail.toList.head?, c = '~' := by
  intro c hc
  unfold keyTail at hc
  split at hc
  · rw [String.toList_append] at hc
    exact (Option.mem_some_iff.mp hc).symm
  · exact absurd hc (by simp)

theorem idRest_head (m : ShownMethod) : ∀ c ∈ m.idRest.toList.head?, c ∈ ['(', '~'] := by
  intro c hc
  by_cases hnone : m.parameters = []
  · rw [idRest_of_no_parameters hnone] at hc
    rw [m.keyTail_head c hc]
    decide
  · rw [toList_idRest_of_parameters hnone] at hc
    rw [← Option.mem_some_iff.mp hc]
    decide

/-- An empty parameter list is left out, and still nothing else looks like that. -/
theorem idRest_inj {m m' : ShownMethod} (h : (Member.method m).Legible)
    (h' : (Member.method m').Legible) (heq : m.idRest.toList = m'.idRest.toList) :
    ShownParameter.keyTexts m.parameters = ShownParameter.keyTexts m'.parameters
      ∧ m.keyTail = m'.keyTail := by
  have hmixed : ∀ {a b : ShownMethod}, a.parameters = [] → b.parameters ≠ [] →
      a.idRest.toList ≠ b.idRest.toList := by
    intro a b hnone hsome hab
    rw [idRest_of_no_parameters hnone, toList_idRest_of_parameters hsome] at hab
    exact absurd (a.keyTail_head '(' (by rw [hab]; rfl)) (by decide)
  by_cases hnone : m.parameters = []
  · by_cases hnone' : m'.parameters = []
    · rw [idRest_of_no_parameters hnone, idRest_of_no_parameters hnone'] at heq
      exact ⟨by rw [hnone, hnone'], String.toList_inj.mp heq⟩
    · exact absurd heq (hmixed hnone hnone')
  · by_cases hnone' : m'.parameters = []
    · exact absurd heq.symm (hmixed hnone' hnone)
    · rw [toList_idRest_of_parameters hnone, toList_idRest_of_parameters hnone'] at heq
      obtain ⟨hparams, htail⟩ := first_inj (ShownParameter.closing_notMem_keyTexts h.parameters)
        (ShownParameter.closing_notMem_keyTexts h'.parameters) (List.cons.inj heq).2
      exact ⟨String.toList_inj.mp hparams, String.toList_inj.mp htail⟩

theorem idText_eq_iff_sameParts {m m' : ShownMethod} (h : (Member.method m).Legible)
    (h' : (Member.method m').Legible) (hown : (Member.method m).Unbound)
    (hown' : (Member.method m').Unbound) : m.idText = m'.idText ↔ m.SameParts m' := by
  rw [idText_eq hown, idText_eq hown']
  constructor
  · intro heq
    have hlist : (m.documentedName ++ m.arityText).toList ++ m.idRest.toList
        = (m'.documentedName ++ m'.arityText).toList ++ m'.idRest.toList := by
      rw [← String.toList_append, ← String.toList_append, heq]
    obtain ⟨hname, harity, hrest⟩ := head_inj (documentedName_chars h) (documentedName_chars h')
      m.idRest_head m'.idRest_head hlist
    obtain ⟨hparams, htail⟩ := idRest_inj h h' hrest
    exact ⟨documentedName_inj h h' hname, harity, hparams, htail⟩
  · rintro ⟨hname, harity, hparams, htail⟩
    have hm : ShownParameter.keyTexts m.parameters = "" ↔ m.parameters = [] :=
      ShownParameter.keyTexts_eq_empty_iff h.parameters
    have hm' : ShownParameter.keyTexts m'.parameters = "" ↔ m'.parameters = [] :=
      ShownParameter.keyTexts_eq_empty_iff h'.parameters
    have hempty : m.parameters.isEmpty = m'.parameters.isEmpty := by
      rw [Bool.eq_iff_iff, List.isEmpty_iff, List.isEmpty_iff, ← hm, ← hm', hparams]
    rw [documentedName, documentedName, idRest, idRest, ShownParameter.listed,
      ShownParameter.listed, hname, harity, hparams, htail, hempty]

end ShownMethod

/-! ### Identifiers of members -/

/-- An identifier begins with the letter of its kind. -/
theorem DocId.head_ofMember (kind : DocId.Kind) (owner : ShownOwner) (name : String) :
    (ofMember kind owner name).toList.head? = kind.letter.toList.head? := by
  simp only [ofMember, String.toList_append]
  cases kind <;> rfl

theorem DocId.ofMember_inj {kind kind' : DocId.Kind} {owner : ShownOwner} {name name' : String} :
    ofMember kind owner name = ofMember kind' owner name' ↔ kind = kind' ∧ name = name' := by
  constructor
  · intro h
    have hletter : kind.letter.toList.head? = kind'.letter.toList.head? := by
      rw [← head_ofMember kind owner name, h, head_ofMember]
    have hkind : kind = kind' := by
      revert hletter
      cases kind <;> cases kind' <;> decide
    subst hkind
    exact ⟨rfl, by simpa [ofMember] using h⟩
  · rintro ⟨rfl, rfl⟩
    rfl

namespace Member

/-- The identifier of a member behind the declaring type. -/
def idText : Member → String
  | field f => f.name
  | property p => p.name ++ declaredParameters p.parameters
  | event e => e.name
  | method m => m.idText

theorem docId_eq (a : Member) : a.docId = ofMember a.idKind a.owner a.idText := by
  cases a with
  | field f => rfl
  | property p => exact String.append_assoc ..
  | event e => rfl
  | method m =>
      simp only [docId, ShownMethod.docId, idText, ShownMethod.idText, ofMember, idKind, owner,
        String.append_assoc]

theorem unbound_of_mem {decl : TypeDecl} {ignorePrivate : Bool} {a : Member}
    (h : a ∈ (⟨decl, .empty⟩ : Level).members ignorePrivate) :
    a.owner = .of decl ∧ a.Unbound := by
  have hparams : ∀ params : List ParameterDecl, ∀ p ∈ params.map (ShownParameter.of .empty),
      p.type.declared = p.type.signature := by
    intro params p hp
    obtain ⟨param, -, rfl⟩ := List.mem_map.mp hp
    rfl
  have hnone : ∀ p ∈ ([] : List ShownParameter), p.type.declared = p.type.signature :=
    fun p hp => absurd hp List.not_mem_nil
  simp only [Level.members, List.mem_append, or_assoc] at h
  rcases h with h | h | h | h
  · obtain ⟨f, hf, rfl⟩ := List.mem_map.mp h
    obtain ⟨field, -, rfl⟩ := List.mem_map.mp hf
    exact ⟨rfl, hnone, fun _ hm => by cases hm⟩
  · obtain ⟨p, hp, rfl⟩ := List.mem_map.mp h
    obtain ⟨property, -, rfl⟩ := List.mem_map.mp hp
    exact ⟨rfl, hparams property.parameters, fun _ hm => by cases hm⟩
  · obtain ⟨e, he, rfl⟩ := List.mem_map.mp h
    obtain ⟨event, -, rfl⟩ := List.mem_map.mp he
    exact ⟨rfl, hnone, fun _ hm => by cases hm⟩
  · obtain ⟨m, hm, rfl⟩ := List.mem_map.mp h
    obtain ⟨method, -, rfl⟩ := List.mem_map.mp hm
    refine ⟨rfl, hparams method.parameters, ?_⟩
    rintro _ ⟨⟩
    rfl

theorem exists_method {a : Member} (h : a.idKind = .method) : ∃ m, a = .method m := by
  cases a with
  | method m => exact ⟨m, rfl⟩
  | field f => cases h
  | property p => cases h
  | event e => cases h

/-- The keys of all members but methods are their names with their parameters, if they have any. -/
theorem identityKey_eq_listed {a : Member} (hkind : a.idKind ≠ .method) :
    a.identityKey = a.metadataName ++ ShownParameter.listed a.parameters := by
  cases a with
  | field f => exact String.append_empty.symm
  | event e => exact String.append_empty.symm
  | method m => exact absurd rfl hkind
  | property p =>
      show p.identityKey = p.name ++ ShownParameter.listed p.parameters
      rw [ShownProperty.identityKey, ShownProperty.isIndexer]
      cases p.parameters with
      | nil => exact String.append_empty.symm
      | cons first rest => rfl

/-- Behind the declaring type, their identifiers have the same text. -/
theorem idText_eq_identityKey {a : Member} (h : a.Unbound) (hkind : a.idKind ≠ .method) :
    a.idText = a.identityKey := by
  rw [identityKey_eq_listed hkind]
  cases a with
  | field f => exact String.append_empty.symm
  | event e => exact String.append_empty.symm
  | method m => exact absurd rfl hkind
  | property p => exact congrArg (p.name ++ ·) (ShownParameter.declaredParameters_eq h.parameters)

section Pairs

variable {a b : Member} (hla : a.Legible) (hlb : b.Legible) (hkind : a.idKind = b.idKind)

include hla hlb hkind

theorem idText_eq_iff (ha : a.Unbound) (hb : b.Unbound) :
    a.idText = b.idText ↔ a.identityKey = b.identityKey := by
  by_cases hmethod : a.idKind = .method
  · obtain ⟨m, rfl⟩ := exists_method hmethod
    obtain ⟨m', rfl⟩ := exists_method (hkind.symm.trans hmethod)
    exact (ShownMethod.idText_eq_iff_sameParts hla hlb ha hb).trans
      (ShownMethod.identityKey_eq_iff_sameParts hla hlb).symm
  · rw [idText_eq_identityKey ha hmethod, idText_eq_identityKey hb (hkind ▸ hmethod)]

/-- A key tells the name and the list of the parameters. -/
theorem parts_of_identityKey (h : a.identityKey = b.identityKey) :
    a.metadataName = b.metadataName
      ∧ ShownParameter.keyTexts a.parameters = ShownParameter.keyTexts b.parameters := by
  by_cases hmethod : a.idKind = .method
  · obtain ⟨m, rfl⟩ := exists_method hmethod
    obtain ⟨m', rfl⟩ := exists_method (hkind.symm.trans hmethod)
    have hsame := (ShownMethod.identityKey_eq_iff_sameParts hla hlb).mp h
    exact ⟨hsame.name, hsame.parameters⟩
  · rw [identityKey_eq_listed hmethod, identityKey_eq_listed (hkind ▸ hmethod)] at h
    have hname : ∀ {c : Member}, c.Legible → ∀ d ∈ c.metadataName.toList, d ∉ ['('] :=
      fun hc d hd hmark => hc.name d hd (List.mem_append_left _ hmark)
    have hlist := congrArg String.toList h
    rw [String.toList_append, String.toList_append] at hlist
    obtain ⟨hnames, hparams⟩ := headed_inj (hname hla) (hname hlb)
      (fun c hc => List.mem_singleton.mpr (ShownParameter.listed_head c hc))
      (fun c hc => List.mem_singleton.mpr (ShownParameter.listed_head c hc)) hlist
    exact ⟨String.toList_inj.mp hnames, ShownParameter.listed_inj hparams⟩

end Pairs

/--
**Identifiers tell the members of a type apart.**  Let two members of a type be seen on their own,
with names that have no mark of identifiers in them and with proper parameter types.  They have the
same identifier if and only if their identifiers are of one kind and their keys are the same.  Then
they have the same name, and the same parameters as far as references can tell; where references
tell all, the parameters agree one by one.
-/
theorem docId_eq_iff_identityKey_eq {decl : TypeDecl} {ignorePrivate : Bool} {a b : Member}
    (ha : a ∈ (⟨decl, .empty⟩ : Level).members ignorePrivate)
    (hb : b ∈ (⟨decl, .empty⟩ : Level).members ignorePrivate) (hla : a.Legible)
    (hlb : b.Legible) :
    (a.docId = b.docId ↔ a.idKind = b.idKind ∧ a.identityKey = b.identityKey) ∧
    (a.docId = b.docId → a.metadataName = b.metadataName ∧
      a.parameters.map ShownParameter.keyText = b.parameters.map ShownParameter.keyText ∧
      ((∀ p ∈ a.parameters ++ b.parameters, p.type.signature.WellFormed) →
        List.Forall₂ ShownParameter.Agrees a.parameters b.parameters)) := by
  obtain ⟨howner, hown⟩ := unbound_of_mem ha
  obtain ⟨howner', hown'⟩ := unbound_of_mem hb
  have hiff : a.docId = b.docId ↔ a.idKind = b.idKind ∧ a.identityKey = b.identityKey := by
    rw [docId_eq, docId_eq, howner, howner', ofMember_inj]
    exact and_congr_right fun hkind => idText_eq_iff hla hlb hkind hown hown'
  refine ⟨hiff, fun hid => ?_⟩
  obtain ⟨hkind, hkey⟩ := hiff.mp hid
  obtain ⟨hname, htexts⟩ := parts_of_identityKey hla hlb hkind hkey
  have hmap := ShownParameter.map_keyText_of_keyTexts hla.parameters hlb.parameters htexts
  refine ⟨hname, hmap, fun hwf => ?_⟩
  exact (ShownParameter.map_keyText_eq_iff (fun p hp => hwf p (List.mem_append_left _ hp))
    fun q hq => hwf q (List.mem_append_right _ hq)).mp hmap

/-- The method `returnType Add(type item)`. -/
def addDecl (returnType type : Signature) : MethodDecl :=
  { MethodDecl.bare "Add" with
    returnType
    parameters := [⟨"item", 0, type, none, []⟩] }

/-- The class `Bag` with two overloads of `Add`, and a second method like the first one that
returns something. -/
def bagDecl : TypeDecl :=
  { TypeDecl.bare (.top "Game" "Bag" none) with
    methods := [addDecl (.primitive .void) (.primitive .int32),
      addDecl (.primitive .void) (.byRef (.primitive .int32)),
      addDecl (.primitive .boolean) (.primitive .int32)] }

/-- A method of `Bag` as a member. -/
def bagMember (method : MethodDecl) : Member :=
  .method (.of (.of bagDecl) bagDecl.isInterface .empty true method)

theorem bagMember_legible (returnType : Signature) {type : Signature}
    (h : type.stripByRef.Proper) : (bagMember (addDecl returnType type)).Legible := by
  have hname : ∀ c ∈ "Add".toList, c ∉ nameMarks := forall_mem_of_all (by decide)
  refine ⟨hname, fun p hp => ?_⟩
  rw [List.mem_singleton.mp hp]
  exact h

/-- The overloads of `Add` have different identifiers; what it returns makes no difference. -/
theorem docId_eq_iff_identityKey_eq_bag :
    (bagMember (addDecl (.primitive .void) (.primitive .int32))).docId
        ≠ (bagMember (addDecl (.primitive .void) (.byRef (.primitive .int32)))).docId
      ∧ (bagMember (addDecl (.primitive .void) (.primitive .int32))).docId
        = (bagMember (addDecl (.primitive .boolean) (.primitive .int32))).docId := by
  have hlegible : ∀ returnType, (bagMember (addDecl returnType (.primitive .int32))).Legible :=
    fun returnType => bagMember_legible returnType (.primitive .int32)
  have hbyRef : (bagMember (addDecl (.primitive .void) (.byRef (.primitive .int32)))).Legible :=
    bagMember_legible (.primitive .void) (.primitive .int32)
  have hmem : ∀ method ∈ bagDecl.methods,
      bagMember method ∈ (⟨bagDecl, .empty⟩ : Level).members true := by
    intro method hmethod
    exact List.mem_append_right _ (List.mem_map_of_mem (List.mem_map_of_mem hmethod))
  have hfirst := hmem _ List.mem_cons_self
  constructor
  · intro heq
    have hparams := ((docId_eq_iff_identityKey_eq hfirst
      (hmem _ (List.mem_cons_of_mem _ List.mem_cons_self)) (hlegible _) hbyRef).2 heq).2.1
    exact absurd hparams (by decide)
  · have hkind : ∀ method, (bagMember method).idKind = .method := fun _ => rfl
    have hkey : ∀ returnType, (bagMember (addDecl returnType (.primitive .int32))).identityKey
        = "Add(System.Int32)" := fun _ => rfl
    refine (docId_eq_iff_identityKey_eq hfirst
      (hmem _ (List.mem_cons_of_mem _ (List.mem_cons_of_mem _ List.mem_cons_self))) (hlegible _)
      (hlegible _)).1.mpr ⟨(hkind _).trans (hkind _).symm, (hkey _).trans (hkey _).symm⟩

end Member

end ApiSurface
