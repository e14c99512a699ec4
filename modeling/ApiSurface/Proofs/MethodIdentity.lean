/-
Methods with the same key have the same signature.

A method hides the inherited ones that have its key, and the key is a flat text:
the name, the number of generic parameters, the bound parameter types and, for
conversions, the bound target.  What is proved here is that the text loses
nothing that tells two overloads apart.

The key is cut at its first opening parenthesis and then at its first closing
one.  Neither name nor number has the one, and no reference has the other, so
both cuts fall in the same place in two equal keys; each of the three parts is
then read back on its own.
-/
import ApiSurface.Member.Method
import ApiSurface.Proofs.ReferenceText
import Mathlib.Data.List.Forall2

namespace ApiSurface

open Text DocId

/-! ### Parameters -/

/-- The two parameters are passed alike, and their bound types agree. -/
structure ShownParameter.Agrees (p q : ShownParameter) : Prop where
  isByRef : p.isByRef = q.isByRef
  type : p.type.signature.Agrees q.type.signature

namespace ShownParameter

/-- What a key shows of a parameter. -/
def keyText (p : ShownParameter) : String := parameterReference p.type.signature p.isByRef

theorem keyText_of_not_byRef {p : ShownParameter} (h : p.isByRef = false) :
    p.keyText = reference p.type.signature := by
  rw [keyText, parameterReference, h]
  exact String.append_empty

theorem keyText_of_byRef {p : ShownParameter} (h : p.isByRef = true) :
    p.keyText = reference p.type.signature ++ "@" := by
  rw [keyText, parameterReference, h]
  rfl

variable {p q : ShownParameter}

/-- The text of a parameter can stand in a list, and the parenthesis does not occur in it. -/
theorem keyText_text (h : p.type.signature.WellFormed) :
    (Enclosed [','] p.keyText.toList ∧ p.keyText ≠ "") ∧ ')' ∉ p.keyText.toList := by
  have href := h.isReference
  have hclosing : ')' ∉ (reference p.type.signature).toList :=
    fun hmem => href.free _ hmem (by decide)
  cases hbyRef : p.isByRef with
  | false =>
      rw [keyText_of_not_byRef hbyRef]
      exact ⟨⟨href.enclosed, href.nonempty⟩, hclosing⟩
  | true =>
      rw [keyText_of_byRef hbyRef, String.toList_append]
      refine ⟨⟨href.enclosed.append (.of_plain (forall_mem_of_all (by decide))), fun hempty => ?_⟩,
        fun hmem => ?_⟩
      · exact href.nonempty (String.append_eq_empty_iff.mp hempty).1
      · rcases List.mem_append.mp hmem with hmem | hmem
        · exact hclosing hmem
        · exact absurd hmem (by decide)

/-- A parameter by reference ends with a mark that no reference has. -/
theorem keyText_ne (hp : p.type.signature.WellFormed) (hpRef : p.isByRef = false)
    (hqRef : q.isByRef = true) : p.keyText ≠ q.keyText := by
  intro heq
  rw [keyText_of_not_byRef hpRef, keyText_of_byRef hqRef] at heq
  have hmem : '@' ∈ (reference p.type.signature).toList := by
    rw [heq, String.toList_append]
    exact List.mem_append_right _ (by decide)
  exact hp.isReference.free _ hmem (by decide)

theorem keyText_eq_iff (hp : p.type.signature.WellFormed) (hq : q.type.signature.WellFormed) :
    p.keyText = q.keyText ↔ p.Agrees q := by
  have htypes : reference p.type.signature = reference q.type.signature
      ↔ p.type.signature.Agrees q.type.signature := hp.faithful hq
  cases hpRef : p.isByRef <;> cases hqRef : q.isByRef
  · rw [keyText_of_not_byRef hpRef, keyText_of_not_byRef hqRef, htypes]
    exact ⟨fun h => ⟨hpRef.trans hqRef.symm, h⟩, fun h => h.type⟩
  · exact ⟨fun heq => absurd heq (keyText_ne hp hpRef hqRef),
      fun h => absurd (hpRef.symm.trans (h.isByRef.trans hqRef)) (by decide)⟩
  · exact ⟨fun heq => absurd heq.symm (keyText_ne hq hqRef hpRef),
      fun h => absurd (hpRef.symm.trans (h.isByRef.trans hqRef)) (by decide)⟩
  · rw [keyText_of_byRef hpRef, keyText_of_byRef hqRef, String.append_left_inj, htypes]
    exact ⟨fun h => ⟨hpRef.trans hqRef.symm, h⟩, fun h => h.type⟩

theorem map_keyText_eq_iff {ps qs : List ShownParameter}
    (hps : ∀ p ∈ ps, p.type.signature.WellFormed) (hqs : ∀ q ∈ qs, q.type.signature.WellFormed) :
    ps.map keyText = qs.map keyText ↔ List.Forall₂ Agrees ps qs := by
  induction ps generalizing qs with
  | nil => rw [List.map_nil, List.nil_eq, List.map_eq_nil_iff, List.forall₂_nil_left_iff]
  | cons p ps ih =>
      cases qs with
      | nil => simp
      | cons q qs =>
          have hhead := keyText_eq_iff (hps p List.mem_cons_self) (hqs q List.mem_cons_self)
          have htail := ih (fun p' hp' => hps p' (List.mem_cons_of_mem p hp'))
            (fun q' hq' => hqs q' (List.mem_cons_of_mem q hq'))
          rw [List.map_cons, List.map_cons, List.cons.injEq, hhead, htail, List.forall₂_cons]

/-- The texts of the parameters with commas between them. -/
def keyTexts (ps : List ShownParameter) : String := join "," (ps.map keyText)

theorem keyTexts_eq_iff {ps qs : List ShownParameter}
    (hps : ∀ p ∈ ps, p.type.signature.WellFormed) (hqs : ∀ q ∈ qs, q.type.signature.WellFormed) :
    keyTexts ps = keyTexts qs ↔ List.Forall₂ Agrees ps qs := by
  have hpieces : ∀ {rs : List ShownParameter}, (∀ r ∈ rs, r.type.signature.WellFormed) →
      ∀ text ∈ rs.map keyText, Enclosed [','] text.toList ∧ text ≠ "" := by
    intro rs hrs text htext
    obtain ⟨r, hr, rfl⟩ := List.mem_map.mp htext
    exact (keyText_text (hrs r hr)).1
  rw [← map_keyText_eq_iff hps hqs]
  refine ⟨fun heq => ?_, fun heq => congrArg (join ",") heq⟩
  exact join_inj (List.mem_singleton.mpr rfl) rfl (hpieces hps) (hpieces hqs) heq

theorem notMem_keyTexts {ps : List ShownParameter} (hps : ∀ p ∈ ps, p.type.signature.WellFormed) :
    ')' ∉ (keyTexts ps).toList := by
  intro hmem
  rcases mem_toList_join hmem with hcomma | ⟨text, htext, hmem'⟩
  · exact absurd hcomma (by decide)
  · obtain ⟨p, hp, rfl⟩ := List.mem_map.mp htext
    exact (keyText_text (hps p hp)).2 hmem'

end ShownParameter

/-! ### The parts of a key -/

namespace ShownMethod

/-- What keys rely on: the name has neither parenthesis nor arity mark, and the types that a key
shows are well formed. -/
structure WellFormed (m : ShownMethod) : Prop where
  name : '(' ∉ m.metadataName.toList ∧ arityMark ∉ m.metadataName.toList
  parameters : ∀ p ∈ m.parameters, p.type.signature.WellFormed
  result : m.isConversion = true → m.returnType.signature.WellFormed

/-- The part of a key before the parameters. -/
def keyHead (m : ShownMethod) : String := m.metadataName ++ m.arityText

/-- The part of a key behind the parameters. -/
def keyTail (m : ShownMethod) : String :=
  if m.isConversion then "~" ++ reference m.returnType.signature else ""

theorem toList_identityKey (m : ShownMethod) :
    m.identityKey.toList = m.keyHead.toList
      ++ '(' :: ((ShownParameter.keyTexts m.parameters).toList ++ ')' :: m.keyTail.toList) := by
  have hparts : m.identityKey
      = m.keyHead ++ ("(" ++ ShownParameter.keyTexts m.parameters ++ ")") ++ m.keyTail := rfl
  rw [hparts]
  simp only [String.toList_append, List.append_assoc]
  rfl

theorem arityText_of_generic {m : ShownMethod} (h : m.generics ≠ []) :
    m.arityText.toList
      = arityMark :: arityMark :: (naturalText m.generics.length).toList := by
  rw [arityText, if_neg (by simpa using h), String.toList_append]
  rfl

theorem arityText_of_plain {m : ShownMethod} (h : m.generics = []) : m.arityText = "" := by
  rw [arityText, h]
  rfl

variable {m m' : ShownMethod}

theorem notMem_keyHead (h : m.WellFormed) : '(' ∉ m.keyHead.toList := by
  intro hmem
  rw [keyHead, String.toList_append, List.mem_append] at hmem
  rcases hmem with hname | harity
  · exact h.name.1 hname
  · by_cases hplain : m.generics = []
    · rw [arityText_of_plain hplain] at harity
      exact absurd harity (by simp)
    · rw [arityText_of_generic hplain, List.mem_cons, List.mem_cons] at harity
      rcases harity with hmark | hmark | hdigit
      · exact absurd hmark (by decide)
      · exact absurd hmark (by decide)
      · exact mem_naturalText hdigit (by decide)

/-- Only a generic method has the mark in the head of its key. -/
theorem keyHead_ne (h : m.WellFormed) (hplain : m.generics = []) (hgeneric : m'.generics ≠ []) :
    m.keyHead ≠ m'.keyHead := by
  intro heq
  have hmem : arityMark ∈ m.keyHead.toList := by
    rw [heq, keyHead, String.toList_append, arityText_of_generic hgeneric]
    exact List.mem_append_right _ List.mem_cons_self
  rw [keyHead, arityText_of_plain hplain, String.append_empty] at hmem
  exact h.name.2 hmem

theorem keyHead_eq_iff (h : m.WellFormed) (h' : m'.WellFormed) :
    m.keyHead = m'.keyHead
      ↔ m.metadataName = m'.metadataName ∧ m.generics.length = m'.generics.length := by
  refine ⟨fun heq => ?_, fun ⟨hname, harity⟩ => ?_⟩
  · by_cases hplain : m.generics = []
    · by_cases hplain' : m'.generics = []
      · unfold keyHead at heq
        rw [arityText_of_plain hplain, arityText_of_plain hplain', String.append_left_inj] at heq
        exact ⟨heq, by rw [hplain, hplain']⟩
      · exact absurd heq (keyHead_ne h hplain hplain')
    · by_cases hplain' : m'.generics = []
      · exact absurd heq.symm (keyHead_ne h' hplain' hplain)
      · have hlist := congrArg String.toList heq
        unfold keyHead at hlist
        rw [String.toList_append, String.toList_append, arityText_of_generic hplain,
          arityText_of_generic hplain'] at hlist
        obtain ⟨hname, hdigits⟩ := first_inj h.name.2 h'.name.2 hlist
        exact ⟨String.toList_inj.mp hname,
          naturalText_inj.mp (String.toList_inj.mp (List.cons.inj hdigits).2)⟩
  · have hplain : m.generics.isEmpty = m'.generics.isEmpty := by
      rw [Bool.eq_iff_iff, List.isEmpty_iff_length_eq_zero, List.isEmpty_iff_length_eq_zero, harity]
    rw [keyHead, keyHead, arityText, arityText, hname, hplain, harity]

theorem keyTail_eq_iff (h : m.WellFormed) (h' : m'.WellFormed) :
    m.keyTail = m'.keyTail ↔ m.isConversion = m'.isConversion
      ∧ (m.isConversion = true → m.returnType.signature.Agrees m'.returnType.signature) := by
  cases hconv : m.isConversion <;> cases hconv' : m'.isConversion
  · simp [keyTail, hconv, hconv']
  · simp [keyTail, hconv, hconv']
  · simp [keyTail, hconv, hconv']
  · have htypes : reference m.returnType.signature = reference m'.returnType.signature
        ↔ m.returnType.signature.Agrees m'.returnType.signature :=
      (h.result hconv).faithful (h'.result hconv')
    simp [keyTail, hconv, hconv', String.append_right_inj, htypes]

/-- The cuts fall in the same place in two equal keys. -/
theorem identityKey_eq_iff_parts (h : m.WellFormed) (h' : m'.WellFormed) :
    m.identityKey = m'.identityKey ↔ m.keyHead = m'.keyHead
      ∧ ShownParameter.keyTexts m.parameters = ShownParameter.keyTexts m'.parameters
      ∧ m.keyTail = m'.keyTail := by
  rw [← String.toList_inj, toList_identityKey, toList_identityKey]
  refine ⟨fun heq => ?_, fun ⟨hhead, hparams, htail⟩ => by rw [hhead, hparams, htail]⟩
  obtain ⟨hhead, hrest⟩ := first_inj (notMem_keyHead h) (notMem_keyHead h') heq
  obtain ⟨hparams, htail⟩ := first_inj (ShownParameter.notMem_keyTexts h.parameters)
    (ShownParameter.notMem_keyTexts h'.parameters) hrest
  exact ⟨String.toList_inj.mp hhead, String.toList_inj.mp hparams, String.toList_inj.mp htail⟩

/-! ### Methods with the same key -/

/-- The method is the shown form of some declaration, seen through some binding. -/
def IsShown (m : ShownMethod) : Prop :=
  ∃ owner inInterface binding ignorePrivate decl,
    m = ShownMethod.of owner inInterface binding ignorePrivate decl

/-- Conversions are told by their names. -/
theorem IsShown.isConversion_eq (h : m.IsShown) (h' : m'.IsShown)
    (hname : m.metadataName = m'.metadataName) : m.isConversion = m'.isConversion := by
  obtain ⟨owner, inInterface, binding, ignorePrivate, decl, rfl⟩ := h
  obtain ⟨owner', inInterface', binding', ignorePrivate', decl', rfl⟩ := h'
  have hdecl : decl.name = decl'.name := hname
  show (decide (decl.name = _) || decide (decl.name = _))
    = (decide (decl'.name = _) || decide (decl'.name = _))
  rw [hdecl]

/-- The two methods have the same signature: name, number of generic parameters, parameters one
by one and, for conversions, target. -/
structure Matches (m m' : ShownMethod) : Prop where
  name : m.metadataName = m'.metadataName
  arity : m.generics.length = m'.generics.length
  parameters : List.Forall₂ ShownParameter.Agrees m.parameters m'.parameters
  result : m.isConversion = true → m.returnType.signature.Agrees m'.returnType.signature

/-- **A method hides exactly the methods of the same signature**: two keys are equal if and only if
the methods match. -/
theorem identityKey_eq_iff_matches (hm : m.IsShown) (hm' : m'.IsShown) (h : m.WellFormed)
    (h' : m'.WellFormed) : m.identityKey = m'.identityKey ↔ m.Matches m' := by
  rw [identityKey_eq_iff_parts h h', keyHead_eq_iff h h',
    ShownParameter.keyTexts_eq_iff h.parameters h'.parameters, keyTail_eq_iff h h']
  refine ⟨fun ⟨⟨hname, harity⟩, hparams, _, hresult⟩ => ⟨hname, harity, hparams, hresult⟩,
    fun hmatch => ?_⟩
  exact ⟨⟨hmatch.name, hmatch.arity⟩, hmatch.parameters,
    hm.isConversion_eq hm' hmatch.name, hmatch.result⟩

/-- The reference `Game.Shelf<size>.Slot<parameter>`. -/
def slotOf (size : Signature) (parameter : String) : Signature :=
  .instantiation (.named (.nested (.top "Game" "Shelf`1" none) "Slot`1" none))
    [size, .parameter .method 0 parameter]

/-- The method `void Fold<parameter>(Shelf<size>.Slot<parameter> slot, sizes sizes)`. -/
def foldDecl (size : Signature) (parameter : String) (sizes : Signature) : MethodDecl :=
  { MethodDecl.bare "Fold" with
    parameters := [⟨"slot", 0, slotOf size parameter, none, []⟩, ⟨"sizes", 0, sizes, none, []⟩]
    generics := [⟨.method, 0, parameter, 0, []⟩] }

/-- The owner of a method in the namespace `Game`. -/
def ownerNamed (name : String) : ShownOwner :=
  ⟨"Game." ++ name, name, "Game." ++ name, "Game", [], .inSpace "Game" name⟩

/-- `Fold` with `ref T[]`, of a base that binds `T` to `int`. -/
def inheritedFold : ShownMethod :=
  .of (ownerNamed "Store") false ⟨[.primitive .int32]⟩ true
    (foldDecl (.parameter .type 0 "T") "V" (.byRef (.array (.parameter .type 0 "T") 1)))

/-- `Fold` with `ref int[]`. -/
def declaredFold : ShownMethod :=
  .of (ownerNamed "Ints") false ⟨[]⟩ true
    (foldDecl (.primitive .int32) "U" (.byRef (.array (.primitive .int32) 1)))

/-- `Fold` with `int[]`, passed by value. -/
def valueFold : ShownMethod :=
  .of (ownerNamed "Ints") false ⟨[]⟩ true
    (foldDecl (.primitive .int32) "U" (.array (.primitive .int32) 1))

theorem slotOf_wellFormed (parameter : String) :
    (slotOf (.primitive .int32) parameter).WellFormed := by
  have hgame : IsSegment "Game" := .bare ⟨by decide, forall_mem_of_all (by decide)⟩
  have hshelf : IsSegment ("Shelf" ++ "`" ++ naturalText 1) :=
    .marked ⟨by decide, forall_mem_of_all (by decide)⟩ 1
  have hslot : IsSegment ("Slot" ++ "`" ++ naturalText 1) :=
    .marked ⟨by decide, forall_mem_of_all (by decide)⟩ 1
  have hspaces : ∀ space ∈ ["Game"], IsSegment space := by
    intro space hspace
    rw [List.mem_singleton.mp hspace]
    exact hgame
  refine .instantiation (.nested (.top hspaces hshelf none) hslot none) (List.cons_ne_nil _ _) rfl
    fun arg harg => ?_
  rcases List.mem_pair.mp harg with rfl | rfl
  · exact .primitive .int32
  · exact .parameter .method 0 parameter

theorem slotOf_agrees (size : Signature) (parameter parameter' : String) :
    (slotOf size parameter).Agrees (slotOf size parameter') := by
  simp only [Signature.Agrees, slotOf, Signature.canonical, Signature.canonicals]

theorem fold_wellFormed {m : ShownMethod} (hname : m.metadataName = "Fold")
    (hconv : m.isConversion = false) (parameter : String)
    (hparams : m.parameters.map (fun p => p.type.signature)
      = [slotOf (.primitive .int32) parameter, .array (.primitive .int32) 1]) : m.WellFormed := by
  refine ⟨by rw [hname]; decide, fun p hp => ?_, fun h => absurd (hconv.symm.trans h) (by decide)⟩
  have hmem : p.type.signature ∈ m.parameters.map fun p => p.type.signature :=
    List.mem_map_of_mem hp
  rw [hparams] at hmem
  rcases List.mem_pair.mp hmem with heq | heq
  · exact heq ▸ slotOf_wellFormed parameter
  · exact heq ▸ .array (.primitive .int32) 1

/-- The inherited method is hidden by the declared one and not by its overload. -/
theorem identityKey_inheritedFold :
    inheritedFold.identityKey = declaredFold.identityKey
      ∧ inheritedFold.identityKey ≠ valueFold.identityKey := by
  have hinherited : inheritedFold.WellFormed := fold_wellFormed rfl rfl "V" rfl
  have hdeclared : declaredFold.WellFormed := fold_wellFormed rfl rfl "U" rfl
  have hvalue : valueFold.WellFormed := fold_wellFormed rfl rfl "U" rfl
  refine ⟨?_, fun heq => ?_⟩
  · refine (identityKey_eq_iff_matches ⟨_, _, _, _, _, rfl⟩ ⟨_, _, _, _, _, rfl⟩ hinherited
      hdeclared).mpr ?_
    refine ⟨rfl, by decide, .cons ⟨rfl, ?_⟩ (.cons ⟨rfl, ?_⟩ .nil), fun h => absurd h (by decide)⟩
    · exact slotOf_agrees (.primitive .int32) "V" "U"
    · show Signature.Agrees (.array (.primitive .int32) 1) (.array (.primitive .int32) 1)
      rfl
  · have hmatch := (identityKey_eq_iff_matches ⟨_, _, _, _, _, rfl⟩ ⟨_, _, _, _, _, rfl⟩ hinherited
      hvalue).mp heq
    have hsizes := (List.forall₂_cons.mp (List.forall₂_cons.mp hmatch.parameters).2).1
    exact absurd hsizes.isByRef (by decide)

end ShownMethod

end ApiSurface
