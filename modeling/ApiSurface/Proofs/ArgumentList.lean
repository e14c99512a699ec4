/-
Reading an argument list back from a rendered name.

`Signature.rawName` writes two kinds of commas: those between the arguments of an
instantiation and those between the dimensions of an array.  `Name.arguments`
knows only angle brackets, so a comma of an array counts as a separator unless it
stands inside an inner argument list.  `Signature.outerRanks` lists the arrays of
a reference that stand outside all inner lists, and `argumentNames_rawName_iff`
says that the arguments come back exactly if none of these arrays has a second
dimension.

Both scans are followed through a text as a whole: `Name.Passes` says that the
search for the closing bracket runs over it, and `Name.KeptAt` that the splitter,
at some depth, takes all of it into the current piece.
-/
import ApiSurface.Name.Arity
import ApiSurface.Proofs.Path
import ApiSurface.Signature.Basic
import Mathlib.Data.List.Basic

namespace ApiSurface

namespace Name

/-- The character has no part in argument lists, and no trimming drops it. -/
def isInert (c : Char) : Bool := c ≠ '<' && c ≠ '>' && c ≠ ',' && !Text.isBlank c

theorem isInert_iff {c : Char} :
    isInert c = true ↔ (c ≠ '<' ∧ c ≠ '>') ∧ c ≠ ',' ∧ Text.isBlank c = false := by
  simp only [isInert, Bool.and_eq_true, decide_eq_true_eq, Bool.not_eq_true', and_assoc]

/-! ### The closing bracket -/

/-- The search for a closing bracket runs over the text, whatever is still open. -/
def Passes (text : List Char) : Prop :=
  ∀ (depth : Nat) (rest : List Char),
    closing depth (text ++ rest) = (closing depth rest).map fun cut => (text ++ cut.1, cut.2)

theorem Passes.nil : Passes [] := by
  intro depth rest
  simp

theorem Passes.append {s t : List Char} (hs : Passes s) (ht : Passes t) : Passes (s ++ t) := by
  intro depth rest
  rw [List.append_assoc, hs, ht]
  simp [Function.comp_def]

theorem Passes.single {c : Char} (hc : c ≠ '<' ∧ c ≠ '>') : Passes [c] := by
  intro depth rest
  simp [closing, hc.1, hc.2]

theorem Passes.wrap {text : List Char} (h : Passes text) : Passes ('<' :: text ++ ['>']) := by
  intro depth rest
  have hclose : closing (depth + 1) ('>' :: rest)
      = (closing depth rest).map fun cut => ('>' :: cut.1, cut.2) := by
    simp [closing]
  have hopen : closing depth ('<' :: (text ++ '>' :: rest))
      = (closing (depth + 1) (text ++ '>' :: rest)).map fun cut => ('<' :: cut.1, cut.2) := by
    simp [closing]
  have hshape : '<' :: text ++ ['>'] ++ rest = '<' :: (text ++ '>' :: rest) := by simp
  rw [hshape, hopen, h, hclose]
  simp [Function.comp_def]

theorem Passes.of_forall {text : List Char} (h : ∀ c ∈ text, c ≠ '<' ∧ c ≠ '>') :
    Passes text := by
  induction text with
  | nil => exact .nil
  | cons c rest ih =>
      exact (Passes.single (h c List.mem_cons_self)).append
        (ih fun d hd => h d (List.mem_cons_of_mem c hd))

theorem Passes.join {parts : List String} (h : ∀ part ∈ parts, Passes part.toList) :
    Passes (Text.join "," parts).toList := by
  induction parts with
  | nil => exact .nil
  | cons part rest ih =>
      have hpart := h part List.mem_cons_self
      cases rest with
      | nil => exact hpart
      | cons next rest =>
          rw [Text.toList_join_cons]
          exact hpart.append ((Passes.single (c := ',') (by decide)).append
            (ih fun other hother => h other (List.mem_cons_of_mem part hother)))

theorem closing_of_passes {text : List Char} (h : Passes text) (rest : List Char) :
    closing 0 (text ++ '>' :: rest) = some (text, rest) := by
  rw [h]
  simp [closing]

/-! ### The pieces between the commas -/

/-- At the given depth the splitter takes the whole text into the current piece. -/
def KeptAt (depth : Int) (text : List Char) : Prop :=
  ∀ current rest : List Char,
    argumentsFrom depth current (text ++ rest) = argumentsFrom depth (text.reverse ++ current) rest

theorem KeptAt.nil (depth : Int) : KeptAt depth [] := by
  intro current rest
  rfl

theorem KeptAt.append {depth : Int} {s t : List Char} (hs : KeptAt depth s)
    (ht : KeptAt depth t) : KeptAt depth (s ++ t) := by
  intro current rest
  rw [List.append_assoc, hs, ht, List.reverse_append, List.append_assoc]

theorem KeptAt.single {depth : Int} {c : Char} (hbracket : c ≠ '<' ∧ c ≠ '>')
    (hcomma : c ≠ ',' ∨ depth ≠ 0) : KeptAt depth [c] := by
  intro current rest
  have hcut : ¬(c = ',' ∧ depth = 0) := by tauto
  simp [argumentsFrom, hcut, hbracket.1, hbracket.2]

theorem KeptAt.wrap {depth : Int} {text : List Char} (h : KeptAt (depth + 1) text) :
    KeptAt depth ('<' :: text ++ ['>']) := by
  intro current rest
  have hopen : argumentsFrom depth current ('<' :: (text ++ '>' :: rest))
      = argumentsFrom (depth + 1) ('<' :: current) (text ++ '>' :: rest) := by
    simp [argumentsFrom]
  have hclose : ∀ piece, argumentsFrom (depth + 1) piece ('>' :: rest)
      = argumentsFrom depth ('>' :: piece) rest := by
    intro piece
    simp [argumentsFrom]
  have hshape : '<' :: text ++ ['>'] ++ rest = '<' :: (text ++ '>' :: rest) := by simp
  rw [hshape, hopen, h, hclose]
  simp

theorem KeptAt.of_forall {depth : Int} {text : List Char}
    (h : ∀ c ∈ text, (c ≠ '<' ∧ c ≠ '>') ∧ (c ≠ ',' ∨ depth ≠ 0)) : KeptAt depth text := by
  induction text with
  | nil => exact .nil depth
  | cons c rest ih =>
      obtain ⟨hbracket, hcomma⟩ := h c List.mem_cons_self
      exact (KeptAt.single hbracket hcomma).append
        (ih fun d hd => h d (List.mem_cons_of_mem c hd))

theorem trim_of_forall {text : List Char} (h : ∀ c ∈ text, Text.isBlank c = false) :
    Text.trim text = text := by
  have hdrop : ∀ {l : List Char}, (∀ c ∈ l, Text.isBlank c = false) →
      l.dropWhile Text.isBlank = l := by
    intro l hl
    cases l with
    | nil => rfl
    | cons c rest => rw [List.dropWhile_cons_of_neg (by simp [hl c List.mem_cons_self])]
  rw [Text.trim, hdrop h, hdrop (by simpa using h), List.reverse_reverse]

/-- Pieces that the splitter keeps whole come back from their joined text. -/
theorem arguments_join {parts : List String} (hne : parts ≠ [])
    (hkept : ∀ part ∈ parts, KeptAt 0 part.toList)
    (hblank : ∀ part ∈ parts, ∀ c ∈ part.toList, Text.isBlank c = false) :
    arguments (Text.join "," parts).toList = parts.map String.toList := by
  unfold arguments
  induction parts with
  | nil => exact absurd rfl hne
  | cons part rest ih =>
      have hpart : ∀ more, argumentsFrom 0 [] (part.toList ++ more)
          = argumentsFrom 0 part.toList.reverse more := by
        intro more
        rw [hkept part List.mem_cons_self, List.append_nil]
      have htrim : Text.trim part.toList.reverse.reverse = part.toList := by
        rw [List.reverse_reverse]
        exact trim_of_forall (hblank part List.mem_cons_self)
      cases rest with
      | nil =>
          have hend := hpart []
          rw [List.append_nil] at hend
          show argumentsFrom 0 [] part.toList = [part.toList]
          rw [hend, argumentsFrom, htrim]
      | cons next rest =>
          have hrest := ih (List.cons_ne_nil next rest)
            (fun p hp => hkept p (List.mem_cons_of_mem part hp))
            (fun p hp => hblank p (List.mem_cons_of_mem part hp))
          rw [Text.toList_join_cons, hpart]
          show argumentsFrom 0 part.toList.reverse
            (',' :: (Text.join "," (next :: rest)).toList) = _
          rw [argumentsFrom, if_pos ⟨rfl, rfl⟩, htrim, hrest]
          rfl

/-! ### How many pieces -/

/-- Outside all brackets the text adds so many pieces to those of the text behind it. -/
def AddsPieces (count : Nat) (text : List Char) : Prop :=
  ∀ current rest : List Char,
    (argumentsFrom 0 current (text ++ rest)).length = count + (argumentsFrom 0 [] rest).length

/-- What has been read of a piece does not change the number of pieces. -/
theorem length_argumentsFrom (depth : Int) (current text : List Char) :
    (argumentsFrom depth current text).length = (argumentsFrom depth [] text).length := by
  induction text generalizing depth current with
  | nil => rfl
  | cons c rest ih =>
      rw [argumentsFrom, argumentsFrom]
      by_cases hcut : c = ',' ∧ depth = 0
      · rw [if_pos hcut, if_pos hcut, List.length_cons, List.length_cons]
      · rw [if_neg hcut, if_neg hcut]
        exact (ih _ _).trans (ih _ _).symm

theorem KeptAt.addsPieces {text : List Char} (h : KeptAt 0 text) : AddsPieces 0 text := by
  intro current rest
  rw [h, length_argumentsFrom, Nat.zero_add]

theorem AddsPieces.append {m n : Nat} {s t : List Char} (hs : AddsPieces m s)
    (ht : AddsPieces n t) : AddsPieces (m + n) (s ++ t) := by
  intro current rest
  rw [List.append_assoc, hs, ht, Nat.add_assoc]

theorem AddsPieces.commas (n : Nat) : AddsPieces n (List.replicate n ',') := by
  induction n with
  | zero =>
      intro current rest
      rw [List.replicate_zero, List.nil_append, length_argumentsFrom, Nat.zero_add]
  | succ n ih =>
      intro current rest
      rw [List.replicate_succ, List.cons_append, argumentsFrom, if_pos ⟨rfl, rfl⟩,
        List.length_cons, ih]
      omega

theorem length_arguments_join {α : Type} {text : α → String} {count : α → Nat} {items : List α}
    (hne : items ≠ []) (h : ∀ item ∈ items, AddsPieces (count item) (text item).toList) :
    (arguments (Text.join "," (items.map text)).toList).length
      = items.length + total (items.map count) := by
  unfold arguments
  induction items with
  | nil => exact absurd rfl hne
  | cons item rest ih =>
      have hitem := h item List.mem_cons_self
      cases rest with
      | nil =>
          have hend := hitem [] []
          rw [List.append_nil] at hend
          show (argumentsFrom 0 [] (text item).toList).length = _
          simp [hend, argumentsFrom, total, Nat.add_comm]
      | cons next rest =>
          have hrest := ih (List.cons_ne_nil next rest)
            fun other hother => h other (List.mem_cons_of_mem item hother)
          rw [List.map_cons, List.map_cons, Text.toList_join_cons, hitem]
          show count item + (argumentsFrom 0 []
            (',' :: (Text.join "," ((next :: rest).map text)).toList)).length = _
          rw [argumentsFrom, if_pos ⟨rfl, rfl⟩, List.length_cons, hrest]
          simp only [List.length_cons, List.map_cons, total_cons]
          omega

end Name

/-! ### Raw names -/

namespace Signature

open Name

mutual

/-- The names that are written into the raw name of a reference, built-in types apart. -/
def names : Signature → List String
  | named name => [name.fullName]
  | parameter _ _ name => [name]
  | instantiation base args => base.names ++ allNames args
  | array element _ => element.names
  | byRef element => element.names
  | pointer element => element.names
  | primitive _ => []

def allNames : List Signature → List String
  | [] => []
  | sig :: rest => sig.names ++ allNames rest

end

@[simp] theorem allNames_eq_flatMap (sigs : List Signature) :
    allNames sigs = sigs.flatMap names := by
  induction sigs with
  | nil => rfl
  | cons sig rest ih => rw [allNames, ih, List.flatMap_cons]

/-- Every name in the reference is made of inert characters, as all identifiers are. -/
def Inert (sig : Signature) : Prop :=
  ∀ name ∈ sig.names, ∀ c ∈ name.toList, isInert c = true

instance (sig : Signature) : Decidable sig.Inert :=
  decidable_of_iff ((sig.names.all fun name => name.toList.all isInert) = true) (by
    simp only [Inert, List.all_eq_true])

theorem inert_instantiation {base : Signature} {args : List Signature} :
    (instantiation base args).Inert ↔ base.Inert ∧ ∀ arg ∈ args, arg.Inert := by
  simp only [Inert, names, allNames_eq_flatMap, List.mem_append, List.mem_flatMap]
  constructor
  · intro h
    exact ⟨fun name hname => h name (Or.inl hname),
      fun arg harg name hname => h name (Or.inr ⟨arg, harg, hname⟩)⟩
  · rintro ⟨hbase, hargs⟩ name (hname | ⟨arg, harg, hname⟩)
    · exact hbase name hname
    · exact hargs arg harg name hname

theorem Inert.named {name : TypeName} (h : (named name).Inert) :
    ∀ c ∈ (Signature.named name).rawName.toList, isInert c = true :=
  h name.fullName List.mem_cons_self

theorem Inert.parameter {owner : ParameterOwner} {index : Nat} {name : String}
    (h : (parameter owner index name).Inert) :
    ∀ c ∈ (Signature.parameter owner index name).rawName.toList, isInert c = true :=
  h name List.mem_cons_self

/-- The ranks of the arrays of a reference that stand outside all argument lists. -/
def outerRanks : Signature → List Nat
  | array element rank => rank :: element.outerRanks
  | instantiation base _ => base.outerRanks
  | byRef element => element.outerRanks
  | pointer element => element.outerRanks
  | primitive _ => []
  | named _ => []
  | parameter .. => []

/-- How many commas of arrays stand outside all argument lists. -/
def outerCommas (sig : Signature) : Nat := total (sig.outerRanks.map (· - 1))

theorem outerCommas_eq_zero_iff {sig : Signature} :
    sig.outerCommas = 0 ↔ ∀ rank ∈ sig.outerRanks, rank ≤ 1 := by
  rw [outerCommas, total_eq_zero_iff]
  simp only [List.mem_map, forall_exists_index, and_imp, forall_apply_eq_imp_iff₂]
  exact forall₂_congr fun rank _ => by omega

theorem toList_rawName_instantiation (base : Signature) (args : List Signature) :
    (instantiation base args).rawName.toList
      = base.rawName.toList
        ++ ('<' :: (Text.join "," (args.map rawName)).toList ++ ['>']) := by
  simp [rawName]

theorem toList_copies_comma (n : Nat) : (Text.copies "," n).toList = List.replicate n ',' := by
  induction n with
  | zero => rfl
  | succ n ih => rw [Text.copies, String.toList_append, ih, List.replicate_succ]; rfl

theorem toList_rawName_array (element : Signature) (rank : Nat) :
    (array element rank).rawName.toList
      = element.rawName.toList ++ ('[' :: (List.replicate (rank - 1) ',' ++ [']'])) := by
  simp [rawName, toList_copies_comma]

theorem toList_rawName_byRef (element : Signature) :
    (byRef element).rawName.toList = element.rawName.toList ++ ['&'] := by
  simp [rawName]

theorem toList_rawName_pointer (element : Signature) :
    (pointer element).rawName.toList = element.rawName.toList ++ ['*'] := by
  simp [rawName]

theorem isInert_primitive (kind : Primitive) :
    ∀ c ∈ kind.fullName.toList, isInert c = true := by
  cases kind <;> exact Text.forall_mem_of_all (by decide)

/-- A property of texts that inert text has, that is kept by appending, by suffixes and by brackets
around joined arguments is one of all raw names. -/
theorem rawName_induction {P : List Char → Prop} {sig : Signature} (hinert : sig.Inert)
    (htext : ∀ text : List Char, (∀ c ∈ text, isInert c = true) → P text)
    (happend : ∀ s t, P s → P t → P (s ++ t))
    (hcommas : ∀ n, P (List.replicate n ','))
    (hwrap : ∀ text, P text → P ('<' :: text ++ ['>'])) :
    P sig.rawName.toList := by
  have hsuffix : ∀ c, isInert c = true → P [c] := by
    intro c hc
    exact htext [c] (by simpa using hc)
  induction sig using Signature.induction with
  | primitive kind => exact htext _ (isInert_primitive kind)
  | named name => exact htext _ hinert.named
  | instantiation base args ihbase ihargs =>
      obtain ⟨hbase, hargs⟩ := inert_instantiation.mp hinert
      rw [toList_rawName_instantiation]
      refine happend _ _ (ihbase hbase) (hwrap _ ?_)
      clear ihbase hbase hinert
      induction args with
      | nil => exact htext [] (by simp)
      | cons arg rest ih =>
          have harg := ihargs arg List.mem_cons_self (hargs arg List.mem_cons_self)
          cases rest with
          | nil => exact harg
          | cons next rest =>
              have hrest := ih (fun a ha => ihargs a (List.mem_cons_of_mem arg ha))
                fun a ha => hargs a (List.mem_cons_of_mem arg ha)
              rw [List.map_cons, List.map_cons, Text.toList_join_cons]
              exact happend _ _ harg (happend _ _ (hcommas 1) hrest)
  | array element rank ih =>
      rw [toList_rawName_array]
      exact happend _ _ (ih hinert) (happend ['['] _ (hsuffix '[' (by decide))
        (happend _ _ (hcommas (rank - 1)) (hsuffix ']' (by decide))))
  | byRef element ih =>
      rw [toList_rawName_byRef]
      exact happend _ _ (ih hinert) (hsuffix '&' (by decide))
  | pointer element ih =>
      rw [toList_rawName_pointer]
      exact happend _ _ (ih hinert) (hsuffix '*' (by decide))
  | parameter owner index name => exact htext _ hinert.parameter

/-- The angle brackets of a raw name match. -/
theorem Inert.passes {sig : Signature} (h : sig.Inert) : Passes sig.rawName.toList :=
  rawName_induction h
    (fun _ htext => .of_forall fun c hc => (isInert_iff.mp (htext c hc)).1)
    (fun _ _ hs ht => hs.append ht)
    (fun _ => .of_forall fun c hc => by rw [List.eq_of_mem_replicate hc]; decide)
    (fun _ hinner => hinner.wrap)

theorem passes_args {args : List Signature} (h : ∀ arg ∈ args, arg.Inert) :
    Passes (Text.join "," (args.map rawName)).toList := by
  refine Passes.join fun part hpart => ?_
  obtain ⟨arg, harg, rfl⟩ := List.mem_map.mp hpart
  exact (h arg harg).passes

theorem Inert.notBlank {sig : Signature} (h : sig.Inert) :
    ∀ c ∈ sig.rawName.toList, Text.isBlank c = false := by
  refine rawName_induction (P := fun text => ∀ c ∈ text, Text.isBlank c = false) h ?_ ?_ ?_ ?_
  · intro text htext c hc
    exact (isInert_iff.mp (htext c hc)).2.2
  · intro s t hs ht c hc
    rcases List.mem_append.mp hc with hc | hc
    · exact hs c hc
    · exact ht c hc
  · intro n c hc
    rw [List.eq_of_mem_replicate hc]
    decide
  · intro text htext c hc
    simp only [List.cons_append, List.mem_cons, List.mem_append, List.not_mem_nil, or_false] at hc
    rcases hc with rfl | hc | rfl
    · decide
    · exact htext c hc
    · decide

/-- Inside an argument list no raw name is cut. -/
theorem Inert.keptAt_of_pos {sig : Signature} (h : sig.Inert) {depth : Int} (hdepth : 0 < depth) :
    KeptAt depth sig.rawName.toList := by
  -- The brackets of an instantiation lead to a greater depth, so the induction is on all of them.
  have hall := rawName_induction (P := fun text => ∀ depth : Int, 0 < depth → KeptAt depth text)
    h ?_ ?_ ?_ ?_
  · exact hall depth hdepth
  · intro text htext depth hdepth
    exact .of_forall fun c hc => ⟨(isInert_iff.mp (htext c hc)).1, Or.inr (by omega)⟩
  · intro s t hs ht depth hdepth
    exact (hs depth hdepth).append (ht depth hdepth)
  · intro n depth hdepth
    refine .of_forall fun c hc => ?_
    rw [List.eq_of_mem_replicate hc]
    exact ⟨by decide, Or.inr (by omega)⟩
  · intro text htext depth hdepth
    exact (htext (depth + 1) (by omega)).wrap

theorem Inert.keptAt_list {base : Signature} {args : List Signature}
    (h : (instantiation base args).Inert) :
    KeptAt 0 ('<' :: (Text.join "," (args.map rawName)).toList ++ ['>']) := by
  obtain ⟨-, hargs⟩ := inert_instantiation.mp h
  refine KeptAt.wrap ?_
  have hcomma : KeptAt (0 + 1) ",".toList :=
    .of_forall fun c hc => by rw [List.mem_singleton.mp hc]; decide
  clear h
  induction args with
  | nil => exact .nil _
  | cons arg rest ih =>
      have harg : KeptAt (0 + 1) arg.rawName.toList :=
        (hargs arg List.mem_cons_self).keptAt_of_pos (by decide)
      cases rest with
      | nil => exact harg
      | cons next rest =>
          rw [List.map_cons, List.map_cons, Text.toList_join_cons]
          exact harg.append (hcomma.append (ih fun a ha => hargs a (List.mem_cons_of_mem arg ha)))

/-- Outside all lists, a raw name is made of text that the splitter keeps and of the commas of
arrays.  What is said of text together with the number of its commas, and adds up over appended
text, holds of every raw name. -/
theorem Inert.outer_induction {P : Nat → List Char → Prop} {sig : Signature} (h : sig.Inert)
    (hkept : ∀ text, KeptAt 0 text → P 0 text)
    (happend : ∀ m n s t, P m s → P n t → P (m + n) (s ++ t))
    (hcommas : ∀ n, P n (List.replicate n ',')) : P sig.outerCommas sig.rawName.toList := by
  have htext : ∀ text : List Char, (∀ c ∈ text, isInert c = true) → P 0 text := by
    intro text htext
    refine hkept text (.of_forall fun c hc => ?_)
    obtain ⟨hbracket, hcomma, -⟩ := isInert_iff.mp (htext c hc)
    exact ⟨hbracket, Or.inl hcomma⟩
  have hsuffix : ∀ c, isInert c = true → P 0 [c] := by
    intro c hc
    exact htext [c] (by simpa using hc)
  induction sig using Signature.induction with
  | primitive kind => exact htext _ (isInert_primitive kind)
  | named name => exact htext _ h.named
  | instantiation base args ihbase ihargs =>
      rw [toList_rawName_instantiation]
      exact happend _ _ _ _ (ihbase (inert_instantiation.mp h).1) (hkept _ h.keptAt_list)
  | array element rank ih =>
      have hbrackets : P (0 + (rank - 1 + 0)) (['['] ++ (List.replicate (rank - 1) ',' ++ [']'])) :=
        happend _ _ _ _ (hsuffix '[' (by decide))
          (happend _ _ _ _ (hcommas (rank - 1)) (hsuffix ']' (by decide)))
      have hcount : (array element rank).outerCommas
          = element.outerCommas + (0 + (rank - 1 + 0)) := by
        simp only [outerCommas, outerRanks, List.map_cons, total_cons]
        omega
      rw [toList_rawName_array, hcount]
      exact happend _ _ _ _ (ih h) hbrackets
  | byRef element ih =>
      rw [toList_rawName_byRef]
      exact happend _ _ _ _ (ih h) (hsuffix '&' (by decide))
  | pointer element ih =>
      rw [toList_rawName_pointer]
      exact happend _ _ _ _ (ih h) (hsuffix '*' (by decide))
  | parameter owner index name => exact htext _ h.parameter

theorem Inert.addsPieces {sig : Signature} (h : sig.Inert) :
    AddsPieces sig.outerCommas sig.rawName.toList :=
  h.outer_induction (fun _ hkept => hkept.addsPieces) (fun _ _ _ _ hs ht => hs.append ht)
    AddsPieces.commas

/-- A raw name without commas outside of lists is taken whole. -/
theorem Inert.keptAt_zero {sig : Signature} (h : sig.Inert)
    (hflat : ∀ rank ∈ sig.outerRanks, rank ≤ 1) : KeptAt 0 sig.rawName.toList := by
  refine h.outer_induction (P := fun n text => n = 0 → KeptAt 0 text) ?_ ?_ ?_
    (outerCommas_eq_zero_iff.mpr hflat)
  · intro text hkept _
    exact hkept
  · intro m n s t hs ht hzero
    exact (hs (by omega)).append (ht (by omega))
  · rintro n rfl
    exact .nil 0

/-! ### The arguments of an instantiation -/

/-- The first argument list of an instantiated name is the one that its arguments were written
into, whatever stands behind it. -/
theorem firstList_rawName {name : TypeName} {args : List Signature}
    (h : (instantiation (named name) args).Inert) (tail : List Char) :
    firstList ((instantiation (named name) args).rawName.toList ++ tail)
      = .found ⟨name.fullName.toList, (Text.join "," (args.map rawName)).toList, tail⟩ := by
  obtain ⟨hname, hargs⟩ := inert_instantiation.mp h
  have hopen : '<' ∉ name.fullName.toList := by
    intro hmem
    exact (isInert_iff.mp (hname.named '<' hmem)).1.1 rfl
  have hshape : (instantiation (named name) args).rawName.toList ++ tail
      = name.fullName.toList
        ++ '<' :: ((Text.join "," (args.map rawName)).toList ++ '>' :: tail) := by
    rw [toList_rawName_instantiation]
    simp [rawName]
  rw [hshape, firstList, Text.cutFirst_append hopen]
  simp only [closing_of_passes (passes_args hargs)]

theorem arguments_args {args : List Signature} (hne : args ≠ []) (h : ∀ arg ∈ args, arg.Inert)
    (hflat : ∀ arg ∈ args, ∀ rank ∈ arg.outerRanks, rank ≤ 1) :
    Name.arguments (Text.join "," (args.map rawName)).toList
      = args.map fun arg => arg.rawName.toList := by
  rw [arguments_join (by simpa using hne), List.map_map]
  · rfl
  · intro part hpart
    obtain ⟨arg, harg, rfl⟩ := List.mem_map.mp hpart
    exact (h arg harg).keptAt_zero (hflat arg harg)
  · intro part hpart
    obtain ⟨arg, harg, rfl⟩ := List.mem_map.mp hpart
    exact (h arg harg).notBlank

theorem length_arguments_args {args : List Signature} (hne : args ≠ [])
    (h : ∀ arg ∈ args, arg.Inert) :
    (Name.arguments (Text.join "," (args.map rawName)).toList).length
      = args.length + total (args.map outerCommas) := by
  rw [length_arguments_join hne fun arg harg => (h arg harg).addsPieces]

/--
**Arguments come back from a raw name unless an array gets in the way.**  The argument list of an
instantiated name is read as the raw names of the arguments if and only if no argument has an array
of two or more dimensions outside its own argument lists.
-/
theorem argumentNames_rawName_iff (name : TypeName) (args : List Signature) (hargs : args ≠ [])
    (hinert : (instantiation (named name) args).Inert) :
    argumentNames (instantiation (named name) args).rawName = args.map rawName ↔
      ∀ arg ∈ args, ∀ rank ∈ arg.outerRanks, rank ≤ 1 := by
  obtain ⟨-, hinertArgs⟩ := inert_instantiation.mp hinert
  have hread : argumentNames (instantiation (named name) args).rawName
      = (Name.arguments (Text.join "," (args.map rawName)).toList).map String.ofList := by
    rw [argumentNames, ← List.append_nil (rawName _).toList, firstList_rawName hinert]
  rw [hread]
  constructor
  · intro hsame
    have hlength := congrArg List.length hsame
    rw [List.length_map, length_arguments_args hargs hinertArgs, List.length_map] at hlength
    have hzero : total (args.map outerCommas) = 0 := by omega
    intro arg harg
    exact outerCommas_eq_zero_iff.mp
      (total_eq_zero_iff.mp hzero _ (List.mem_map_of_mem harg))
  · intro hflat
    rw [arguments_args hargs hinertArgs hflat, List.map_map]
    exact List.map_congr_left fun arg _ => String.ofList_toList

/-- The reference `Game.Index<string, value>`. -/
def indexOf (value : Signature) : Signature :=
  instantiation (.inSpace "Game" "Index`2") [.primitive .string, value]

/-- A grid of integers comes back from inside a list and not on its own. -/
theorem argumentNames_indexOf :
    argumentNames (indexOf (.instantiation (.inSpace "Game" "List`1")
        [.array (.primitive .int32) 2])).rawName
      = ["System.String", "Game.List`1<System.Int32[,]>"]
    ∧ argumentNames (indexOf (.array (.primitive .int32) 2)).rawName
      ≠ ["System.String", "System.Int32[,]"] :=
  ⟨(argumentNames_rawName_iff (.top "Game" "Index`2" none) [.primitive .string,
      .instantiation (.inSpace "Game" "List`1") [.array (.primitive .int32) 2]]
      (by decide) (by decide)).mpr (by decide),
    fun h => absurd ((argumentNames_rawName_iff (.top "Game" "Index`2" none)
      [.primitive .string, .array (.primitive .int32) 2] (by decide) (by decide)).mp h)
      (by decide)⟩

end Signature

end ApiSurface
