/-
Quoted literals tell the texts that they were made from.

A literal is text between two delimiters.  What would end it early or could not
stand on a line is written as an escape: a backslash and a code.  `readLiteral` takes
the escapes back and stops at the closing delimiter, whatever stands behind it.

Whether a character is escaped is said without reading from the left: it is if an odd
number of backslashes stands right before it, `Escapes`.  The characters of a text are
written one by one, each as a unit that is neither left open nor shows a delimiter,
`IsUnit`; every property of a literal is one step over a unit and an induction on the
text.

Defaults, constants and arguments of attributes stand in lists.  Lists that agree up to
a literal are told apart by it, `Constant.eq_of_agreeUntil`, because reading a literal
does not depend on the rest of the list.
-/
import ApiSurface.Proofs.Enclosed
import ApiSurface.Shown.Argument
import Mathlib.Tactic.SplitIfs

namespace ApiSurface

namespace Text

/-- The characters that literals stand between: double quotes around strings, single ones around
characters. -/
def IsDelimiter (c : Char) : Prop := c = '\x22' ∨ c = '\x27'

/-- The control characters that are written as escapes. -/
def controls : List Char := [Char.ofNat 0, '\n', '\r', '\t']

theorem IsDelimiter.ne_backslash {c : Char} (h : IsDelimiter c) : c ≠ '\\' := by
  rcases h with rfl | rfl <;> decide

theorem IsDelimiter.notMem_controls {c : Char} (h : IsDelimiter c) : c ∉ controls := by
  rcases h with rfl | rfl <;> decide

/-! ### Reading a literal -/

/-- The character that a backslash and the code behind it stand for. -/
def escapeMeaning (delimiter code : Char) : Option Char :=
  if code = '\\' then some '\\'
  else if code = '0' then some (Char.ofNat 0)
  else if code = 'n' then some '\n'
  else if code = 'r' then some '\r'
  else if code = 't' then some '\t'
  else if code = delimiter then some delimiter
  else none

/-- Reads up to the closing delimiter and gives back the text and what stands behind the delimiter;
`escaped` says that a backslash was read that begins an escape. -/
def readBody (delimiter : Char) (escaped : Bool) : List Char → Option (List Char × List Char)
  | [] => none
  | c :: rest =>
    if escaped then
      match escapeMeaning delimiter c with
      | some meant => (readBody delimiter false rest).map fun read => (meant :: read.1, read.2)
      | none => none
    else if c = '\\' then readBody delimiter true rest
    else if c = delimiter then some ([], rest)
    else (readBody delimiter false rest).map fun read => (c :: read.1, read.2)

/-- Reads the literal that a text begins with. -/
def readLiteral (delimiter : Char) : List Char → Option (List Char × List Char)
  | [] => none
  | c :: rest => if c = delimiter then readBody delimiter false rest else none

/-! ### Units -/

/-- How a character is written between delimiters: as itself, or as a backslash and a code that
means it. -/
inductive IsUnit (delimiter c : Char) : List Char → Prop
  | plain (hbackslash : c ≠ '\\') (hdelimiter : c ≠ delimiter) (hcontrol : c ∉ controls) :
      IsUnit delimiter c [c]
  | escaped {code : Char} (hmeans : escapeMeaning delimiter code = some c)
      (hcontrol : code ∉ controls) : IsUnit delimiter c ['\\', code]

theorem isUnit_escapeChar {delimiter : Char} (h : IsDelimiter delimiter) (c : Char) :
    IsUnit delimiter c (escapeChar delimiter c) := by
  unfold escapeChar
  split_ifs with hbackslash hnul hline hreturn htab hdelimiter
  · subst hbackslash
    exact .escaped rfl (by decide)
  · subst hnul
    exact .escaped rfl (by decide)
  · subst hline
    exact .escaped rfl (by decide)
  · subst hreturn
    exact .escaped rfl (by decide)
  · subst htab
    exact .escaped rfl (by decide)
  · subst hdelimiter
    refine .escaped ?_ h.notMem_controls
    rcases h with rfl | rfl <;> rfl
  · refine .plain hbackslash hdelimiter ?_
    simp only [controls, List.mem_cons, List.not_mem_nil, or_false, not_or]
    exact ⟨hnul, hline, hreturn, htab⟩

theorem escape_cons (delimiter c : Char) (text : List Char) :
    escape delimiter (c :: text) = escapeChar delimiter c ++ escape delimiter text :=
  List.flatMap_cons

/-- Reading a unit gives the character it was written for. -/
theorem IsUnit.readBody_append {delimiter c : Char} {unit : List Char}
    (h : IsUnit delimiter c unit) (rest : List Char) :
    readBody delimiter false (unit ++ rest)
      = (readBody delimiter false rest).map fun read => (c :: read.1, read.2) := by
  cases h with
  | plain hbackslash hdelimiter _ => simp [readBody, hbackslash, hdelimiter]
  | escaped hmeans _ => simp [readBody, hmeans]

theorem readBody_escape {delimiter : Char} (h : IsDelimiter delimiter) (text rest : List Char) :
    readBody delimiter false (escape delimiter text ++ delimiter :: rest) = some (text, rest) := by
  induction text with
  | nil =>
      show readBody delimiter false (delimiter :: rest) = some ([], rest)
      simp [readBody, h.ne_backslash]
  | cons c text ih =>
      rw [escape_cons, List.append_assoc, (isUnit_escapeChar h c).readBody_append, ih]
      rfl

theorem toList_quote (delimiter : Char) (text : String) :
    (quote delimiter text).toList
      = delimiter :: (escape delimiter text.toList ++ [delimiter]) := by
  rw [quote, String.toList_ofList]
  rfl

/-- A literal is read back, and reading it stops where it ends. -/
theorem readLiteral_quote {delimiter : Char} (h : IsDelimiter delimiter) (text : String)
    (rest : List Char) :
    readLiteral delimiter ((quote delimiter text).toList ++ rest) = some (text.toList, rest) := by
  rw [toList_quote, List.cons_append, List.append_assoc, readLiteral, if_pos rfl]
  exact readBody_escape h text.toList rest

/-- Literals with more text behind them are the same only if all of their parts are. -/
theorem quote_append_inj {delimiter delimiter' : Char} (h : IsDelimiter delimiter)
    (h' : IsDelimiter delimiter') {text text' rest rest' : String}
    (heq : quote delimiter text ++ rest = quote delimiter' text' ++ rest') :
    delimiter = delimiter' ∧ text = text' ∧ rest = rest' := by
  have hlist := congrArg String.toList heq
  rw [String.toList_append, String.toList_append] at hlist
  obtain rfl : delimiter = delimiter' := by
    have hhead := congrArg List.head? hlist
    rw [toList_quote, toList_quote] at hhead
    exact Option.some.inj hhead
  have hread := readLiteral_quote h text rest.toList
  rw [hlist, readLiteral_quote h text' rest'.toList] at hread
  obtain ⟨htext, hrest⟩ := Prod.mk.inj (Option.some.inj hread)
  exact ⟨rfl, (String.toList_inj.mp htext).symm, (String.toList_inj.mp hrest).symm⟩

theorem IsUnit.notMem_controls {delimiter c : Char} {unit : List Char}
    (h : IsUnit delimiter c unit) {d : Char} (hd : d ∈ unit) : d ∉ controls := by
  cases h with
  | plain _ _ hcontrol =>
      rw [List.mem_singleton.mp hd]
      exact hcontrol
  | escaped _ hcontrol =>
      rcases List.mem_cons.mp hd with rfl | hcode
      · decide
      · rw [List.mem_singleton.mp hcode]
        exact hcontrol

/-- No control character that has an escape stands in a literal. -/
theorem notMem_controls_of_mem_quote {delimiter : Char} (h : IsDelimiter delimiter) {text : String}
    {c : Char} (hc : c ∈ (quote delimiter text).toList) : c ∉ controls := by
  rw [toList_quote, List.mem_cons, List.mem_append, List.mem_singleton, escape,
    List.mem_flatMap] at hc
  rcases hc with rfl | ⟨d, -, hunit⟩ | rfl
  · exact h.notMem_controls
  · exact (isUnit_escapeChar h d).notMem_controls hunit
  · exact h.notMem_controls

/-! ### Escaped characters -/

/-- The next character is escaped: an odd number of backslashes stands right before it. -/
def Escapes (before : List Char) : Prop :=
  (before.reverse.takeWhile (· = '\\')).length % 2 = 1

instance (before : List Char) : Decidable (Escapes before) :=
  inferInstanceAs (Decidable (_ = _))

theorem not_escapes_nil : ¬Escapes [] := by decide

theorem escapes_concat {before : List Char} {c : Char} :
    Escapes (before ++ [c]) ↔ c = '\\' ∧ ¬Escapes before := by
  unfold Escapes
  rw [List.reverse_append, List.reverse_singleton, List.singleton_append, List.takeWhile_cons]
  by_cases hc : c = '\\'
  · simp only [hc, decide_true, if_true, List.length_cons, true_and]
    omega
  · simp [hc]

/-- Behind a unit, no escape is left open. -/
theorem IsUnit.not_escapes {delimiter c : Char} {unit : List Char} (h : IsUnit delimiter c unit)
    {before : List Char} (hbefore : ¬Escapes before) : ¬Escapes (before ++ unit) := by
  cases h with
  | plain hbackslash _ _ =>
      rw [escapes_concat]
      exact fun hopen => hbackslash hopen.1
  | @escaped code _ _ =>
      have hslash : Escapes (before ++ ['\\']) := escapes_concat.mpr ⟨rfl, hbefore⟩
      rw [show before ++ ['\\', code] = before ++ ['\\'] ++ [code] by simp, escapes_concat]
      exact fun hopen => hopen.2 hslash

theorem not_escapes_escape {delimiter : Char} (h : IsDelimiter delimiter) {before : List Char}
    (hbefore : ¬Escapes before) (text : List Char) :
    ¬Escapes (before ++ escape delimiter text) := by
  induction text generalizing before with
  | nil => rwa [escape, List.flatMap_nil, List.append_nil]
  | cons c text ih =>
      rw [escape_cons, ← List.append_assoc]
      exact ih ((isUnit_escapeChar h c).not_escapes hbefore)

/-- Every delimiter between the outer ones is escaped. -/
theorem escapes_of_delimiter {delimiter : Char} (h : IsDelimiter delimiter)
    {front before after text : List Char} (hfront : ¬Escapes front)
    (heq : escape delimiter text = before ++ delimiter :: after) : Escapes (front ++ before) := by
  induction text generalizing front before with
  | nil => exact absurd heq.symm (by simp [escape])
  | cons c text ih =>
      have hunit := isUnit_escapeChar h c
      have hnext : ¬Escapes (front ++ escapeChar delimiter c) := hunit.not_escapes hfront
      rw [escape_cons] at heq
      generalize escapeChar delimiter c = unit at hunit hnext heq
      -- The delimiter is the code of the unit, or it stands behind the unit.
      cases hunit with
      | plain _ hdelimiter _ =>
          cases before with
          | nil => exact absurd (List.cons.inj heq).1 hdelimiter
          | cons b before =>
              obtain ⟨rfl, hrest⟩ := List.cons.inj heq
              rw [List.append_cons]
              exact ih hnext hrest
      | escaped _ _ =>
          cases before with
          | nil => exact absurd (List.cons.inj heq).1.symm h.ne_backslash
          | cons b before =>
              obtain ⟨rfl, hbehind⟩ := List.cons.inj heq
              cases before with
              | nil => exact escapes_concat.mpr ⟨rfl, hfront⟩
              | cons b' before =>
                  obtain ⟨rfl, hrest⟩ := List.cons.inj hbehind
                  rw [List.append_cons, List.append_cons, List.append_assoc front]
                  exact ih hnext hrest

/-- The delimiters that are not escaped are the first character of a literal and the last one. -/
theorem escapes_quote_iff {delimiter : Char} (h : IsDelimiter delimiter) {text : String}
    {before after : List Char}
    (heq : (quote delimiter text).toList = before ++ delimiter :: after) :
    Escapes before ↔ before ≠ [] ∧ after ≠ [] := by
  have hopening : ¬Escapes [delimiter] := fun hopen =>
    h.ne_backslash (escapes_concat.mp (show Escapes ([] ++ [delimiter]) from hopen)).1
  rw [toList_quote] at heq
  cases before with
  | nil => exact iff_of_false not_escapes_nil fun hinside => hinside.1 rfl
  | cons b before =>
      obtain ⟨rfl, hbehind⟩ := List.cons.inj heq
      rcases List.eq_nil_or_concat after with rfl | ⟨after, last, rfl⟩
      · have hbody : escape delimiter text.toList = before := List.append_cancel_right hbehind
        rw [← hbody]
        exact iff_of_false (not_escapes_escape h hopening text.toList) fun hinside =>
          hinside.2 rfl
      · have hbody : escape delimiter text.toList = before ++ delimiter :: after := by
          have hlast : escape delimiter text.toList ++ [delimiter]
              = before ++ delimiter :: after ++ [last] := by
            rw [List.concat_eq_append] at hbehind
            rw [List.append_assoc]
            exact hbehind
          exact (List.append_inj' hlast rfl).1
        exact iff_of_true (escapes_of_delimiter h hopening hbody) ⟨by simp, by simp⟩

/-! ### Lists that agree up to a literal -/

/-- Two texts that agree up to a place where the first has `x` and the second has `y`. -/
def AgreeUntil (x y s t : String) : Prop :=
  ∃ lead tail tail', s = lead ++ x ++ tail ∧ t = lead ++ y ++ tail'

theorem exists_join_cons (sep part : String) (rest : List String) :
    ∃ tail, join sep (part :: rest) = part ++ tail := by
  cases rest with
  | nil => exact ⟨"", String.append_empty.symm⟩
  | cons next rest => exact ⟨sep ++ join sep (next :: rest), String.append_assoc ..⟩

namespace AgreeUntil

variable {x y s t : String}

theorem refl (x y : String) : AgreeUntil x y x y := ⟨"", "", "", by simp, by simp⟩

theorem within (h : AgreeUntil x y s t) (front back back' : String) :
    AgreeUntil x y (front ++ s ++ back) (front ++ t ++ back') := by
  obtain ⟨lead, tail, tail', rfl, rfl⟩ := h
  exact ⟨front ++ lead, tail ++ back, tail' ++ back', by simp only [String.append_assoc],
    by simp only [String.append_assoc]⟩

theorem join (h : AgreeUntil x y s t) (sep : String) (before after after' : List String) :
    AgreeUntil x y (Text.join sep (before ++ s :: after))
      (Text.join sep (before ++ t :: after')) := by
  induction before with
  | nil =>
      obtain ⟨back, hback⟩ := exists_join_cons sep s after
      obtain ⟨back', hback'⟩ := exists_join_cons sep t after'
      have hall := h.within "" back back'
      rwa [String.empty_append, String.empty_append, ← hback, ← hback'] at hall
  | cons part before ih =>
      have hcons : ∀ (u : String) (rest : List String),
          Text.join sep (part :: before ++ u :: rest)
            = part ++ sep ++ Text.join sep (before ++ u :: rest) ++ "" := by
        intro u rest
        rw [String.append_empty]
        exact join_append (List.cons_ne_nil part []) (by simp)
      rw [hcons, hcons]
      exact ih.within (part ++ sep) "" ""

end AgreeUntil

end Text

/-! ### Constants that are quoted -/

/-- Strings and characters are written as literals with delimiters. -/
inductive Constant.IsQuoted : Constant → Prop
  | string (value : String) : IsQuoted (.string value)
  | character (value : Char) : IsQuoted (.character value)

open Text

/-- The literal of a quoted constant tells the constant, whatever stands behind it. -/
theorem Constant.IsQuoted.literal_append_inj {v w : Constant} (hv : v.IsQuoted) (hw : w.IsQuoted)
    {rest rest' : String} (heq : v.literal ++ rest = w.literal ++ rest') : v = w := by
  have hdouble : IsDelimiter '\x22' := Or.inl rfl
  have hsingle : IsDelimiter '\x27' := Or.inr rfl
  cases hv with
  | string value =>
      cases hw with
      | string value' => rw [(quote_append_inj hdouble hdouble heq).2.1]
      | character value' =>
          exact absurd (quote_append_inj hdouble hsingle heq).1 (by decide)
  | character value =>
      cases hw with
      | string value' =>
          exact absurd (quote_append_inj hsingle hdouble heq).1 (by decide)
      | character value' =>
          have htext := (quote_append_inj hsingle hsingle heq).2.1
          rw [String.singleton_inj.mp htext]

theorem Constant.eq_of_agreeUntil {v w : Constant} (hv : v.IsQuoted) (hw : w.IsQuoted)
    {s t : String} (h : AgreeUntil v.literal w.literal s t) (heq : s = t) : v = w := by
  obtain ⟨lead, tail, tail', rfl, rfl⟩ := h
  rw [String.append_assoc, String.append_assoc] at heq
  exact hv.literal_append_inj hw ((String.append_right_inj lead).mp heq)

/-! ### Parameters and attributes -/

/-- Parameters that differ in their defaults agree up to these. -/
theorem ShownParameter.agreeUntil_default (v w : Constant) (binding : Binding)
    (param : ParameterDecl) :
    AgreeUntil v.literal w.literal
      (ShownParameter.of binding { param with default? := some v }).declaration
      (ShownParameter.of binding { param with default? := some w }).declaration := by
  have hfront : ∀ u : Constant,
      (ShownParameter.of binding { param with default? := some u }).declaration
        = spaced param.passing.keyword ++ (ShownType.through binding param.type).name ++ " "
          ++ param.name ++ " = " ++ u.literal ++ "" := by
    intro u
    rw [String.append_empty]
    exact (String.append_assoc ..).symm
  exact ⟨_, "", "", hfront v, hfront w⟩

theorem ShownParameter.agreeUntil_list (v w : Constant) (binding : Binding)
    (param : ParameterDecl) (before after after' : List ParameterDecl) :
    AgreeUntil v.literal w.literal
      (ShownParameter.listText
        ((before ++ { param with default? := some v } :: after).map (ShownParameter.of binding)))
      (ShownParameter.listText
        ((before ++ { param with default? := some w } :: after').map
          (ShownParameter.of binding))) := by
  simp only [listText, List.map_append, List.map_cons]
  exact (agreeUntil_default v w binding param).join ", " _ _ _

/-- Two arguments that agree up to a place where the first has the constant `v` and the second has
`w`. -/
inductive AttributeValue.AgreeUntil (v w : Constant) : AttributeValue → AttributeValue → Prop
  | constant : AgreeUntil v w (.constant v) (.constant w)
  | enumeration (type : Signature) {a b : AttributeValue} (h : AgreeUntil v w a b) :
      AgreeUntil v w (.enumeration type a) (.enumeration type b)
  | array (before : List AttributeValue) {a b : AttributeValue} (h : AgreeUntil v w a b)
      (after after' : List AttributeValue) :
      AgreeUntil v w (.array (before ++ a :: after)) (.array (before ++ b :: after'))

theorem AttributeValue.literals_eq_map (items : List AttributeValue) :
    literals items = items.map literal := by
  induction items with
  | nil => rfl
  | cons item rest ih => rw [literals, ih, List.map_cons]

theorem AttributeValue.AgreeUntil.literal {v w : Constant} {a b : AttributeValue}
    (h : AttributeValue.AgreeUntil v w a b) :
    Text.AgreeUntil v.literal w.literal a.literal b.literal := by
  induction h with
  | constant => exact .refl v.literal w.literal
  | enumeration type h ih =>
      have hall := ih.within ("(" ++ type.shownName ++ ")") "" ""
      rw [String.append_empty, String.append_empty] at hall
      exact hall
  | array before h after after' ih =>
      have hitems := ih.join ", " (before.map AttributeValue.literal)
        (after.map AttributeValue.literal) (after'.map AttributeValue.literal)
      have hall := hitems.within "new[] \x7b " " \x7d" " \x7d"
      simpa only [AttributeValue.literal, AttributeValue.literals_eq_map, List.map_append,
        List.map_cons] using hall

namespace ShownAttribute

theorem map_value_positionalFrom (index : Nat) (names : List String)
    (values : List AttributeValue) :
    (positionalFrom index names values).map ShownAttributeArgument.value
      = values.map AttributeValue.literal := by
  induction values generalizing index names with
  | nil => cases names <;> rfl
  | cons value rest ih =>
      cases names with
      | nil => rw [positionalFrom, List.map_cons, List.map_cons, ih]
      | cons name names => rw [positionalFrom, List.map_cons, List.map_cons, ih]

/-- An assignment as it is written in an argument list. -/
def assignmentText (named : NamedArgument) : String := named.name ++ " = " ++ named.value.literal

theorem argumentText_of (attr : CustomAttribute) :
    (ShownAttribute.of attr).argumentText
      = join ", " (attr.positional.map AttributeValue.literal
          ++ attr.assignments.map assignmentText) := by
  rw [argumentText, of, map_value_positionalFrom, List.map_map]
  rfl

section

variable {v w : Constant} {a b : AttributeValue} (h : AttributeValue.AgreeUntil v w a b)
  (attr attr' : CustomAttribute)

include h

theorem agreeUntil_positional (before after after' : List AttributeValue) :
    Text.AgreeUntil v.literal w.literal
      (ShownAttribute.of { attr with positional := before ++ a :: after }).argumentText
      (ShownAttribute.of { attr' with positional := before ++ b :: after' }).argumentText := by
  rw [argumentText_of, argumentText_of]
  simp only [List.map_append, List.map_cons, List.append_assoc, List.cons_append]
  exact h.literal.join ", " _ _ _

theorem agreeUntil_assignments (named : NamedArgument) (before after after' : List NamedArgument) :
    Text.AgreeUntil v.literal w.literal
      (ShownAttribute.of
        { attr with assignments := before ++ { named with value := a } :: after }).argumentText
      (ShownAttribute.of
        { attr' with
          positional := attr.positional
          assignments := before ++ { named with value := b } :: after' }).argumentText := by
  have hnamed := h.literal.within (named.name ++ " = ") "" ""
  rw [String.append_empty, String.append_empty] at hnamed
  rw [argumentText_of, argumentText_of]
  simp only [List.map_append, List.map_cons, ← List.append_assoc]
  exact hnamed.join ", " _ _ _

end

end ShownAttribute

/-! ### The law of literals -/

/--
**A quoted literal tells its text.**  Read with the escapes, a literal gives back exactly the text
that was quoted and stops at its end.  It begins and ends with the delimiter, every other delimiter
in it is escaped, and it holds no control character that has an escape.  So literals with any text
behind them are the same only for the same text; and lists of parameters, or arguments of
attributes, that agree up to a string or a character are not written alike if these differ.
-/
theorem quoted_literals_tell_texts {delimiter : Char} (hdelimiter : IsDelimiter delimiter)
    (text : String) :
    (∀ rest, readLiteral delimiter ((quote delimiter text).toList ++ rest)
        = some (text.toList, rest))
      ∧ (∃ body, (quote delimiter text).toList = delimiter :: body ++ [delimiter])
      ∧ (∀ before after, (quote delimiter text).toList = before ++ delimiter :: after →
          (Escapes before ↔ before ≠ [] ∧ after ≠ []))
      ∧ (∀ c ∈ (quote delimiter text).toList, c ∉ controls)
      ∧ (∀ delimiter' text' rest rest', IsDelimiter delimiter' →
          quote delimiter text ++ rest = quote delimiter' text' ++ rest' →
          delimiter = delimiter' ∧ text = text' ∧ rest = rest')
      ∧ ∀ v w : Constant, v.IsQuoted → w.IsQuoted → v ≠ w →
          (∀ (binding : Binding) (param : ParameterDecl)
              (before after after' : List ParameterDecl),
            ShownParameter.listText
                ((before ++ { param with default? := some v } :: after).map
                  (ShownParameter.of binding))
              ≠ ShownParameter.listText
                ((before ++ { param with default? := some w } :: after').map
                  (ShownParameter.of binding)))
          ∧ ∀ a b : AttributeValue, AttributeValue.AgreeUntil v w a b →
              ∀ attr attr' : CustomAttribute,
                (∀ before after after' : List AttributeValue,
                  (ShownAttribute.of
                      { attr with positional := before ++ a :: after }).argumentText
                    ≠ (ShownAttribute.of
                      { attr' with positional := before ++ b :: after' }).argumentText)
                ∧ ∀ (named : NamedArgument) (before after after' : List NamedArgument),
                  (ShownAttribute.of
                      { attr with
                        assignments := before ++ { named with value := a } :: after }).argumentText
                    ≠ (ShownAttribute.of
                      { attr' with
                        positional := attr.positional
                        assignments :=
                          before ++ { named with value := b } :: after' }).argumentText := by
  refine ⟨readLiteral_quote hdelimiter text, ⟨_, toList_quote delimiter text⟩,
    fun _ _ => escapes_quote_iff hdelimiter, fun _ => notMem_controls_of_mem_quote hdelimiter,
    fun _ _ _ _ hdelimiter' => quote_append_inj hdelimiter hdelimiter', ?_⟩
  intro v w hv hw hne
  have hdiffer : ∀ {s t : String}, Text.AgreeUntil v.literal w.literal s t → s ≠ t :=
    fun h heq => hne (Constant.eq_of_agreeUntil hv hw h heq)
  refine ⟨fun binding param before after after' => hdiffer ?_, fun a b hab attr attr' =>
    ⟨fun before after after' => hdiffer ?_, fun named before after after' => hdiffer ?_⟩⟩
  · exact ShownParameter.agreeUntil_list v w binding param before after after'
  · exact ShownAttribute.agreeUntil_positional hab attr attr' before after after'
  · exact ShownAttribute.agreeUntil_assignments hab attr attr' named before after after'

/-- A parameter of type string with a default. -/
def labelParameter (name default : String) : ParameterDecl :=
  ⟨name, 0, .primitive .string, some (.string default), []⟩

/-- A default that looks like the end of one parameter and the start of the next. -/
def labelPair : String := "x\x22, string b = \x22y"

/-- Two parameters with defaults are not written as one whose default spells out both. -/
theorem quoted_literals_tell_texts_labels :
    IsDelimiter '\x22'
      ∧ readLiteral '\x22' ((quote '\x22' labelPair).toList ++ [')'])
          = some (labelPair.toList, [')'])
      ∧ ShownParameter.listText
            ([labelParameter "a" "x", labelParameter "b" "y"].map (ShownParameter.of .empty))
          ≠ ShownParameter.listText
            ([labelParameter "a" labelPair].map (ShownParameter.of .empty)) := by
  have hdelimiter : IsDelimiter '\x22' := Or.inl rfl
  obtain ⟨hread, -, -, -, -, hlists⟩ := quoted_literals_tell_texts hdelimiter labelPair
  refine ⟨hdelimiter, hread [')'], ?_⟩
  exact (hlists (.string "x") (.string labelPair) (.string "x") (.string labelPair) (by decide)).1
    .empty (labelParameter "a" "") [] [labelParameter "b" "y"] []

end ApiSurface
