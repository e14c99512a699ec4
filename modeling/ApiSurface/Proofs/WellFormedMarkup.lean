/-
Well-formed markup, and how the reader goes over it.

The reader does not check that markup is well formed; it looks for the ends of
units and compares closing tags with the open elements.  A `Fragment` is markup
that is well formed by construction: text, comments, raw sections, processing
instructions, empty elements, and elements with a fragment inside.  White space
and quotes are part of it, so each way of writing an element is a fragment of its
own.  The conditions on names, values and text are weaker than those of XML, hence
whatever is well formed there, references included, is the text of a fragment.

There is one lemma for each sort of unit, which says that the reader reads it as
one event and stands right behind it.  By induction the search for a closing tag
passes over a whole fragment, whatever elements it holds, and so the raw text of an
element is the fragment between its tags: `Fragment.elementText_chars`.
-/
import ApiSurface.Markup.Attribute
import ApiSurface.Proofs.Enclosed
import Mathlib.Data.List.Infix

namespace ApiSurface.Markup

open Text

/-! ### The parts of a tag -/

/-- White space, or nothing. -/
structure Gap where
  chars : List Char
  blank : ∀ c ∈ chars, isSpace c

/-- A character that means nothing in a tag but itself. -/
def isNameChar (c : Char) : Bool :=
  !isSpace c && c ∉ ['<', '>', '/', '=', '!', '?', '\x22', '\x27']

/-- The name of an element or of an attribute. -/
structure Name where
  chars : List Char
  ne_nil : chars ≠ []
  plain : ∀ c ∈ chars, isNameChar c

/-- An attribute and the white space before it; more may stand around the equals sign. -/
structure Attribute where
  gap : Gap
  key : Name
  beforeSign : Gap
  afterSign : Gap
  quote : Char
  value : List Char
  gap_ne_nil : gap.chars ≠ []
  isQuote : quote = '\x22' ∨ quote = '\x27'
  closed : quote ∉ value

/-- A tag without its brackets, and without the slash of an empty element. -/
structure Tag where
  name : Name
  attributes : List Attribute
  gap : Gap

def Gap.none : Gap := ⟨[], by simp⟩

def Gap.space : Gap := ⟨[' '], by simp [isSpace]⟩

def Name.of (word : List Char) (h : word ≠ [] ∧ word.all isNameChar) : Name where
  chars := word
  ne_nil := h.1
  plain := by simpa using h.2

def Tag.bare (word : List Char) (h : word ≠ [] ∧ word.all isNameChar) : Tag where
  name := .of word h
  attributes := []
  gap := .none

def Attribute.chars (attr : Attribute) : List Char :=
  attr.gap.chars ++ (attr.key.chars ++ (attr.beforeSign.chars ++ ['='] ++ (attr.afterSign.chars
    ++ (attr.quote :: attr.value ++ [attr.quote]))))

def Tag.content (tag : Tag) : List Char :=
  tag.name.chars ++ (tag.attributes.flatMap Attribute.chars ++ tag.gap.chars)

/-! ### Where a tag ends -/

/-- The search for the end of a tag runs over the text. -/
def Transparent (text : List Char) : Prop :=
  ∀ rest, untilTagEnd .outside (text ++ rest)
    = (untilTagEnd .outside rest).map fun cut => (text ++ cut.1, cut.2)

theorem Transparent.nil : Transparent [] := by
  intro rest
  simp

theorem Transparent.append {a b : List Char} (ha : Transparent a) (hb : Transparent b) :
    Transparent (a ++ b) := by
  intro rest
  rw [List.append_assoc, ha, hb, Option.map_map]
  simp [Function.comp_def]

theorem Transparent.flatMap {α : Type} {text : α → List Char} {items : List α}
    (h : ∀ item ∈ items, Transparent (text item)) : Transparent (items.flatMap text) := by
  induction items with
  | nil => exact .nil
  | cons item rest ih =>
      rw [List.flatMap_cons]
      exact (h item List.mem_cons_self).append
        (ih fun other hother => h other (List.mem_cons_of_mem _ hother))

theorem Transparent.of_notMem {text : List Char} (hclose : '>' ∉ text) (hdouble : '\x22' ∉ text)
    (hsingle : '\x27' ∉ text) : Transparent text := by
  induction text with
  | nil => exact .nil
  | cons c text ih =>
      rw [List.mem_cons, not_or] at hclose hdouble hsingle
      have htext := ih hclose.2 hdouble.2 hsingle.2
      intro rest
      simp [untilTagEnd, Quotes.step, Ne.symm hclose.1, Ne.symm hdouble.1, Ne.symm hsingle.1,
        htext rest, Function.comp_def]

/-- Inside of quotes the search goes to the closing quote. -/
theorem untilTagEnd_quoted {quotes : Quotes} {quote : Char} (hquotes : quotes ≠ .outside)
    (hopen : ∀ c, c ≠ quote → quotes.step c = quotes) (hclose : quotes.step quote = .outside)
    {value : List Char} (h : quote ∉ value) (rest : List Char) :
    untilTagEnd quotes (value ++ quote :: rest)
      = (untilTagEnd .outside rest).map fun cut => (value ++ quote :: cut.1, cut.2) := by
  induction value with
  | nil => simp [untilTagEnd, hquotes, hclose]
  | cons c value ih =>
      rw [List.mem_cons, not_or] at h
      simp [untilTagEnd, hquotes, hopen c (Ne.symm h.1), ih h.2, Function.comp_def]

theorem Transparent.quoted {quote : Char} (hquote : quote = '\x22' ∨ quote = '\x27')
    {value : List Char} (h : quote ∉ value) : Transparent (quote :: value ++ [quote]) := by
  intro rest
  rcases hquote with rfl | rfl
  · have hdouble : Quotes.double ≠ .outside := by simp
    have hinside := untilTagEnd_quoted hdouble (by intro c hc; simp [Quotes.step, hc])
      (by simp [Quotes.step]) h rest
    simp [untilTagEnd, Quotes.step, hinside, Function.comp_def]
  · have hsingle : Quotes.single ≠ .outside := by simp
    have hinside := untilTagEnd_quoted hsingle (by intro c hc; simp [Quotes.step, hc])
      (by simp [Quotes.step]) h rest
    simp [untilTagEnd, Quotes.step, hinside, Function.comp_def]

theorem Transparent.untilTagEnd {text : List Char} (h : Transparent text) (rest : List Char) :
    untilTagEnd .outside (text ++ '>' :: rest) = some (text, rest) := by
  rw [h]
  simp [Markup.untilTagEnd]

theorem Gap.notMem (gap : Gap) {c : Char} (hc : isSpace c = false) : c ∉ gap.chars := by
  intro hmem
  simp [gap.blank c hmem] at hc

theorem Gap.transparent (gap : Gap) : Transparent gap.chars :=
  .of_notMem (gap.notMem rfl) (gap.notMem rfl) (gap.notMem rfl)

theorem Name.notMem (name : Name) {c : Char} (hc : isNameChar c = false) : c ∉ name.chars := by
  intro hmem
  simp [name.plain c hmem] at hc

theorem Name.not_isSpace (name : Name) {c : Char} (hc : c ∈ name.chars) : isSpace c = false := by
  have hplain := name.plain c hc
  simp only [isNameChar, Bool.and_eq_true, Bool.not_eq_true'] at hplain
  exact hplain.1

theorem Name.transparent (name : Name) : Transparent name.chars :=
  .of_notMem (name.notMem rfl) (name.notMem rfl) (name.notMem rfl)

theorem Attribute.transparent (attr : Attribute) : Transparent attr.chars :=
  attr.gap.transparent.append (attr.key.transparent.append
    ((attr.beforeSign.transparent.append (.of_notMem (by simp) (by simp) (by simp))).append
      (attr.afterSign.transparent.append (.quoted attr.isQuote attr.closed))))

theorem Tag.transparent (tag : Tag) : Transparent tag.content :=
  tag.name.transparent.append
    ((Transparent.flatMap fun attr _ => attr.transparent).append tag.gap.transparent)

/-! ### Reading a tag -/

/-- A run of characters ends where the first other one stands. -/
theorem run_append {p : Char → Bool} {run rest : List Char} (hrun : ∀ c ∈ run, p c)
    (hrest : ∀ c, rest.head? = some c → p c = false) :
    (run ++ rest).takeWhile p = run ∧ (run ++ rest).dropWhile p = rest := by
  rw [List.takeWhile_append_of_pos hrun, List.dropWhile_append_of_pos hrun]
  cases rest with
  | nil => simp
  | cons c rest => simp [hrest c rfl]

theorem Tag.tagName_content (tag : Tag) : tagName tag.content = tag.name.chars := by
  have hname : ∀ c ∈ tag.name.chars, (!isSpace c) = true := by
    intro c hc
    simp [tag.name.not_isSpace hc]
  refine (run_append hname fun c hc => ?_).1
  rw [Bool.not_eq_false']
  cases hattrs : tag.attributes with
  | nil =>
      rw [hattrs, List.flatMap_nil, List.nil_append] at hc
      exact tag.gap.blank c (List.mem_of_head? hc)
  | cons attr attrs =>
      rw [hattrs, List.flatMap_cons, List.append_assoc, Attribute.chars, List.append_assoc,
        List.head?_append_of_ne_nil _ attr.gap_ne_nil] at hc
      exact attr.gap.blank c (List.mem_of_head? hc)

theorem getLast?_append_ne {c : Char} {a b : List Char} (ha : a.getLast? ≠ some c)
    (hb : b.getLast? ≠ some c) : (a ++ b).getLast? ≠ some c := by
  rw [List.getLast?_append]
  cases hlast : b.getLast? with
  | none => simpa using ha
  | some d => simpa [hlast] using hb

theorem Attribute.getLast?_chars (attr : Attribute) : attr.chars.getLast? = some attr.quote := by
  simp [Attribute.chars, List.getLast?_cons]

theorem Tag.getLast?_content (tag : Tag) : tag.content.getLast? ≠ some '/' := by
  have hattrs : (tag.attributes.flatMap Attribute.chars).getLast? ≠ some '/' := by
    induction tag.attributes with
    | nil => simp
    | cons attr attrs ih =>
        refine getLast?_append_ne ?_ ih
        rw [attr.getLast?_chars]
        rcases attr.isQuote with hquote | hquote <;> simp [hquote]
  have hname : tag.name.chars.getLast? ≠ some '/' :=
    fun hlast => tag.name.notMem rfl (List.mem_of_getLast? hlast)
  have hgap : tag.gap.chars.getLast? ≠ some '/' :=
    fun hlast => tag.gap.notMem rfl (List.mem_of_getLast? hlast)
  exact getLast?_append_ne hname (getLast?_append_ne hattrs hgap)

theorem openTag_content (opened : List (List Char)) (tag : Tag) (rest : List Char) :
    openTag opened tag.content rest = (.start tag.content, ⟨rest, tag.name.chars :: opened⟩) := by
  unfold openTag
  split
  · rename_i hlast
    exact absurd hlast tag.getLast?_content
  · rw [tag.tagName_content]

theorem openTag_content_slash (opened : List (List Char)) (tag : Tag) (rest : List Char) :
    openTag opened (tag.content ++ ['/']) rest = (.empty tag.content, ⟨rest, opened⟩) := by
  simp [openTag]

/-- The content of a tag does not start like any other unit. -/
theorem unit_content (opened : List (List Char)) (tag : Tag) (text : List Char) :
    unit opened (tag.content ++ text)
      = (untilTagEnd .outside (tag.content ++ text)).map fun cut => openTag opened cut.1 cut.2 := by
  cases hname : tag.name.chars with
  | nil => exact absurd hname tag.name.ne_nil
  | cons c chars =>
      have hc : isNameChar c := tag.name.plain c (by simp [hname])
      have hmark : c ≠ '!' ∧ c ≠ '?' ∧ c ≠ '/' := by
        refine ⟨?_, ?_, ?_⟩ <;> rintro rfl <;> simp [isNameChar] at hc
      simp [Tag.content, hname, unit, hmark]

/-- What follows an opening angle bracket is the next event. -/
theorem step_of_unit {opened : List (List Char)} {text : List Char} {event : Event} {next : Reader}
    (h : unit opened text = some (event, next)) :
    Reader.step ⟨'<' :: text, opened⟩ = .event [] event next := by
  simp [Reader.step, cutFirst, h]

theorem step_start (opened : List (List Char)) (tag : Tag) (rest : List Char) :
    Reader.step ⟨'<' :: (tag.content ++ '>' :: rest), opened⟩
      = .event [] (.start tag.content) ⟨rest, tag.name.chars :: opened⟩ := by
  refine step_of_unit ?_
  rw [unit_content, tag.transparent.untilTagEnd, Option.map_some, openTag_content]

theorem slash_transparent : Transparent ['/'] :=
  .of_notMem (by simp) (by simp) (by simp)

theorem step_empty (opened : List (List Char)) (tag : Tag) (rest : List Char) :
    Reader.step ⟨'<' :: (tag.content ++ '/' :: '>' :: rest), opened⟩
      = .event [] (.empty tag.content) ⟨rest, opened⟩ := by
  refine step_of_unit ?_
  have hslash : Transparent (tag.content ++ ['/']) :=
    tag.transparent.append slash_transparent
  have hend := hslash.untilTagEnd rest
  rw [List.append_assoc, List.singleton_append] at hend
  rw [unit_content, hend, Option.map_some, openTag_content_slash]

theorem closingName_append (name : Name) (gap : Gap) :
    closingName (name.chars ++ gap.chars) = name.chars := by
  have hgap : ∀ c ∈ gap.chars.reverse, isSpace c := by
    simpa using gap.blank
  have hname : ∀ c, name.chars.reverse.head? = some c → isSpace c = false :=
    fun c hc => name.not_isSpace (List.mem_reverse.mp (List.mem_of_head? hc))
  simp [closingName, (run_append hgap hname).2, name.ne_nil]

theorem step_finish (opened : List (List Char)) (name : Name) (gap : Gap) (rest : List Char) :
    Reader.step ⟨'<' :: '/' :: (name.chars ++ (gap.chars ++ '>' :: rest)), name.chars :: opened⟩
      = .event [] (.finish name.chars) ⟨rest, opened⟩ := by
  refine step_of_unit ?_
  have hinside : Transparent ('/' :: (name.chars ++ gap.chars)) :=
    slash_transparent.append (name.transparent.append gap.transparent)
  have hend := hinside.untilTagEnd rest
  rw [List.cons_append, List.append_assoc] at hend
  simp [unit, hend, closeTag, closingName_append]

/-! ### Units that are no tags -/

/-- A unit that says nothing about the elements. -/
inductive Aside where
  | comment (text : List Char) (closed : ¬['-', '-'] <:+: text ++ ['-'])
  | rawSection (text : List Char) (closed : ¬[']', ']', '>'] <:+: text)
  | instruction (target : Name) (data : List Char) (closed : ¬['?', '>'] <:+: data)

/-- What stands between the angle brackets of the unit. -/
def Aside.inside : Aside → List Char
  | comment text _ => ['!', '-', '-'] ++ (text ++ ['-', '-'])
  | rawSection text _ => ['!', '[', 'C', 'D', 'A', 'T', 'A', '['] ++ (text ++ [']', ']'])
  | instruction target data _ => '?' :: (target.chars ++ (data ++ ['?']))

/-- A unit goes to the first bracket that it may end at. -/
theorem untilClose_append {stop : List Char → Bool} {text reversed : List Char}
    (hstop : stop (text.reverse ++ reversed))
    (hinside : ∀ before after, text = before ++ '>' :: after →
      stop (before.reverse ++ reversed) = false) (rest : List Char) :
    untilClose stop reversed (text ++ '>' :: rest) = some (reversed.reverse ++ text, rest) := by
  induction text generalizing reversed with
  | nil =>
      rw [List.reverse_nil, List.nil_append] at hstop
      simp [untilClose, hstop]
  | cons c text ih =>
      have hc : ¬(c = '>' ∧ stop reversed) := by
        rintro ⟨rfl, hc⟩
        have hfirst := hinside [] text rfl
        rw [List.reverse_nil, List.nil_append, hc] at hfirst
        simp at hfirst
      rw [List.cons_append, untilClose, if_neg hc, ih]
      · simp
      · simpa using hstop
      · intro before after htext
        simpa using hinside (c :: before) after (by rw [htext, List.cons_append])

theorem exists_append_of_isPrefixOf {reversed before : List Char}
    (h : reversed.isPrefixOf before.reverse) : ∃ start, before = start ++ reversed.reverse := by
  obtain ⟨start, hstart⟩ := List.isPrefixOf_iff_prefix.mp h
  exact ⟨start.reverse, by rw [← List.reverse_append, hstart, List.reverse_reverse]⟩

/-- A character that the unit does not end with may be taken off. -/
theorem infix_of_infix_concat {ending text : List Char} {last c : Char} (hc : c ≠ last)
    (h : ending ++ [last] <:+: text ++ [c]) : ending ++ [last] <:+: text := by
  rcases List.infix_concat_iff.mp h with ⟨before, hsuffix⟩ | hinfix
  · rw [← List.append_assoc] at hsuffix
    have hlast := (List.append_inj' hsuffix rfl).2
    simp [Ne.symm hc] at hlast
  · exact hinfix

theorem comment_inside {text : List Char} (closed : ¬['-', '-'] <:+: text ++ ['-'])
    (rest : List Char) :
    comment ((Aside.comment text closed).inside ++ '>' :: rest) = some rest := by
  let stop (reversed : List Char) : Bool :=
    reversed.length > 4 && ['-', '-'].isPrefixOf reversed
  have hstop : stop ((Aside.comment text closed).inside.reverse ++ []) := by
    simp [stop, Aside.inside]
  have hinside : ∀ before after, (Aside.comment text closed).inside = before ++ '>' :: after →
      stop (before.reverse ++ []) = false := by
    intro before after htext
    by_contra hearly
    simp only [stop, List.append_nil, List.length_reverse, Bool.and_eq_false_iff, not_or,
      Bool.not_eq_false, decide_eq_true_eq] at hearly
    obtain ⟨start, rfl⟩ := exists_append_of_isPrefixOf hearly.2
    have hstart : 3 ≤ start.length := by
      have hlong := hearly.1
      simp at hlong
      omega
    have hinfix : ['-', '-'] ++ ['>'] <:+: (text ++ ['-']) ++ ['-'] := by
      have hdrop := congrArg (List.drop 3) htext
      refine ⟨start.drop 3, after, ?_⟩
      simpa [Aside.inside, List.drop_append_of_le_length hstart] using hdrop.symm
    have hfirst : ['-', '-'] <:+: ['-', '-'] ++ ['>'] := (List.prefix_append _ _).isInfix
    exact closed (hfirst.trans (infix_of_infix_concat (by decide) hinfix))
  unfold comment
  rw [untilClose_append hstop hinside rest]
  simp [Aside.inside]

/-- A unit with a fixed ending goes to its first ending. -/
theorem untilClose_ending {ending text : List Char} (hends : ending.isPrefixOf text.reverse)
    (h : ¬ending.reverse ++ ['>'] <:+: text) (rest : List Char) :
    untilClose (fun reversed => ending.isPrefixOf reversed) [] (text ++ '>' :: rest)
      = some (text, rest) := by
  refine untilClose_append (by simpa using hends) ?_ rest
  intro before after htext
  by_contra hearly
  rw [List.append_nil, Bool.not_eq_false] at hearly
  obtain ⟨start, rfl⟩ := exists_append_of_isPrefixOf hearly
  exact h ⟨start, after, by simp [htext]⟩

theorem rawSection_inside {text : List Char} (closed : ¬[']', ']', '>'] <:+: text)
    (rest : List Char) :
    rawSection ((Aside.rawSection text closed).inside ++ '>' :: rest) = some rest := by
  have hopen : ¬[']', ']'].reverse ++ ['>'] <:+: (Aside.rawSection text closed).inside := by
    intro hinfix
    have htext : [']', ']'] ++ ['>'] <:+: (text ++ [']']) ++ [']'] := by
      simpa [Aside.inside, List.infix_cons_iff] using hinfix
    exact closed (infix_of_infix_concat (by decide) (infix_of_infix_concat (by decide) htext))
  have hstart : "![CDATA[".toList.isPrefixOf (Aside.rawSection text closed).inside :=
    List.isPrefixOf_iff_prefix.mpr (List.prefix_append _ _)
  unfold rawSection
  rw [untilClose_ending (by simp [Aside.inside]) hopen rest, Option.bind_eq_bind,
    Option.bind_some]
  exact if_pos hstart

/-- What starts with another character is not found in the front part. -/
theorem infix_of_infix_append {first : Char} {pattern before text : List Char}
    (hbefore : first ∉ before) (h : first :: pattern <:+: before ++ text) :
    first :: pattern <:+: text := by
  induction before with
  | nil => exact h
  | cons c before ih =>
      rw [List.mem_cons, not_or] at hbefore
      rcases List.infix_cons_iff.mp h with hprefix | hinfix
      · exact absurd (List.cons_prefix_cons.mp hprefix).1 hbefore.1
      · exact ih hbefore.2 hinfix

theorem instruction_inside {target : Name} {data : List Char} (closed : ¬['?', '>'] <:+: data)
    (rest : List Char) :
    instruction ((Aside.instruction target data closed).inside ++ '>' :: rest) = some rest := by
  have hopen : ¬['?'].reverse ++ ['>'] <:+: (Aside.instruction target data closed).inside := by
    intro hinfix
    rcases List.infix_cons_iff.mp hinfix with hprefix | hinfix
    · obtain ⟨c, chars, htarget⟩ := List.exists_cons_of_ne_nil target.ne_nil
      have hc : c ≠ '>' := by
        rintro rfl
        exact target.notMem rfl (htarget ▸ List.mem_cons_self)
      simp [htarget, hc.symm] at hprefix
    · have hdata : ['?'] ++ ['>'] <:+: data ++ ['?'] :=
        infix_of_infix_append (target.notMem rfl) hinfix
      exact closed (infix_of_infix_concat (by decide) hdata)
  unfold instruction
  rw [untilClose_ending (by simp [Aside.inside]) hopen rest]
  simp [Aside.inside]

theorem step_aside (opened : List (List Char)) (aside : Aside) (rest : List Char) :
    Reader.step ⟨'<' :: (aside.inside ++ '>' :: rest), opened⟩ = .event [] .other ⟨rest, opened⟩ := by
  refine step_of_unit ?_
  cases aside with
  | comment text closed =>
      show (comment ((Aside.comment text closed).inside ++ '>' :: rest)).map _ = _
      rw [comment_inside, Option.map_some]
  | rawSection text closed =>
      show (rawSection ((Aside.rawSection text closed).inside ++ '>' :: rest)).map _ = _
      rw [rawSection_inside, Option.map_some]
  | instruction target data closed =>
      show (instruction ((Aside.instruction target data closed).inside ++ '>' :: rest)).map _ = _
      rw [instruction_inside, Option.map_some]

/-! ### Attributes -/

/-- The character as it is written in an attribute. -/
def entityText (c : Char) : List Char :=
  match entities.find? fun entity => entity.2 = c with
  | some entity => '&' :: (entity.1.toList ++ [';'])
  | none => [c]

/-- The text as it is written in an attribute. -/
def attributeText (text : List Char) : List Char := text.flatMap entityText

theorem unescapeFrom_entityText (c : Char) (rest : List Char) :
    unescapeFrom none (entityText c ++ rest) = (unescapeFrom none rest).map (c :: ·) := by
  unfold entityText
  cases hfind : entities.find? fun entity => entity.2 = c with
  | none =>
      have hc : c ≠ '&' := by
        rintro rfl
        simp [entities] at hfind
      simp [unescapeFrom, hc]
  | some entity =>
      have hmem := List.mem_of_find?_eq_some hfind
      have hc : entity.2 = c := by simpa using List.find?_some hfind
      subst hc
      simp only [entities, List.mem_cons, List.not_mem_nil, or_false] at hmem
      rcases hmem with rfl | rfl | rfl | rfl | rfl <;> rfl

theorem unescape_attributeText (text : List Char) : unescape (attributeText text) = some text := by
  unfold unescape attributeText
  induction text with
  | nil => rfl
  | cons c text ih => rw [List.flatMap_cons, unescapeFrom_entityText, ih, Option.map_some]

theorem quote_notMem_attributeText (text : List Char) : '\x22' ∉ attributeText text := by
  intro hmem
  obtain ⟨c, -, hc⟩ := List.mem_flatMap.mp hmem
  unfold entityText at hc
  cases hfind : entities.find? fun entity => entity.2 = c with
  | none =>
      rw [hfind, List.mem_singleton] at hc
      simp [← hc, entities] at hfind
  | some entity =>
      have hmem := List.mem_of_find?_eq_some hfind
      simp only [hfind] at hc
      simp only [entities, List.mem_cons, List.not_mem_nil, or_false] at hmem
      rcases hmem with rfl | rfl | rfl | rfl | rfl <;> simp at hc

theorem Gap.dropWhile_append (gap : Gap) {c : Char} (hc : isSpace c = false) (rest : List Char) :
    (gap.chars ++ c :: rest).dropWhile isSpace = c :: rest := by
  rw [List.dropWhile_append_of_pos gap.blank, List.dropWhile_cons_of_neg (by simp [hc])]

theorem quotedValue_quote {quote : Char} (hquote : quote = '\x22' ∨ quote = '\x27')
    {value : List Char} (h : quote ∉ value) (rest : List Char) :
    quotedValue (quote :: (value ++ quote :: rest)) = some (value, rest) := by
  rcases hquote with rfl | rfl
  · exact cutFirst_append h rest
  · exact cutFirst_append h rest

theorem scan_attribute (attr : Attribute) (rest : List Char) :
    scan (attr.chars ++ rest) = .found ⟨attr.key.chars, attr.value, rest⟩ := by
  let isKey (d : Char) : Bool := d ≠ '=' && !isSpace d
  let value := attr.quote :: (attr.value ++ attr.quote :: rest)
  let sign := attr.beforeSign.chars ++ '=' :: (attr.afterSign.chars ++ value)
  obtain ⟨c, key, hkey⟩ := List.exists_cons_of_ne_nil attr.key.ne_nil
  have hkeys : ∀ d ∈ key, isKey d := by
    intro d hd
    have hmem : d ∈ attr.key.chars := by simp [hkey, hd]
    have hsign : d ≠ '=' := by
      rintro rfl
      exact attr.key.notMem rfl hmem
    simp [isKey, hsign, attr.key.not_isSpace hmem]
  -- the key ends at white space or at the sign
  have hend : ∀ d, sign.head? = some d → isKey d = false := by
    intro d hd
    cases hgap : attr.beforeSign.chars with
    | nil =>
        simp only [sign, hgap, List.nil_append, List.head?_cons, Option.some.injEq] at hd
        simp [isKey, ← hd]
    | cons e gap =>
        have hblank := attr.beforeSign.blank e (by simp [hgap])
        simp only [sign, hgap, List.cons_append, List.head?_cons, Option.some.injEq] at hd
        simp [isKey, ← hd, hblank]
  have htext : attr.chars ++ rest = attr.gap.chars ++ c :: (key ++ sign) := by
    simp [Attribute.chars, hkey, sign, value]
  have hquote : isSpace attr.quote = false := by
    rcases attr.isQuote with hquote | hquote <;> rw [hquote] <;> rfl
  rw [htext, scan, attr.gap.dropWhile_append (attr.key.not_isSpace (by simp [hkey]))]
  simp only
  rw [(run_append hkeys hend).1, (run_append hkeys hend).2, attr.beforeSign.dropWhile_append rfl]
  simp only
  rw [attr.afterSign.dropWhile_append hquote, quotedValue_quote attr.isQuote attr.closed, hkey]

theorem attributeValue_attribute (attr : Attribute) {name : List Char} (h : attr.key.chars = name)
    (rest : List Char) : attributeValue name (attr.chars ++ rest) = some (some attr.value) := by
  rw [attributeValue]
  split
  · rename_i hscan; simp [scan_attribute] at hscan
  · rename_i hscan; simp [scan_attribute] at hscan
  · rename_i found hscan
    rw [scan_attribute] at hscan
    obtain rfl := Scan.found.inj hscan
    exact if_pos h

/-! ### Fragments -/

/-- Well-formed markup, as it may stand inside of an element. -/
inductive Fragment where
  | nil
  | text (between : List Char) (plain : '<' ∉ between) (rest : Fragment)
  | aside (unit : Aside) (rest : Fragment)
  | empty (tag : Tag) (rest : Fragment)
  /-- An element, with the white space in its closing tag. -/
  | element (tag : Tag) (inside : Fragment) (gap : Gap) (rest : Fragment)

/-- White space and a fragment behind it. -/
def Gap.before (gap : Gap) (rest : Fragment) : Fragment :=
  .text gap.chars (gap.notMem rfl) rest

namespace Fragment

def chars : Fragment → List Char
  | nil => []
  | text between _ rest => between ++ rest.chars
  | aside unit rest => '<' :: (unit.inside ++ '>' :: rest.chars)
  | empty tag rest => '<' :: (tag.content ++ '/' :: '>' :: rest.chars)
  | element tag inside gap rest =>
    '<' :: (tag.content ++ '>' :: (inside.chars
      ++ '<' :: '/' :: (tag.name.chars ++ (gap.chars ++ '>' :: rest.chars))))

end Fragment

/-! ### Passing over a fragment -/

/-- The step of a reader that has some text before it. -/
def Step.behind (text : List Char) : Step → Step
  | done => done
  | broken => broken
  | event before found next => event (text ++ before) found next

theorem step_text {text : List Char} (h : '<' ∉ text) (rest : List Char)
    (opened : List (List Char)) :
    Reader.step ⟨text ++ rest, opened⟩ = (Reader.step ⟨rest, opened⟩).behind text := by
  unfold Reader.step
  cases hcut : cutFirst '<' rest with
  | none =>
      have hnone : cutFirst '<' (text ++ rest) = none := by
        rw [cutFirst_eq_none_iff] at hcut ⊢
        simpa [hcut] using h
      simp [hnone, Step.behind]
  | some cut =>
      obtain ⟨before, after⟩ := cut
      obtain ⟨rfl, hbefore⟩ := cutFirst_eq_some hcut
      have hsome : cutFirst '<' (text ++ (before ++ '<' :: after)) = some (text ++ before, after) := by
        rw [← List.append_assoc]
        exact cutFirst_append (by simpa [hbefore] using h) after
      simp only [hsome]
      cases hunit : unit opened after with
      | none => simp [Step.behind]
      | some read => simp [Step.behind]

theorem closingTag_eq (name : List Char) (inner : Nat) (reader : Reader) :
    closingTag name inner reader = match reader.step with
      | .done => none
      | .broken => none
      | .event before event next =>
        match event with
        | .start content =>
          closingTag name (if tagName content = name then inner + 1 else inner) next
        | .finish closed =>
          if closed = name then
            if inner = 0 then some (reader.rest.length - before.length, next)
            else closingTag name (inner - 1) next
          else closingTag name inner next
        | .empty _ => closingTag name inner next
        | .other => closingTag name inner next := by
  rw [closingTag]
  split
  · rename_i hstep; rw [hstep]
  · rename_i hstep; rw [hstep]
  · rename_i before event next hstep
    conv_rhs => rw [hstep]
    cases event <;> rfl

theorem closingTag_text {text : List Char} (h : '<' ∉ text) (name : List Char) (inner : Nat)
    (rest : List Char) (opened : List (List Char)) :
    closingTag name inner ⟨text ++ rest, opened⟩ = closingTag name inner ⟨rest, opened⟩ := by
  rw [closingTag_eq, closingTag_eq name inner ⟨rest, opened⟩, step_text h]
  cases Reader.step ⟨rest, opened⟩ with
  | done => rfl
  | broken => rfl
  | event before event next =>
      cases event with
      | finish closed =>
          have hleft : (text ++ rest).length - (text ++ before).length
              = rest.length - before.length := by
            rw [List.length_append, List.length_append]
            omega
          simp only [Step.behind, hleft]
      | start content => rfl
      | empty content => rfl
      | other => rfl

namespace Fragment

/-- The search for a closing tag passes over a fragment, since what opens there closes there. -/
theorem closingTag_chars (fragment : Fragment) (name : List Char) (inner : Nat) (rest : List Char)
    (opened : List (List Char)) :
    closingTag name inner ⟨fragment.chars ++ rest, opened⟩
      = closingTag name inner ⟨rest, opened⟩ := by
  induction fragment generalizing inner rest opened with
  | nil => rfl
  | text between plain more ih =>
      rw [chars, List.append_assoc, closingTag_text plain, ih]
  | aside unit more ih =>
      simp only [chars, List.cons_append, List.append_assoc]
      rw [closingTag_eq, step_aside]
      exact ih inner rest opened
  | empty tag more ih =>
      simp only [chars, List.cons_append, List.append_assoc]
      rw [closingTag_eq, step_empty]
      exact ih inner rest opened
  | element tag inside gap more ihInside ih =>
      simp only [chars, List.cons_append, List.append_assoc]
      rw [closingTag_eq, step_start]
      simp only [tag.tagName_content]
      rw [ihInside, closingTag_eq, step_finish]
      by_cases hname : tag.name.chars = name
      · simp [hname, ih]
      · simp [hname, ih]

/-- **The raw text of an element is what stands between its tags.** -/
theorem elementText_chars (fragment : Fragment) (name : Name) (gap : Gap) (rest : List Char)
    (opened : List (List Char)) :
    elementText name.chars ⟨fragment.chars
        ++ '<' :: '/' :: (name.chars ++ (gap.chars ++ '>' :: rest)), name.chars :: opened⟩
      = some (fragment.chars, ⟨rest, opened⟩) := by
  rw [elementText, closingTag_chars, closingTag_eq, step_finish]
  simp

end Fragment

end ApiSurface.Markup
