/-
Reading markup as a stream of events.

The reader is lenient: it knows tags, comments, raw sections, processing
instructions and document types, and everything else is text, which it skips.  A
tag ends at the next `>` outside quotes.  Closing tags must match the innermost
open element; elements that are still open at the end are not an error.

A reader is the rest of the text and the names of the open elements.  Reading an
event leaves a shorter rest, which is why loops over events end.
-/
import ApiSurface.Text.Basic

namespace ApiSurface.Markup

/-- The white space of markup: space, tab, carriage return and line feed. -/
def isSpace (c : Char) : Bool := c = ' ' || c = '\t' || c = '\r' || c = '\n'

/-- What was read; the content of a tag is its text without the angle brackets and slashes. -/
inductive Event where
  | start (content : List Char)
  | empty (content : List Char)
  | finish (name : List Char)
  /-- A comment, raw section, processing instruction or document type. -/
  | other
  deriving DecidableEq, Repr

/-- The name in the content of a tag: everything up to the first white space. -/
def tagName (content : List Char) : List Char := content.takeWhile fun c => !isSpace c

/-! ### Finding where a unit ends -/

/-- Which quotes the reader is inside of. -/
inductive Quotes where
  | outside
  | single
  | double
  deriving DecidableEq, Repr

/-- The quotes after a character. -/
def Quotes.step (quotes : Quotes) (c : Char) : Quotes :=
  match quotes with
  | .outside => if c = '\x27' then .single else if c = '\x22' then .double else .outside
  | .single => if c = '\x27' then .outside else .single
  | .double => if c = '\x22' then .outside else .double

/-- The text up to the first `>` outside quotes, and the text after it. -/
def untilTagEnd (quotes : Quotes) : List Char → Option (List Char × List Char)
  | [] => none
  | c :: rest =>
    if c = '>' ∧ quotes = .outside then some ([], rest)
    else (untilTagEnd (quotes.step c) rest).map fun cut => (c :: cut.1, cut.2)

/-- The text up to the first `>` that `stop` accepts, given the reversed text before it, and the
text after it. -/
def untilClose (stop : List Char → Bool) (reversed : List Char) :
    List Char → Option (List Char × List Char)
  | [] => none
  | c :: rest =>
    if c = '>' ∧ stop reversed then some (reversed.reverse, rest)
    else untilClose stop (c :: reversed) rest

/-- The text up to the `>` that closes a document type, and the text after it.  Inner angle
brackets come in pairs, `depth` of which are open. -/
def untilTypeEnd (depth : Nat) : List Char → Option (List Char × List Char)
  | [] => none
  | c :: rest =>
    if c = '>' ∧ depth = 0 then some ([], rest)
    else
      let depth' := if c = '<' then depth + 1 else if c = '>' then depth - 1 else depth
      (untilTypeEnd depth' rest).map fun cut => (c :: cut.1, cut.2)

/-! ### Events -/

/-- The text that is left to read, and the names of the open elements, innermost first. -/
structure Reader where
  rest : List Char
  opened : List (List Char)
  deriving DecidableEq, Repr

/-- A comment starts with `!--` and ends with two hyphens of its own. -/
def comment (text : List Char) : Option (List Char) := do
  let (unit, rest) ← untilClose
    (fun reversed => reversed.length > 4 && ['-', '-'].isPrefixOf reversed) [] text
  if "!--".toList.isPrefixOf unit then some rest else none

/-- A raw section starts with `![CDATA[` and ends with two square brackets. -/
def rawSection (text : List Char) : Option (List Char) := do
  let (unit, rest) ← untilClose (fun reversed => [']', ']'].isPrefixOf reversed) [] text
  if "![CDATA[".toList.isPrefixOf unit then some rest else none

/-- A document type starts with `!DOCTYPE` in any case and says more than that. -/
def documentType (text : List Char) : Option (List Char) := do
  let (unit, rest) ← untilTypeEnd 0 text
  let keyword := (unit.take 8).map Char.toUpper
  if keyword = "!DOCTYPE".toList ∧ (unit.drop 8).any (fun c => !isSpace c) then some rest
  else none

/-- A processing instruction starts and ends with a question mark, and not with the same one. -/
def instruction (text : List Char) : Option (List Char) := do
  let (unit, rest) ← untilClose (fun reversed => ['?'].isPrefixOf reversed) [] text
  if 1 < unit.length then some rest else none

/-- The rest after a unit that starts with an exclamation mark. -/
def declaration (text : List Char) : Option (List Char) :=
  match text with
  | _ :: '-' :: _ => comment text
  | _ :: '[' :: _ => rawSection text
  | _ :: 'D' :: _ => documentType text
  | _ :: 'd' :: _ => documentType text
  | _ => none

/-- The content of a closing tag without the white space at its end. -/
def closingName (content : List Char) : List Char :=
  let name := (content.reverse.dropWhile isSpace).reverse
  if name.isEmpty then content else name

/-- The event of a closing tag; its name must be that of the innermost open element. -/
def closeTag (opened : List (List Char)) (content rest : List Char) : Option (Event × Reader) :=
  match opened with
  | [] => none
  | innermost :: others =>
    let name := closingName content
    if name = innermost then some (.finish name, ⟨rest, others⟩) else none

/-- The event of a tag that does not close; a slash at its end makes the element empty. -/
def openTag (opened : List (List Char)) (content rest : List Char) : Event × Reader :=
  match content.getLast? with
  | some '/' => (.empty content.dropLast, ⟨rest, opened⟩)
  | _ => (.start content, ⟨rest, tagName content :: opened⟩)

/-- Reads the unit after an opening angle bracket; `none` if it is broken. -/
def unit (opened : List (List Char)) (text : List Char) : Option (Event × Reader) :=
  match text with
  | [] => none
  | '!' :: _ => (declaration text).map fun rest => (.other, ⟨rest, opened⟩)
  | '?' :: _ => (instruction text).map fun rest => (.other, ⟨rest, opened⟩)
  | '/' :: _ => (untilTagEnd .outside text).bind fun cut => closeTag opened (cut.1.drop 1) cut.2
  | _ => (untilTagEnd .outside text).map fun cut => openTag opened cut.1 cut.2

/-- What reading the next event gives. -/
inductive Step where
  /-- Nothing but text is left. -/
  | done
  /-- The markup is broken. -/
  | broken
  /-- An event, where it starts, and the reader after it: `before` is the text up to its opening
  angle bracket. -/
  | event (before : List Char) (event : Event) (next : Reader)
  deriving DecidableEq, Repr

/-- Reads the next event, skipping text. -/
def Reader.step (reader : Reader) : Step :=
  match Text.cutFirst '<' reader.rest with
  | none => .done
  | some (before, text) =>
    match unit reader.opened text with
    | none => .broken
    | some (event, next) => .event before event next

/-- The reader at the start of a text; a byte order mark is skipped. -/
def Reader.start (text : String) : Reader :=
  match text.toList with
  | '\uFEFF' :: rest => ⟨rest, []⟩
  | chars => ⟨chars, []⟩

/-! ### Every event shortens the rest -/

theorem untilTagEnd_length {quotes : Quotes} {text inside rest : List Char}
    (h : untilTagEnd quotes text = some (inside, rest)) : rest.length < text.length := by
  induction text generalizing quotes inside rest with
  | nil => simp [untilTagEnd] at h
  | cons c tail ih =>
    rw [untilTagEnd] at h
    split at h
    · obtain ⟨rfl, rfl⟩ := Prod.mk.inj (Option.some.inj h)
      simp
    · obtain ⟨⟨a, b⟩, hcut, heq⟩ := Option.map_eq_some_iff.mp h
      obtain ⟨rfl, rfl⟩ := Prod.mk.inj heq
      have := ih hcut
      simp only [List.length_cons]
      omega

theorem untilClose_length {stop : List Char → Bool} {reversed text inside rest : List Char}
    (h : untilClose stop reversed text = some (inside, rest)) : rest.length < text.length := by
  induction text generalizing reversed inside rest with
  | nil => simp [untilClose] at h
  | cons c tail ih =>
    rw [untilClose] at h
    split at h
    · obtain ⟨rfl, rfl⟩ := Prod.mk.inj (Option.some.inj h)
      simp
    · have := ih h
      simp only [List.length_cons]
      omega

theorem untilTypeEnd_length {depth : Nat} {text inside rest : List Char}
    (h : untilTypeEnd depth text = some (inside, rest)) : rest.length < text.length := by
  induction text generalizing depth inside rest with
  | nil => simp [untilTypeEnd] at h
  | cons c tail ih =>
    rw [untilTypeEnd] at h
    split at h
    · obtain ⟨rfl, rfl⟩ := Prod.mk.inj (Option.some.inj h)
      simp
    · obtain ⟨⟨a, b⟩, hcut, heq⟩ := Option.map_eq_some_iff.mp h
      obtain ⟨rfl, rfl⟩ := Prod.mk.inj heq
      have := ih hcut
      simp only [List.length_cons]
      omega

theorem comment_length {text rest : List Char} (h : comment text = some rest) :
    rest.length < text.length := by
  obtain ⟨⟨inside, after⟩, hcut, heq⟩ := Option.bind_eq_some_iff.mp h
  have := untilClose_length hcut
  simp only at heq
  split at heq
  · obtain rfl := Option.some.inj heq; exact this
  · simp at heq

theorem rawSection_length {text rest : List Char} (h : rawSection text = some rest) :
    rest.length < text.length := by
  obtain ⟨⟨inside, after⟩, hcut, heq⟩ := Option.bind_eq_some_iff.mp h
  have := untilClose_length hcut
  simp only at heq
  split at heq
  · obtain rfl := Option.some.inj heq; exact this
  · simp at heq

theorem documentType_length {text rest : List Char} (h : documentType text = some rest) :
    rest.length < text.length := by
  obtain ⟨⟨inside, after⟩, hcut, heq⟩ := Option.bind_eq_some_iff.mp h
  have := untilTypeEnd_length hcut
  simp only at heq
  split at heq
  · obtain rfl := Option.some.inj heq; exact this
  · simp at heq

theorem instruction_length {text rest : List Char} (h : instruction text = some rest) :
    rest.length < text.length := by
  obtain ⟨⟨inside, after⟩, hcut, heq⟩ := Option.bind_eq_some_iff.mp h
  have := untilClose_length hcut
  simp only at heq
  split at heq
  · obtain rfl := Option.some.inj heq; exact this
  · simp at heq

theorem declaration_length {text rest : List Char} (h : declaration text = some rest) :
    rest.length < text.length := by
  unfold declaration at h
  split at h
  · exact comment_length h
  · exact rawSection_length h
  · exact documentType_length h
  · exact documentType_length h
  · simp at h

theorem closeTag_rest {opened : List (List Char)} {content rest : List Char} {event : Event}
    {next : Reader} (h : closeTag opened content rest = some (event, next)) : next.rest = rest := by
  unfold closeTag at h
  split at h
  · simp at h
  · simp only at h
    split at h
    · obtain ⟨_, rfl⟩ := Prod.mk.inj (Option.some.inj h); rfl
    · simp at h

theorem openTag_rest (opened : List (List Char)) (content rest : List Char) :
    (openTag opened content rest).2.rest = rest := by
  unfold openTag
  split <;> rfl

theorem unit_length {opened : List (List Char)} {text : List Char} {event : Event} {next : Reader}
    (h : unit opened text = some (event, next)) : next.rest.length < text.length := by
  unfold unit at h
  split at h
  · simp at h
  · obtain ⟨rest, hrest, heq⟩ := Option.map_eq_some_iff.mp h
    obtain ⟨_, rfl⟩ := Prod.mk.inj heq
    exact declaration_length hrest
  · obtain ⟨rest, hrest, heq⟩ := Option.map_eq_some_iff.mp h
    obtain ⟨_, rfl⟩ := Prod.mk.inj heq
    exact instruction_length hrest
  · obtain ⟨⟨inside, rest⟩, hcut, hclose⟩ := Option.bind_eq_some_iff.mp h
    rw [closeTag_rest hclose]
    exact untilTagEnd_length hcut
  · obtain ⟨⟨inside, rest⟩, hcut, heq⟩ := Option.map_eq_some_iff.mp h
    have hnext : next.rest = rest := by
      rw [← openTag_rest opened inside rest, heq]
    rw [hnext]
    exact untilTagEnd_length hcut

/-- Reading an event leaves less to read. -/
theorem Reader.step_length {reader next : Reader} {before : List Char} {event : Event}
    (h : reader.step = .event before event next) : next.rest.length < reader.rest.length := by
  unfold Reader.step at h
  split at h
  · simp at h
  · rename_i before' text hcut
    split at h
    · simp at h
    · rename_i event' next' hunit
      injection h with _ _ hnext
      subst hnext
      have h₁ := unit_length hunit
      have h₂ := (Text.cutFirst_eq_some hcut).1
      rw [h₂]
      simp only [List.length_append, List.length_cons]
      omega

/-! ### The text of an element -/

/-- Where the closing tag of an open element starts, as the number of characters left there, and
the reader after it; `none` if the markup is broken or the element is never closed.  `inner`
counts the open elements of the same name inside it. -/
def closingTag (name : List Char) (inner : Nat) (reader : Reader) : Option (Nat × Reader) :=
  match hstep : reader.step with
  | .done => none
  | .broken => none
  | .event before event next =>
    match event with
    | .start content => closingTag name (if tagName content = name then inner + 1 else inner) next
    | .finish closed =>
      if closed = name then
        if inner = 0 then some (reader.rest.length - before.length, next)
        else closingTag name (inner - 1) next
      else closingTag name inner next
    | .empty _ => closingTag name inner next
    | .other => closingTag name inner next
  termination_by reader.rest.length
  decreasing_by all_goals exact Reader.step_length hstep

/-- The raw text of the element of the given name that was opened last, and the reader after its
closing tag. -/
def elementText (name : List Char) (reader : Reader) : Option (List Char × Reader) :=
  (closingTag name 0 reader).map fun found =>
    (reader.rest.take (reader.rest.length - found.1), found.2)

theorem closingTag_length {name : List Char} {inner : Nat} {reader : Reader} {left : Nat}
    {next : Reader} (h : closingTag name inner reader = some (left, next)) :
    next.rest.length < reader.rest.length := by
  fun_induction closingTag name inner reader <;> grind [→ Reader.step_length]

/-- Reading the text of an element leaves less to read. -/
theorem elementText_length {name : List Char} {reader : Reader} {text : List Char} {next : Reader}
    (h : elementText name reader = some (text, next)) :
    next.rest.length < reader.rest.length := by
  obtain ⟨⟨left, after⟩, hfound, heq⟩ := Option.map_eq_some_iff.mp h
  obtain ⟨_, rfl⟩ := Prod.mk.inj heq
  exact closingTag_length hfound

end ApiSurface.Markup
