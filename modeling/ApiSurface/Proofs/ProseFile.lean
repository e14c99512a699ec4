/-
Documentation files are read completely, and the last entry wins.

A documentation file is made of passages, each with an identifier and a body.  The
body may be any fragment, also one with elements that look like parts of the file
itself.  It makes no difference, since a member is read as a whole: its raw text is
taken up to its own closing tag, and the summary is looked for in that text alone.

`Reads` says what a fragment of a file changes: whether the reader is in the part
about the assembly, and the index.  There is one lemma for each sort of element, and
a file is read by putting them together in the order of its elements.  What the
index holds in the end does not depend on the reader any more; it is the index after
filing one entry for each passage.
-/
import ApiSurface.Proofs.WellFormedMarkup
import ApiSurface.Prose
import Mathlib.Data.List.Nodup

namespace ApiSurface

open Markup Text

/-! ### Summaries -/

/-- What is inside of the first summary of a fragment, in the order of the opening tags. -/
def Markup.Fragment.summary? : Fragment → Option Fragment
  | nil => none
  | text _ _ rest => rest.summary?
  | aside _ rest => rest.summary?
  | empty _ rest => rest.summary?
  | element tag inside _ rest =>
    if tag.name.chars = Prose.summaryTag then some inside else inside.summary?.or rest.summary?

/-- The text of the first summary with its white space collapsed, or nothing. -/
def Markup.Fragment.summaryText (fragment : Fragment) : String :=
  (fragment.summary?.map fun inside => collapse inside.chars).getD ""

namespace Prose

theorem summaryFrom_eq (reader : Reader) :
    summaryFrom reader = match reader.step with
      | .done => .ok ""
      | .broken => .error .illFormed
      | .event _ event next =>
        match event with
        | .start content =>
          if tagName content = summaryTag then
            match elementText summaryTag next with
            | some (text, _) => .ok (Text.collapse text)
            | none => .error .illFormed
          else summaryFrom next
        | .empty _ => summaryFrom next
        | .finish _ => summaryFrom next
        | .other => summaryFrom next := by
  rw [summaryFrom]
  split
  · rename_i hstep; rw [hstep]
  · rename_i hstep; rw [hstep]
  · rename_i before event next hstep
    conv_rhs => rw [hstep]
    cases event <;> rfl

theorem summaryFrom_text {text : List Char} (h : '<' ∉ text) (rest : List Char)
    (opened : List (List Char)) :
    summaryFrom ⟨text ++ rest, opened⟩ = summaryFrom ⟨rest, opened⟩ := by
  rw [summaryFrom_eq, summaryFrom_eq ⟨rest, opened⟩, step_text h]
  cases Reader.step ⟨rest, opened⟩ <;> rfl

/-- The search for a summary finds that of the fragment, or goes on behind it. -/
theorem summaryFrom_chars (fragment : Fragment) (rest : List Char) (opened : List (List Char)) :
    summaryFrom ⟨fragment.chars ++ rest, opened⟩ = match fragment.summary? with
      | some inside => .ok (collapse inside.chars)
      | none => summaryFrom ⟨rest, opened⟩ := by
  induction fragment generalizing rest opened with
  | nil => rfl
  | text between plain more ih =>
      rw [Fragment.chars, List.append_assoc, summaryFrom_text plain, ih]
      rfl
  | aside unit more ih =>
      simp only [Fragment.chars, List.cons_append, List.append_assoc]
      rw [summaryFrom_eq, step_aside]
      exact ih rest opened
  | empty tag more ih =>
      simp only [Fragment.chars, List.cons_append, List.append_assoc]
      rw [summaryFrom_eq, step_empty]
      exact ih rest opened
  | element tag inside gap more ihInside ih =>
      simp only [Fragment.chars, List.cons_append, List.append_assoc]
      rw [summaryFrom_eq, step_start]
      simp only [tag.tagName_content, Fragment.summary?]
      by_cases hname : tag.name.chars = summaryTag
      · rw [if_pos hname, if_pos hname, ← hname, inside.elementText_chars]
      · rw [if_neg hname, if_neg hname, ihInside]
        cases inside.summary? with
        | some found => rfl
        | none =>
            simp only [Option.none_or]
            rw [summaryFrom_eq, step_finish]
            exact ih rest opened

/-- A byte order mark is text, and makes no difference to what skips text. -/
theorem start_ofList {α : Type} {read : Reader → α}
    (hread : ∀ {between : List Char}, '<' ∉ between → ∀ rest opened,
      read ⟨between ++ rest, opened⟩ = read ⟨rest, opened⟩) (text : List Char) :
    read (Reader.start (String.ofList text)) = read ⟨text, []⟩ := by
  have hmark : '<' ∉ ['\uFEFF'] := by decide
  unfold Reader.start
  rw [String.toList_ofList]
  split
  · exact (hread hmark _ _).symm
  · rfl

theorem entryOf_chars (id : String) (body : Fragment) :
    entryOf id body.chars = .ok ⟨id, String.ofList (trim body.chars), body.summaryText⟩ := by
  have hsummary := summaryFrom_chars body [] []
  rw [List.append_nil] at hsummary
  rw [entryOf, start_ofList summaryFrom_text, hsummary, Fragment.summaryText]
  cases body.summary? with
  | some inside => rfl
  | none =>
      have hend : summaryFrom ⟨[], []⟩ = .ok "" := by
        rw [summaryFrom_eq]
        rfl
      simp only [hend]
      rfl

/-! ### Filing entries -/

namespace Index

theorem find?_putEntry (entry : Entry) (entries : List Entry) (id : String) :
    (putEntry entry entries).find? (fun other => other.id = id)
      = if entry.id = id then some entry else entries.find? fun other => other.id = id := by
  induction entries with
  | nil => by_cases hid : entry.id = id <;> simp [putEntry, hid]
  | cons first rest ih =>
      rw [putEntry]
      by_cases hfirst : first.id = entry.id
      · by_cases hid : entry.id = id
        · simp [hfirst, hid]
        · simp [hfirst, hid]
      · by_cases hid : entry.id = id
        · have hskip : first.id ≠ id := fun h => hfirst (h.trans hid.symm)
          simp [hid, hskip, ih]
        · simp [hfirst, hid, List.find?_cons, ih]

theorem map_id_putEntry (entry : Entry) (entries : List Entry) :
    (putEntry entry entries).map Entry.id
      = if entry.id ∈ entries.map Entry.id then entries.map Entry.id
        else entries.map Entry.id ++ [entry.id] := by
  induction entries with
  | nil => simp [putEntry]
  | cons first rest ih =>
      rw [putEntry]
      by_cases hfirst : first.id = entry.id
      · simp [hfirst]
      · by_cases hmem : entry.id ∈ rest.map Entry.id
        · simp only [if_neg hfirst, List.map_cons, ih, if_pos hmem]
          rw [if_pos (List.mem_cons_of_mem _ hmem)]
        · have hnew : entry.id ∉ first.id :: rest.map Entry.id := by
            simp only [List.mem_cons, not_or]
            exact ⟨Ne.symm hfirst, hmem⟩
          simp only [if_neg hfirst, List.map_cons, ih, if_neg hmem, if_neg hnew]
          rfl

/-- The index after entries were filed one after the other. -/
def putAll (index : Index) (entries : List Entry) : Index := entries.foldl put index

theorem get?_putAll (index : Index) (entries : List Entry) (id : String) :
    (index.putAll entries).get? id
      = (entries.reverse.find? fun entry => entry.id = id).or (index.get? id) := by
  induction entries generalizing index with
  | nil => rfl
  | cons entry rest ih =>
      have hput : (index.put entry).get? id = if entry.id = id then some entry else index.get? id :=
        find?_putEntry entry index.entries id
      rw [putAll, List.foldl_cons, ← putAll, ih, hput, List.reverse_cons, List.find?_append,
        Option.or_assoc]
      congr 1
      by_cases hid : entry.id = id
      · simp [hid]
      · simp [hid]

theorem assembly_putAll (index : Index) (entries : List Entry) :
    (index.putAll entries).assembly = index.assembly := by
  induction entries generalizing index with
  | nil => rfl
  | cons entry rest ih => exact ih (index.put entry)

theorem nodup_putAll {index : Index} (h : (index.entries.map Entry.id).Nodup)
    (entries : List Entry) : ((index.putAll entries).entries.map Entry.id).Nodup := by
  induction entries generalizing index with
  | nil => exact h
  | cons entry rest ih =>
      have hput : ((index.put entry).entries.map Entry.id).Nodup := by
        rw [put, map_id_putEntry]
        by_cases hmem : entry.id ∈ index.entries.map Entry.id
        · rwa [if_pos hmem]
        · rw [if_neg hmem, ← List.concat_eq_append]
          exact List.Nodup.concat hmem h
      exact ih hput

theorem mem_ids_iff {index : Index} {id : String} :
    id ∈ index.entries.map Entry.id ↔ (index.get? id).isSome := by
  simp [get?, List.find?_isSome]

end Index

/-! ### Reading a file -/

theorem readFrom_eq (inAssembly : Bool) (index : Index) (reader : Reader) :
    readFrom inAssembly index reader = match reader.step with
      | .done => .ok index
      | .broken => .error .illFormed
      | .event _ event next =>
        match event with
        | .start content =>
          if tagName content = assemblyTag then readFrom true index next
          else if tagName content = nameTag ∧ inAssembly then
            match elementText nameTag next with
            | none => .error .illFormed
            | some (text, after) =>
              readFrom inAssembly { index with assembly := String.ofList (trim text) } after
          else if tagName content = memberTag then
            match memberId content with
            | .error fault => .error fault
            | .ok id =>
              match elementText memberTag next with
              | none => .error .illFormed
              | some (text, after) =>
                match entryOf id text with
                | .error fault => .error fault
                | .ok entry => readFrom inAssembly (index.put entry) after
          else readFrom inAssembly index next
        | .empty content =>
          if tagName content = memberTag then
            match memberId content with
            | .error fault => .error fault
            | .ok id => readFrom inAssembly (index.put ⟨id, "", ""⟩) next
          else readFrom inAssembly index next
        | .finish name => readFrom (if name = assemblyTag then false else inAssembly) index next
        | .other => readFrom inAssembly index next := by
  rw [readFrom]
  split
  · rename_i hstep; rw [hstep]
  · rename_i hstep; rw [hstep]
  · rename_i before event next hstep
    conv_rhs => rw [hstep]
    cases event with
    | start content =>
        simp only
        cases elementText nameTag next <;> cases elementText memberTag next <;> rfl
    | empty content => rfl
    | finish name => rfl
    | other => rfl

theorem readFrom_text (inAssembly : Bool) (index : Index) {between : List Char} (h : '<' ∉ between)
    (rest : List Char) (opened : List (List Char)) :
    readFrom inAssembly index ⟨between ++ rest, opened⟩
      = readFrom inAssembly index ⟨rest, opened⟩ := by
  rw [readFrom_eq, readFrom_eq inAssembly index ⟨rest, opened⟩, step_text h]
  cases Reader.step ⟨rest, opened⟩ <;> rfl

/-- Reading goes on behind the fragment with the second mode and index, if it came to it with the
first ones. -/
def Reads (fragment : Fragment) (inAssembly : Bool) (index : Index) (inAssembly' : Bool)
    (index' : Index) : Prop :=
  ∀ rest opened, readFrom inAssembly index ⟨fragment.chars ++ rest, opened⟩
    = readFrom inAssembly' index' ⟨rest, opened⟩

namespace Reads

variable {inAssembly inAssembly₁ inAssembly₂ : Bool} {index index₁ index₂ : Index}
  {inside more : Fragment}

theorem nil : Reads .nil inAssembly index inAssembly index := by
  intro rest opened
  rfl

theorem text {between : List Char} {plain : '<' ∉ between}
    (hmore : Reads more inAssembly index inAssembly₁ index₁) :
    Reads (.text between plain more) inAssembly index inAssembly₁ index₁ := by
  intro rest opened
  rw [Fragment.chars, List.append_assoc, readFrom_text _ _ plain]
  exact hmore rest opened

theorem aside {unit : Aside} (hmore : Reads more inAssembly index inAssembly₁ index₁) :
    Reads (.aside unit more) inAssembly index inAssembly₁ index₁ := by
  intro rest opened
  simp only [Fragment.chars, List.cons_append, List.append_assoc]
  rw [readFrom_eq, step_aside]
  exact hmore rest opened

variable {tag : Tag} {gap : Gap}

/-- The closing tag of the assembly ends the part about it, and the others change nothing. -/
theorem closing
    (hmore : Reads more (if tag.name.chars = assemblyTag then false else inAssembly) index
      inAssembly₁ index₁) (rest : List Char) (opened : List (List Char)) :
    readFrom inAssembly index
        ⟨'<' :: '/' :: (tag.name.chars ++ (gap.chars ++ '>' :: (more.chars ++ rest))),
          tag.name.chars :: opened⟩
      = readFrom inAssembly₁ index₁ ⟨rest, opened⟩ := by
  rw [readFrom_eq, step_finish]
  exact hmore rest opened

theorem assemblyElement (htag : tag.name.chars = assemblyTag)
    (hinside : Reads inside true index inAssembly₁ index₁)
    (hmore : Reads more false index₁ inAssembly₂ index₂) :
    Reads (.element tag inside gap more) inAssembly index inAssembly₂ index₂ := by
  intro rest opened
  simp only [Fragment.chars, List.cons_append, List.append_assoc]
  rw [readFrom_eq, step_start]
  simp only [tag.tagName_content, if_pos htag]
  rw [hinside]
  exact closing (by rwa [if_pos htag]) rest opened

theorem otherElement (htag : tag.name.chars ∉ [assemblyTag, nameTag, memberTag])
    (hinside : Reads inside inAssembly index inAssembly₁ index₁)
    (hmore : Reads more inAssembly₁ index₁ inAssembly₂ index₂) :
    Reads (.element tag inside gap more) inAssembly index inAssembly₂ index₂ := by
  intro rest opened
  simp only [List.mem_cons, List.not_mem_nil, or_false, not_or] at htag
  obtain ⟨hassembly, hname, hmember⟩ := htag
  simp only [Fragment.chars, List.cons_append, List.append_assoc]
  rw [readFrom_eq, step_start]
  simp only [tag.tagName_content, if_neg hassembly, hname, false_and, if_false, if_neg hmember]
  rw [hinside]
  exact closing (by rwa [if_neg hassembly]) rest opened

theorem nameElement {name : List Char} (htag : tag.name.chars = nameTag)
    (hinside : inside.chars = name)
    (hmore : Reads more true { index with assembly := String.ofList (trim name) }
      inAssembly₁ index₁) :
    Reads (.element tag inside gap more) true index inAssembly₁ index₁ := by
  intro rest opened
  have hassembly : nameTag ≠ assemblyTag := by decide
  have htext := inside.elementText_chars tag.name gap (more.chars ++ rest) opened
  rw [htag] at htext
  simp only [Fragment.chars, List.cons_append, List.append_assoc]
  rw [readFrom_eq, step_start]
  simp only [tag.tagName_content, htag, if_neg hassembly, and_self, if_true, htext]
  rw [hinside]
  exact hmore rest opened

theorem memberElement {id : String} (htag : tag.name.chars = memberTag)
    (hid : memberId tag.content = .ok id) {entry : Entry}
    (hentry : entryOf id inside.chars = .ok entry)
    (hmore : Reads more inAssembly (index.put entry) inAssembly₁ index₁) :
    Reads (.element tag inside gap more) inAssembly index inAssembly₁ index₁ := by
  intro rest opened
  have hassembly : memberTag ≠ assemblyTag := by decide
  have hname : memberTag ≠ nameTag := by decide
  have htext := inside.elementText_chars tag.name gap (more.chars ++ rest) opened
  rw [htag] at htext
  simp only [Fragment.chars, List.cons_append, List.append_assoc]
  rw [readFrom_eq, step_start]
  simp only [tag.tagName_content, htag, if_neg hassembly, hname, false_and, if_false, if_true, hid,
    htext, hentry]
  exact hmore rest opened

theorem emptyMember {id : String} (htag : tag.name.chars = memberTag)
    (hid : memberId tag.content = .ok id)
    (hmore : Reads more inAssembly (index.put ⟨id, "", ""⟩) inAssembly₁ index₁) :
    Reads (.empty tag more) inAssembly index inAssembly₁ index₁ := by
  intro rest opened
  simp only [Fragment.chars, List.cons_append, List.append_assoc]
  rw [readFrom_eq, step_empty]
  simp only [tag.tagName_content, htag, if_true, hid]
  exact hmore rest opened

end Reads

/-! ### Documents -/

/-- The identifier as the attribute of a member. -/
def idAttribute (id : String) : Attribute where
  gap := .space
  key := .of nameTag (by decide)
  beforeSign := .none
  afterSign := .none
  quote := '\x22'
  value := attributeText id.toList
  gap_ne_nil := by simp [Gap.space]
  isQuote := .inl rfl
  closed := quote_notMem_attributeText _

/-- The tag of a member. -/
def idTag (id : String) : Tag where
  name := .of memberTag (by decide)
  attributes := [idAttribute id]
  gap := .none

theorem memberId_idTag (id : String) : memberId (idTag id).content = .ok id := by
  have hattrs : (idTag id).content.drop (tagName (idTag id).content).length
      = (idAttribute id).chars ++ [] := by
    rw [Tag.tagName_content, Tag.content, List.drop_left]
    simp [idTag, Gap.none]
  have hvalue : attributeValue nameTag ((idAttribute id).chars ++ [])
      = some (some (attributeText id.toList)) :=
    attributeValue_attribute (idAttribute id) rfl []
  rw [memberId, hattrs, hvalue]
  simp [unescape_attributeText]

/-- What a file says about one identifier. -/
structure Passage where
  id : String
  /-- What is inside of the member; there is none if it is written as an empty element. -/
  body? : Option Fragment

namespace Passage

def body (passage : Passage) : Fragment := passage.body?.getD .nil

/-- The entry that the passage stands for. -/
def entry (passage : Passage) : Entry where
  id := passage.id
  markup := String.ofList (trim passage.body.chars)
  summary := passage.body.summaryText

/-- The passage as a member, and what comes behind it. -/
def before (passage : Passage) (rest : Fragment) : Fragment :=
  match passage.body? with
  | none => .empty (idTag passage.id) rest
  | some body => .element (idTag passage.id) body .none rest

end Passage

/-- The members of a file, with white space before each of them. -/
def memberList (gap : Gap) (passages : List Passage) : Fragment :=
  passages.foldr (fun passage rest => gap.before (passage.before rest)) (gap.before .nil)

/-- A documentation file: some units before the root element, and white space between tags. -/
def document (heading : List Aside) (gap : Gap) (assembly : String) (h : '<' ∉ assembly.toList)
    (passages : List Passage) : Fragment :=
  heading.foldr Fragment.aside (gap.before (
    .element (.bare "doc".toList (by decide)) (gap.before (
      .element (.bare assemblyTag (by decide)) (gap.before (
        .element (.bare nameTag (by decide)) (.text assembly.toList h .nil) .none
          (gap.before .nil))) .none (gap.before (
      .element (.bare "members".toList (by decide)) (memberList gap passages) .none
        (gap.before .nil))))) .none (gap.before .nil)))

example : String.ofList (document [] .none "Game" (by decide) [⟨"F:Max", none⟩]).chars
    = "<doc><assembly><name>Game</name></assembly><members><member name=\x22F:Max\x22/></members></doc>" := by
  cbv

namespace Reads

variable {inAssembly inAssembly₁ : Bool} {index index₁ : Index} {more : Fragment}

theorem passage (passage : Passage)
    (hmore : Reads more inAssembly (index.put passage.entry) inAssembly₁ index₁) :
    Reads (passage.before more) inAssembly index inAssembly₁ index₁ := by
  obtain ⟨id, body?⟩ := passage
  cases body? with
  | none => exact emptyMember rfl (memberId_idTag id) hmore
  | some body => exact memberElement rfl (memberId_idTag id) (entryOf_chars id body) hmore

theorem memberList (gap : Gap) (passages : List Passage) :
    Reads (memberList gap passages) inAssembly index inAssembly
      (index.putAll (passages.map Passage.entry)) := by
  induction passages generalizing index with
  | nil => exact text nil
  | cons first rest ih => exact text (passage first ih)

theorem heading (units : List Aside) (hmore : Reads more inAssembly index inAssembly₁ index₁) :
    Reads (units.foldr Fragment.aside more) inAssembly index inAssembly₁ index₁ := by
  induction units with
  | nil => exact hmore
  | cons unit rest ih => exact aside ih

/-- The parts of a file one after the other. -/
theorem document (units : List Aside) (gap : Gap) (assembly : String) (h : '<' ∉ assembly.toList)
    (passages : List Passage) :
    Reads (document units gap assembly h passages) false .empty false
      (Index.putAll ⟨trimmed assembly, []⟩ (passages.map Passage.entry)) := by
  have hdoc : "doc".toList ∉ [assemblyTag, nameTag, memberTag] := by decide
  have hmembers : "members".toList ∉ [assemblyTag, nameTag, memberTag] := by decide
  refine heading units (text (otherElement hdoc (text ?_) (text nil)))
  refine assemblyElement rfl (text (nameElement rfl (List.append_nil _) (text nil))) (text ?_)
  exact otherElement hmembers (memberList gap passages) (text nil)

end Reads

/-! ### Whole files -/

/-- **Documentation files are read completely, and the last entry of an identifier counts.**  The
file is made of any passages, with any white space between its tags; units that are no elements may
stand before it.  Its name has no opening bracket, and is kept trimmed.  There is one entry for each
identifier that the passages have, and it is made of the last passage with that identifier: the
identifier as it is, the body trimmed, and the text of the first summary in the body with its white
space collapsed. -/
theorem read_document (heading : List Aside) (gap : Gap) (assembly : String)
    (hname : '<' ∉ assembly.toList) (passages : List Passage) :
    ∃ index, Index.read (String.ofList (document heading gap assembly hname passages).chars)
        = .ok index ∧
      index.assembly = trimmed assembly ∧
      (index.entries.map Entry.id).Nodup ∧
      (∀ id, id ∈ index.entries.map Entry.id ↔ id ∈ passages.map Passage.id) ∧
      ∀ id, index.get? id
        = (passages.reverse.find? fun passage => passage.id = id).map Passage.entry := by
  let named : Index := ⟨trimmed assembly, []⟩
  let index := named.putAll (passages.map Passage.entry)
  have hread : Index.read (String.ofList (document heading gap assembly hname passages).chars)
      = .ok index := by
    have hdocument := Reads.document heading gap assembly hname passages [] []
    rw [List.append_nil] at hdocument
    rw [Index.read, start_ofList (readFrom_text false .empty), hdocument, readFrom_eq]
    rfl
  have hget : ∀ id, index.get? id
      = (passages.reverse.find? fun passage => passage.id = id).map Passage.entry := by
    intro id
    have hnone : named.get? id = none := rfl
    rw [Index.get?_putAll, hnone, Option.or_none, ← List.map_reverse, List.find?_map]
    rfl
  have hnodup : (named.entries.map Entry.id).Nodup := List.nodup_nil
  refine ⟨index, hread, Index.assembly_putAll named _, Index.nodup_putAll hnodup _, ?_, hget⟩
  intro id
  rw [Index.mem_ids_iff, hget]
  simp

/-- A remark about another assembly and another member, and a summary. -/
def bagBody : Fragment :=
  .element (.bare "remarks".toList (by decide))
    (.element (.bare assemblyTag (by decide))
      (.element (.bare nameTag (by decide)) (.text "Fake".toList (by decide) .nil) .none .nil) .none
      (.element (idTag "T:Fake") (.empty (.bare summaryTag (by decide)) .nil) .none .nil)) .none
    (.element (.bare summaryTag (by decide)) (.text " A\n bag. ".toList (by decide) .nil) .none .nil)

/-- The second passage about the bag takes the place of the first one, and what its body is about is
not listed. -/
theorem read_document_bag :
    let old : Fragment := .text "old".toList (by decide) .nil
    let passages : List Passage :=
      [⟨"T:Game.Bag", some old⟩, ⟨"M:Game.Bag.Put<T>", none⟩, ⟨"T:Game.Bag", some bagBody⟩]
    ∃ index, Index.read (String.ofList (document [] .none " Game " (by decide) passages).chars)
        = .ok index ∧
      index.assembly = "Game" ∧
      index.get? "T:Game.Bag" = some ⟨"T:Game.Bag", String.ofList bagBody.chars, "A bag."⟩ ∧
      index.get? "M:Game.Bag.Put<T>" = some ⟨"M:Game.Bag.Put<T>", "", ""⟩ ∧
      index.get? "T:Fake" = none := by
  intro old passages
  obtain ⟨index, hread, hassembly, -, -, hget⟩ :=
    read_document [] .none " Game " (by decide) passages
  refine ⟨index, hread, ?_, ?_, ?_, ?_⟩
  · rw [hassembly]
    rfl
  · rw [hget]
    rfl
  · rw [hget]
    rfl
  · rw [hget]
    rfl

end Prose

end ApiSurface
