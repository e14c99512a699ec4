/-
Writing a reference out of its tree.

`Signature.render` goes through the tree once: every segment of a name is written
with its own share of the arguments, and arrays, pointers and by-references are
suffixes.  A `Rendering` is what is left open: how the outermost segment is
written, what stands between nested types and between arguments, and whether an
arity that nothing fills is kept.

The shown names of a reference are made by passes over text, and after every pass
the text is again a rendering of the same tree, in another style.
`Rendering.Turns` is what it takes of a pass to lead from one style to another:
it works on the pieces between brackets on their own, and on a single name it does
what the styles say.  `Turns.render` then lifts it to whole trees, so the tree is
gone through by induction once and not once for each pass.
-/
import ApiSurface.Name.Display
import ApiSurface.Proofs.ArgumentList
import ApiSurface.Proofs.Path

namespace ApiSurface

open Text

/-! ### Styles -/

/-- The name of a segment without its arity. -/
def plainOf (name : String) : String := (TypeName.top "" name none).plainName

/-- A name behind its namespace. -/
def qualified (space name : String) : String := (TypeName.top space name none).fullName

/-- How references are written out. -/
structure Rendering where
  /-- An arity stays where no argument fills it. -/
  keepsArity : Bool
  /-- What stands between a type and one that is nested in it. -/
  joint : String
  /-- What stands between two arguments. -/
  separator : String
  /-- The outermost segment, out of its namespace and its name. -/
  outermost : String → String → String
  /-- What stands behind an instantiation that has no arguments. -/
  hollow : String

namespace Rendering

/-- Full names: with namespaces, and commas between arguments. -/
def full : Rendering := ⟨false, ".", ",", qualified, "<>"⟩

/-- Displayed names: without namespaces, framework types by their keywords, and a space behind the
comma. -/
def displayed : Rendering :=
  ⟨false, ".", ", ", fun space name => (Name.keyword? (qualified space name)).getD name, "<>"⟩

def label (style : Rendering) (isFilled : Bool) (name : String) : String :=
  if style.keepsArity && !isFilled then name else plainOf name

/-- Arguments in angle brackets, or nothing if there are none. -/
def list (style : Rendering) (args : List String) : String :=
  if args.isEmpty then "" else "<" ++ join style.separator args ++ ">"

/-- A name with arguments, each segment with its own share of them. -/
def path (style : Rendering) (args : List String) : TypeName → String
  | .top space name _ =>
    let own := args.take (arityOf name)
    style.outermost space (style.label (!own.isEmpty) name) ++ style.list own
  | .nested outer name _ =>
    let own := (args.drop outer.totalArity).take (arityOf name)
    style.path args outer ++ style.joint ++ style.label (!own.isEmpty) name ++ style.list own

end Rendering

namespace Signature

mutual

/-- The reference written out in a style.  A built-in type is written as the type it stands for. -/
def render (style : Rendering) : Signature → String
  | primitive kind => style.path [] (TypeName.parse kind.fullName)
  | named name => style.path [] name
  | instantiation base args =>
    match base with
    | named name =>
      style.path (renders style args) name ++ if args.isEmpty then style.hollow else ""
    | _ => base.render style ++ "<" ++ join style.separator (renders style args) ++ ">"
  | array element rank => element.render style ++ "[" ++ copies "," (rank - 1) ++ "]"
  | byRef element => element.render style ++ "&"
  | pointer element => element.render style ++ "*"
  | parameter _ _ name => name

def renders (style : Rendering) : List Signature → List String
  | [] => []
  | sig :: rest => sig.render style :: renders style rest

end

@[simp] theorem renders_eq_map (style : Rendering) (sigs : List Signature) :
    renders style sigs = sigs.map (render style) := by
  induction sigs with
  | nil => rfl
  | cons sig rest ih => rw [renders, ih, List.map_cons]

end Signature

/-! ### Regular references -/

/-- A name of ASCII letters, digits and underscores. -/
structure IsIdentifier (text : String) : Prop where
  nonempty : text ≠ ""
  chars : ∀ c ∈ text.toList, Name.isWordChar c = true

instance : DecidablePred IsIdentifier := fun text =>
  decidable_of_iff (text ≠ "" ∧ (text.toList.all fun c => Name.isWordChar c) = true)
    ⟨fun h => ⟨h.1, List.all_eq_true.mp h.2⟩, fun h => ⟨h.nonempty, List.all_eq_true.mpr h.chars⟩⟩

/-- The segment is an identifier, alone or with an arity behind the mark. -/
inductive HasArity : String → Nat → Prop
  | bare {plain : String} (h : IsIdentifier plain) : HasArity plain 0
  | marked {plain : String} (h : IsIdentifier plain) {arity : Nat} (hpos : 0 < arity) :
      HasArity (plain ++ "`" ++ naturalText arity) arity

/-- The name is made of identifiers and takes so many arguments over all of its segments. -/
inductive TypeName.Takes : TypeName → Nat → Prop
  | top {spaces : List String} (hspaces : ∀ space ∈ spaces, IsIdentifier space) {name : String}
      {arity : Nat} (hname : HasArity name arity) (scope : Option String) :
      Takes (.top (join "." spaces) name scope) arity
  | nested {outer : TypeName} {count : Nat} (houter : outer.Takes count) {name : String}
      {arity : Nat} (hname : HasArity name arity) (scope : Option String) :
      Takes (.nested outer name scope) (count + arity)

/-- All names are identifiers, and an instantiation is one of a named type, with as many arguments
as its name takes; their number is a size, as that of every list in memory is.  No array of more
than one dimension stands inside an argument: asked of every instantiation for its own arguments,
this reaches arrays at any depth. -/
inductive Signature.Regular : Signature → Prop
  | primitive (kind : Primitive) : Regular (.primitive kind)
  | named {name : TypeName} {count : Nat} (hname : name.Takes count) : Regular (.named name)
  | instantiation {name : TypeName} {args : List Signature} (hname : name.Takes args.length)
      (hsize : args.length < sizeLimit)
      (hflat : ∀ arg ∈ args, ∀ rank ∈ arg.outerRanks, rank ≤ 1)
      (hargs : ∀ arg ∈ args, Regular arg) : Regular (.instantiation (.named name) args)
  | array {element : Signature} (h : Regular element) (rank : Nat) : Regular (.array element rank)
  | byRef {element : Signature} (h : Regular element) : Regular (.byRef element)
  | pointer {element : Signature} (h : Regular element) : Regular (.pointer element)
  | parameter (owner : ParameterOwner) (index : Nat) {name : String} (hname : IsIdentifier name) :
      Regular (.parameter owner index name)

/-- All names are identifiers, and an instantiation is one of a named type, with as many arguments
as its name takes; arrays may have any rank and stand anywhere. -/
inductive Signature.Formed : Signature → Prop
  | primitive (kind : Primitive) : Formed (.primitive kind)
  | named {name : TypeName} {count : Nat} (hname : name.Takes count) : Formed (.named name)
  | instantiation {name : TypeName} {args : List Signature} (hname : name.Takes args.length)
      (hsize : args.length < sizeLimit) (hargs : ∀ arg ∈ args, Formed arg) :
      Formed (.instantiation (.named name) args)
  | array {element : Signature} (h : Formed element) (rank : Nat) : Formed (.array element rank)
  | byRef {element : Signature} (h : Formed element) : Formed (.byRef element)
  | pointer {element : Signature} (h : Formed element) : Formed (.pointer element)
  | parameter (owner : ParameterOwner) (index : Nat) {name : String} (hname : IsIdentifier name) :
      Formed (.parameter owner index name)

theorem Signature.Regular.formed {sig : Signature} (h : sig.Regular) : sig.Formed := by
  induction h with
  | primitive kind => exact .primitive kind
  | named hname => exact .named hname
  | instantiation hname hsize hflat hargs ih => exact .instantiation hname hsize ih
  | array h rank ih => exact .array ih rank
  | byRef h ih => exact .byRef ih
  | pointer h ih => exact .pointer ih
  | parameter owner index hname => exact .parameter owner index hname

theorem IsIdentifier.toList_ne_nil {text : String} (h : IsIdentifier text) : text.toList ≠ [] :=
  fun hnil => h.nonempty (String.toList_eq_nil_iff.mp hnil)

theorem IsIdentifier.notMem {text : String} (h : IsIdentifier text) {c : Char}
    (hc : Name.isWordChar c = false) : c ∉ text.toList := by
  intro hmem
  rw [h.chars c hmem] at hc
  exact absurd hc (by decide)

/-- A namespace has nothing but dots between its identifiers. -/
theorem notMem_join_identifiers {spaces : List String}
    (hspaces : ∀ space ∈ spaces, IsIdentifier space) {c : Char} (hc : Name.isWordChar c = false)
    (hdot : c ≠ '.') : c ∉ (join "." spaces).toList := by
  intro hmem
  rcases mem_toList_join hmem with hsep | ⟨space, hspace, hmem⟩
  · exact hdot (List.mem_singleton.mp hsep)
  · exact (hspaces space hspace).notMem hc hmem

theorem plainOf_of_notMem {name : String} (h : arityMark ∉ name.toList) : plainOf name = name := by
  unfold plainOf TypeName.plainName TypeName.name
  rw [cutLast_eq_none_iff.mpr h]

theorem plainOf_marked (plain : String) (arity : Nat) :
    plainOf (plain ++ "`" ++ naturalText arity) = plain := by
  unfold plainOf TypeName.plainName TypeName.name
  rw [cutLast_marked]
  exact String.ofList_toList

theorem arityOf_of_notMem {name : String} (h : arityMark ∉ name.toList) : arityOf name = 0 := by
  unfold arityOf TypeName.ownArity TypeName.name
  rw [cutLast_eq_none_iff.mpr h]

theorem arityOf_marked {plain : String} {arity : Nat} (h : arity < sizeLimit) :
    arityOf (plain ++ "`" ++ naturalText arity) = arity := by
  unfold arityOf TypeName.ownArity TypeName.name
  rw [cutLast_marked]
  simp only [readSize_naturalText, if_pos h, Option.getD_some]

namespace HasArity

variable {name : String} {arity : Nat}

theorem plain (h : HasArity name arity) : IsIdentifier (plainOf name) := by
  cases h with
  | bare h => rwa [plainOf_of_notMem (h.notMem (by decide))]
  | marked h hpos => rwa [plainOf_marked]

end HasArity

/-! ### Arities alone -/

/-- The segment has no arity mark, or only the one before its arity. -/
inductive IsMarked : String → Nat → Prop
  | bare {plain : String} (h : arityMark ∉ plain.toList) : IsMarked plain 0
  | marked {plain : String} (h : arityMark ∉ plain.toList) {arity : Nat} (hpos : 0 < arity) :
      IsMarked (plain ++ "`" ++ naturalText arity) arity

/-- The name takes so many arguments over all of its segments, whatever else these are like. -/
inductive TypeName.Counts : TypeName → Nat → Prop
  | top {space name : String} {arity : Nat} (hspace : arityMark ∉ space.toList)
      (hname : IsMarked name arity) (scope : Option String) : Counts (.top space name scope) arity
  | nested {outer : TypeName} {count : Nat} (houter : outer.Counts count) {name : String}
      {arity : Nat} (hname : IsMarked name arity) (scope : Option String) :
      Counts (.nested outer name scope) (count + arity)

theorem HasArity.isMarked {name : String} {arity : Nat} (h : HasArity name arity) :
    IsMarked name arity := by
  cases h with
  | bare h => exact .bare (h.notMem (by decide))
  | marked h hpos => exact .marked (h.notMem (by decide)) hpos

theorem TypeName.Takes.counts {name : TypeName} {count : Nat} (h : name.Takes count) :
    name.Counts count := by
  induction h with
  | top hspaces hname scope =>
      exact .top (notMem_join_identifiers hspaces (by decide) (by decide)) hname.isMarked scope
  | nested houter hname scope ih => exact .nested ih hname.isMarked scope

/-- The arity is what is read off the segment, if it is a size. -/
theorem IsMarked.arityOf_eq {name : String} {arity : Nat} (h : IsMarked name arity)
    (hsize : arity < sizeLimit) : arityOf name = arity := by
  cases h with
  | bare h => exact arityOf_of_notMem h
  | marked h hpos => exact arityOf_marked hsize

theorem TypeName.totalArity_nested (outer : TypeName) (name : String) (scope : Option String) :
    (TypeName.nested outer name scope).totalArity = outer.totalArity + arityOf name := by
  rw [totalArity, chain, List.map_append, total_append]
  rfl

theorem TypeName.Counts.totalArity_eq {name : TypeName} {count : Nat} (h : name.Counts count)
    (hsize : count < sizeLimit) : name.totalArity = count := by
  induction h with
  | top hspace hname scope => exact hname.arityOf_eq hsize
  | nested houter hname scope ih =>
      rw [TypeName.totalArity_nested, ih (by omega), hname.arityOf_eq (by omega)]

/-- The type that a built-in type stands for is one of the namespace `System`. -/
theorem Primitive.takes (kind : Primitive) : (TypeName.parse kind.fullName).Takes 0 := by
  have hparse : TypeName.parse kind.fullName
      = .top (join "." ["System"]) (String.ofList (kind.fullName.toList.drop 7)) none := by
    cases kind <;> decide
  have hspaces : ∀ space ∈ ["System"], IsIdentifier space := by
    intro space hspace
    rw [List.mem_singleton.mp hspace]
    exact ⟨by decide, forall_mem_of_all (by decide)⟩
  rw [hparse]
  refine .top hspaces (.bare ?_) none
  cases kind <;> exact ⟨by decide, forall_mem_of_all (by decide)⟩

theorem Primitive.fullName_parse (kind : Primitive) :
    (TypeName.parse kind.fullName).fullName = kind.fullName := by
  cases kind <;> decide

/-! ### From one style to another -/

/-- The pass treats what stands before and behind the character on its own. -/
def Separates (f : List Char → List Char) (c : Char) : Prop :=
  ∀ before after : List Char, f (before ++ c :: after) = f before ++ c :: f after

/-- The text begins with a character of a word. -/
def StartsWord (text : List Char) : Prop := ∃ c rest, text = c :: rest ∧ Name.isWordChar c = true

theorem StartsWord.append {text : List Char} (h : StartsWord text) (more : List Char) :
    StartsWord (text ++ more) := by
  obtain ⟨c, rest, rfl, hc⟩ := h
  exact ⟨c, rest ++ more, rfl, hc⟩

theorem IsIdentifier.startsWord {text : String} (h : IsIdentifier text) :
    StartsWord text.toList := by
  cases hlist : text.toList with
  | nil => exact absurd hlist h.toList_ne_nil
  | cons c rest => exact ⟨c, rest, rfl, h.chars c (by rw [hlist]; exact List.mem_cons_self)⟩

/-- The pass keeps brackets and suffixes, and turns the joints and separators of one style into
those of the other. -/
structure Rendering.TurnsMarks (f : List Char → List Char) (old new : Rendering) : Prop where
  nil : f [] = []
  commas : ∀ n, f (List.replicate n ',') = List.replicate n ','
  separates : ∀ c ∈ ['<', '>', '[', ']', '&', '*'], Separates f c
  joint : ∀ before after,
    f (before ++ old.joint.toList ++ after) = f before ++ new.joint.toList ++ f after
  /-- Arguments begin with a word, and that may be all that tells their commas from others. -/
  separator : ∀ before after, StartsWord after →
    f (before ++ old.separator.toList ++ after) = f before ++ new.separator.toList ++ f after
  hollow : old.hollow = "<>" ∧ new.hollow = "<>"

/-- The pass turns the names of one style into those of the other. -/
structure Rendering.TurnsNames (f : List Char → List Char) (old new : Rendering) : Prop where
  identifier : ∀ {name : String}, IsIdentifier name → f name.toList = name.toList
  label : ∀ {name : String} {arity : Nat}, HasArity name arity → ∀ isFilled,
    f (old.label isFilled name).toList = (new.label isFilled name).toList
  outermost : ∀ {spaces : List String} {name : String} {arity : Nat},
    (∀ space ∈ spaces, IsIdentifier space) → HasArity name arity → ∀ isFilled,
      f (old.outermost (join "." spaces) (old.label isFilled name)).toList
        = (new.outermost (join "." spaces) (new.label isFilled name)).toList
  starts : ∀ {spaces : List String} {name : String} {arity : Nat},
    (∀ space ∈ spaces, IsIdentifier space) → HasArity name arity → ∀ isFilled,
      StartsWord (old.outermost (join "." spaces) (old.label isFilled name)).toList

/-- A pass over text turns what one style writes into what the other one writes. -/
structure Rendering.Turns (f : List Char → List Char) (old new : Rendering) : Prop extends
  TurnsMarks f old new, TurnsNames f old new

namespace Rendering.Turns

variable {f : List Char → List Char} {old new : Rendering} (hf : Turns f old new)

include hf

theorem suffix {c : Char} (hc : c ∈ ['<', '>', '[', ']', '&', '*']) (text : List Char) :
    f (text ++ [c]) = f text ++ [c] := by
  rw [hf.separates c hc, hf.nil]

section Arguments

variable {α : Type} {write write' : α → String}

theorem join {items : List α}
    (h : ∀ item ∈ items, f (write item).toList = (write' item).toList
      ∧ StartsWord (write item).toList) :
    f (join old.separator (items.map write)).toList
      = (Text.join new.separator (items.map write')).toList := by
  induction items with
  | nil => exact hf.nil
  | cons item rest ih =>
      obtain ⟨hitem, -⟩ := h item List.mem_cons_self
      cases rest with
      | nil => exact hitem
      | cons next rest =>
          have hrest := ih fun other hother => h other (List.mem_cons_of_mem item hother)
          have hnext : StartsWord (Text.join old.separator ((next :: rest).map write)).toList := by
            have hstart := (h next (by simp)).2
            cases rest with
            | nil => exact hstart
            | cons third rest =>
                rw [List.map_cons, List.map_cons, toList_join_cons]
                exact hstart.append _
          rw [List.map_cons, List.map_cons, toList_join_cons, ← List.append_assoc,
            ← List.map_cons, hf.separator _ _ hnext, hitem, hrest]
          rw [List.map_cons, List.map_cons, List.map_cons, toList_join_cons, List.append_assoc]

theorem list {items : List α}
    (h : ∀ item ∈ items, f (write item).toList = (write' item).toList
      ∧ StartsWord (write item).toList) (before : List Char) :
    f (before ++ (old.list (items.map write)).toList)
      = f before ++ (new.list (items.map write')).toList := by
  cases items with
  | nil => simp [Rendering.list]
  | cons item rest =>
      have hopen := hf.separates '<' (by decide)
      have hclose := hf.suffix (c := '>') (by decide)
      have hlist : ∀ (style : Rendering) (g : α → String),
          (style.list ((item :: rest).map g)).toList
            = '<' :: ((Text.join style.separator ((item :: rest).map g)).toList ++ ['>']) := by
        intro style g
        simp [Rendering.list]
      rw [hlist, hlist, hopen, hclose, hf.join h]

/-- The text of a path begins with a word, and the pass turns it into the path of the new style. -/
theorem path {items : List α}
    (h : ∀ item ∈ items, f (write item).toList = (write' item).toList
      ∧ StartsWord (write item).toList) {name : TypeName} {count : Nat} (hname : name.Takes count) :
    f (old.path (items.map write) name).toList = (new.path (items.map write') name).toList
      ∧ StartsWord (old.path (items.map write) name).toList := by
  induction hname with
  | top hspaces hname scope =>
      rename_i name arity
      have hown : ∀ item ∈ items.take (arityOf name), f (write item).toList = (write' item).toList
          ∧ StartsWord (write item).toList :=
        fun item hitem => h item (List.mem_of_mem_take hitem)
      simp only [Rendering.path, ← List.map_take, List.isEmpty_map, String.toList_append]
      rw [hf.list hown, hf.outermost hspaces hname]
      exact ⟨rfl, (hf.starts hspaces hname _).append _⟩
  | nested houter hname scope ih =>
      rename_i outer count name arity
      have hown : ∀ item ∈ (items.drop outer.totalArity).take (arityOf name),
          f (write item).toList = (write' item).toList ∧ StartsWord (write item).toList :=
        fun item hitem => h item (List.mem_of_mem_drop (List.mem_of_mem_take hitem))
      simp only [Rendering.path, ← List.map_drop, ← List.map_take, List.isEmpty_map,
        String.toList_append]
      rw [hf.list hown, hf.joint, hf.label hname, ih.1]
      exact ⟨rfl, ((ih.2.append _).append _).append _⟩

end Arguments

/-- **A pass that turns names turns trees.** -/
theorem render {sig : Signature} (h : sig.Regular) :
    f (sig.render old).toList = (sig.render new).toList ∧ StartsWord (sig.render old).toList := by
  have hpath : ∀ {name : TypeName} {count : Nat}, name.Takes count →
      f (old.path [] name).toList = (new.path [] name).toList
        ∧ StartsWord (old.path [] name).toList := by
    intro name count hname
    have hnone : ∀ item ∈ ([] : List String), f (id item).toList = (id item).toList
        ∧ StartsWord (id item).toList := fun _ hitem => absurd hitem List.not_mem_nil
    exact hf.path hnone hname
  induction h with
  | primitive kind => exact hpath kind.takes
  | named hname => exact hpath hname
  | instantiation hname hsize hflat hargs ih =>
      rename_i name args
      obtain ⟨hturn, hstart⟩ := hf.path ih hname
      simp only [Signature.render, Signature.renders_eq_map, String.toList_append, hf.hollow.1,
        hf.hollow.2]
      refine ⟨?_, hstart.append _⟩
      by_cases hempty : args.isEmpty
      · have hopen := hf.separates '<' (by decide)
          (old.path (args.map (Signature.render old)) name).toList ['>']
        have hclose := hf.suffix (c := '>') (by decide) []
        rw [List.nil_append, hf.nil, List.nil_append] at hclose
        rw [if_pos hempty]
        exact hopen.trans (by rw [hclose, hturn]; rfl)
      · rw [if_neg hempty]
        simpa using hturn
  | array hel rank ih =>
      rename_i element
      obtain ⟨hturn, hstart⟩ := ih
      have hshape : ∀ style : Rendering, ((Signature.array element rank).render style).toList
          = (element.render style).toList ++ '[' :: (List.replicate (rank - 1) ',' ++ [']']) := by
        intro style
        simp [Signature.render, Signature.toList_copies_comma]
      rw [hshape, hshape]
      refine ⟨?_, hstart.append _⟩
      rw [hf.separates '[' (by decide), hf.suffix (by decide), hf.commas, hturn]
  | byRef hel ih =>
      rename_i element
      simp only [Signature.render, String.toList_append]
      exact ⟨by rw [← ih.1]; exact hf.suffix (by decide) _, ih.2.append _⟩
  | pointer hel ih =>
      rename_i element
      simp only [Signature.render, String.toList_append]
      exact ⟨by rw [← ih.1]; exact hf.suffix (by decide) _, ih.2.append _⟩
  | parameter owner index hname => exact ⟨hf.identifier hname, hname.startsWord⟩

end Rendering.Turns

end ApiSurface
