/-
Localizing a mangled name and counting back.

`Name.localize` gives the segments of a mangled name their arguments, each as many
as its arity says, and `Name.unlocalize` puts the number of arguments back.  The
first goes through the name once and takes arguments from the front of a list; the
second looks for the first argument list, counts what is in it, and goes on behind
it.  Both are followed segment by segment: what stands behind a segment is empty or
starts with a slash, and neither pass looks across it.

The way back has to tell the commas between arguments from those inside of them.
`Name.IsArgument` says of a text that its brackets match and its commas are inside
of brackets; such texts can be counted, whatever else they hold.
-/
import ApiSurface.Proofs.ShownName
import Mathlib.Algebra.GroupWithZero.Nat
import Mathlib.Data.List.Infix
import Mathlib.Data.List.SplitLengths

namespace ApiSurface

open Text Rendering

namespace Name

/-! ### Arguments -/

/-- What a character adds to the depth of angle brackets. -/
def bracketWeight (c : Char) : Int := if c = '<' then 1 else if c = '>' then -1 else 0

/-- How many more angle brackets the text opens than it closes. -/
def bracketDepth (text : List Char) : Int := text.count '<' - text.count '>'

@[simp] theorem bracketDepth_nil : bracketDepth [] = 0 := rfl

theorem bracketDepth_cons (c : Char) (text : List Char) :
    bracketDepth (c :: text) = bracketWeight c + bracketDepth text := by
  unfold bracketDepth bracketWeight
  by_cases hopen : c = '<'
  · simp [hopen]
    omega
  · by_cases hclose : c = '>'
    · simp [hclose]
      omega
    · simp [hopen, hclose]

/-- The text is one argument of a list: its brackets match, and its commas are inside of them. -/
structure IsArgument (text : List Char) : Prop where
  nonneg : ∀ before, before <+: text → 0 ≤ bracketDepth before
  closed : bracketDepth text = 0
  commas : ∀ before after, text = before ++ ',' :: after → bracketDepth before ≠ 0

instance : DecidablePred IsArgument := fun text =>
  decidable_of_iff ((∀ before ∈ text.inits, 0 ≤ bracketDepth before) ∧ bracketDepth text = 0
      ∧ ∀ before ∈ text.inits, before ++ [','] <+: text → bracketDepth before ≠ 0) <| by
    constructor
    · rintro ⟨hnonneg, hclosed, hcommas⟩
      refine ⟨fun before hbefore => hnonneg before ((List.mem_inits _ _).mpr hbefore), hclosed, ?_⟩
      rintro before after rfl
      exact hcommas before ((List.mem_inits _ _).mpr (List.prefix_append _ _)) ⟨after, by simp⟩
    · intro h
      refine ⟨fun before hbefore => h.nonneg before ((List.mem_inits _ _).mp hbefore), h.closed, ?_⟩
      rintro before - ⟨after, rfl⟩
      exact h.commas before after (by simp)

theorem closing_cons {c : Char} {depth : Nat} (h : 0 ≤ depth + bracketWeight c)
    (rest : List Char) :
    closing depth (c :: rest)
      = (closing (depth + bracketWeight c).toNat rest).map fun cut => (c :: cut.1, cut.2) := by
  unfold bracketWeight at h ⊢
  by_cases hopen : c = '<'
  · simp only [closing, hopen]
    rfl
  · by_cases hclose : c = '>'
    · have hpos : depth ≠ 0 := by
        simp only [hclose] at h
        simp at h
        omega
      have hdepth : (depth + -1 : Int).toNat = depth - 1 := by omega
      simp [closing, hclose, hpos, hdepth]
    · simp [closing, hopen, hclose]

/-- The search for a closing bracket runs over a text that closes no more than is open. -/
theorem closing_append {text : List Char} {depth : Nat}
    (h : ∀ before, before <+: text → 0 ≤ depth + bracketDepth before) (rest : List Char) :
    closing depth (text ++ rest)
      = (closing (depth + bracketDepth text).toNat rest).map fun cut => (text ++ cut.1, cut.2) := by
  induction text generalizing depth with
  | nil => simp
  | cons c text ih =>
      have hfirst : 0 ≤ depth + bracketWeight c := by
        simpa [bracketDepth_cons] using h [c] (by simp)
      have hrest : ∀ before, before <+: text →
          0 ≤ ((depth + bracketWeight c).toNat : Int) + bracketDepth before := by
        intro before hbefore
        have hlonger := h (c :: before) (List.cons_prefix_cons.mpr ⟨rfl, hbefore⟩)
        rw [bracketDepth_cons] at hlonger
        omega
      have hdepth : ((depth + bracketWeight c).toNat : Int) + bracketDepth text
          = depth + bracketDepth (c :: text) := by
        rw [bracketDepth_cons]
        omega
      rw [List.cons_append, closing_cons hfirst, ih hrest, hdepth]
      simp [Function.comp_def]

theorem IsArgument.passes {text : List Char} (h : IsArgument text) : Passes text := by
  intro depth rest
  have hnonneg : ∀ before, before <+: text → 0 ≤ depth + bracketDepth before := by
    intro before hbefore
    have := h.nonneg before hbefore
    omega
  have hclosing := closing_append hnonneg rest
  rwa [h.closed, Int.add_zero, Int.toNat_natCast] at hclosing

/-- The splitter takes a text into the current piece if no comma of it is outside of brackets. -/
theorem argumentsFrom_append {text : List Char} {depth : Int}
    (h : ∀ before after, text = before ++ ',' :: after → depth + bracketDepth before ≠ 0)
    (current rest : List Char) :
    argumentsFrom depth current (text ++ rest)
      = argumentsFrom (depth + bracketDepth text) (text.reverse ++ current) rest := by
  induction text generalizing depth current with
  | nil => simp [bracketDepth]
  | cons c text ih =>
      have hcut : ¬(c = ',' ∧ depth = 0) := by
        rintro ⟨rfl, hzero⟩
        exact h [] text rfl (by simp [hzero, bracketDepth])
      have hrest : ∀ before after, text = before ++ ',' :: after →
          (if c = '<' then depth + 1 else if c = '>' then depth - 1 else depth)
            + bracketDepth before ≠ 0 := by
        intro before after htext hzero
        refine h (c :: before) after (by rw [htext]; rfl) ?_
        rw [bracketDepth_cons, bracketWeight]
        split_ifs at hzero ⊢ <;> omega
      have hdepth : (if c = '<' then depth + 1 else if c = '>' then depth - 1 else depth)
          + bracketDepth text = depth + bracketDepth (c :: text) := by
        rw [bracketDepth_cons, bracketWeight]
        split_ifs <;> omega
      rw [List.cons_append, argumentsFrom, if_neg hcut, ih hrest, hdepth]
      simp

theorem IsArgument.keptAt {text : List Char} (h : IsArgument text) : KeptAt 0 text := by
  intro current rest
  have hcommas : ∀ before after, text = before ++ ',' :: after → 0 + bracketDepth before ≠ 0 := by
    intro before after htext
    rw [Int.zero_add]
    exact h.commas before after htext
  have hkept := argumentsFrom_append hcommas current rest
  rwa [h.closed, Int.add_zero] at hkept

theorem length_arguments_of_keptAt {args : List String} (hne : args ≠ [])
    (h : ∀ arg ∈ args, KeptAt 0 arg.toList) :
    (arguments (join "," args).toList).length = args.length := by
  have hpieces : ∀ arg ∈ args, AddsPieces 0 (id arg).toList :=
    fun arg harg => (h arg harg).addsPieces
  have hlength := length_arguments_join hne hpieces
  have hzero : total (args.map fun _ => 0) = 0 := total_eq_zero_iff.mpr (by simp)
  rwa [List.map_id, hzero, Nat.add_zero] at hlength

/-! ### Segments -/

/-- A segment of a mangled name.  One that takes no arguments has no mark. -/
structure MangledSegment where
  plain : String
  arity : Nat
  chars : ∀ c ∈ plain.toList, c ∉ [arityMark, '<', '>', '/']

namespace MangledSegment

/-- The segment with its arity. -/
def mangled (segment : MangledSegment) : String :=
  if segment.arity = 0 then segment.plain else segment.plain ++ "`" ++ naturalText segment.arity

/-- The segment with arguments in the place of its arity. -/
def filled (segment : MangledSegment) (args : List String) : String :=
  if args.isEmpty then segment.plain else segment.plain ++ "<" ++ join "," args ++ ">"

variable (segment : MangledSegment)

theorem notMem_plain {c : Char} (hc : c ∈ [arityMark, '<', '>', '/']) :
    c ∉ segment.plain.toList :=
  fun hmem => segment.chars c hmem hc

theorem isMarked : IsMarked segment.mangled segment.arity := by
  have hplain := segment.notMem_plain (c := arityMark) (by simp)
  unfold mangled
  by_cases hzero : segment.arity = 0
  · rw [if_pos hzero, hzero]
    exact .bare hplain
  · rw [if_neg hzero]
    exact .marked hplain (Nat.pos_of_ne_zero hzero)

theorem open_notMem_mangled : '<' ∉ segment.mangled.toList := by
  have hplain := segment.notMem_plain (c := '<') (by simp)
  unfold mangled
  by_cases hzero : segment.arity = 0
  · rwa [if_pos hzero]
  · rw [if_neg hzero, toList_marked, List.mem_append, List.mem_cons, not_or, not_or]
    refine ⟨hplain, by decide, fun hmem => ?_⟩
    rw [naturalText, String.toList_ofList] at hmem
    exact absurd (Nat.isDigit_of_mem_toDigits (by decide) (by decide) hmem) (by decide)

theorem filled_eq (args : List String) :
    segment.filled args = segment.plain ++ localized.list args := by
  unfold filled Rendering.list
  by_cases hnone : args = []
  · simp [hnone]
  · simp [hnone, localized, slashed, full, String.append_assoc]

theorem label_mangled {args : List String} (hargs : args.length = segment.arity) :
    localized.label (!args.isEmpty) segment.mangled = segment.plain := by
  unfold mangled Rendering.label
  by_cases hzero : segment.arity = 0
  · have hnone : args = [] := List.eq_nil_of_length_eq_zero (hargs.trans hzero)
    simp [hzero, hnone, localized]
  · have hsome : args ≠ [] := by
      rintro rfl
      exact hzero hargs.symm
    simp [hzero, hsome, plainOf_marked]

/-! ### Filling a segment -/

variable {segment} {args : List String} {used : Nat} (hsize : used + segment.arity < sizeLimit)

include hsize

theorem fill_mangled (h : used + segment.arity ≤ args.length) :
    fill (args.map String.toList) used (mangledPieces segment.mangled.toList)
      = .ok ⟨(segment.filled ((args.drop used).take segment.arity)).toList,
          used + segment.arity⟩ := by
  have hown : ((args.drop used).take segment.arity).length = segment.arity := by
    rw [List.length_take, List.length_drop]
    omega
  have hfill := segment.isMarked.fill args used hsize h (List.not_mem_nil (a := arityMark))
  rwa [segment.label_mangled hown, List.nil_append, List.nil_append, ← String.toList_append,
    ← filled_eq] at hfill

theorem fill_mangled_of_lt (hused : used ≤ args.length)
    (h : args.length < used + segment.arity) :
    fill (args.map String.toList) used (mangledPieces segment.mangled.toList)
      = .error .tooFew := by
  have hmark : segment.arity ≠ 0 := by omega
  have hpieces : mangledPieces segment.mangled.toList
      = segment.plain.toList.map .plain ++ [.placeholder (naturalText segment.arity).toList] := by
    rw [mangled, if_neg hmark, toList_marked,
      mangledPieces_append (segment.notMem_plain (by simp)), mangledPieces_mark]
  have harity : segment.arity < sizeLimit := by omega
  rw [hpieces, fill_append, fill_plain]
  simp [Except.bind, Except.map, fill, grant, addSizes, readDigits_naturalText harity, hsize, h]

/-- A segment takes its arguments before what comes behind it does, or there are too few. -/
theorem fill_mangled_append (hused : used ≤ args.length) (more : List Piece) :
    fill (args.map String.toList) used (mangledPieces segment.mangled.toList ++ more)
      = if used + segment.arity ≤ args.length then
          (fill (args.map String.toList) (used + segment.arity) more).map fun rest =>
            ⟨(segment.filled ((args.drop used).take segment.arity)).toList ++ rest.text, rest.used⟩
        else .error .tooFew := by
  rw [fill_append]
  by_cases henough : used + segment.arity ≤ args.length
  · rw [if_pos henough, fill_mangled hsize henough, Except.bind]
  · rw [if_neg henough, fill_mangled_of_lt hsize hused (by omega), Except.bind]

end MangledSegment

open MangledSegment

/-! ### Segments behind each other -/

/-- Each part with a slash before it. -/
def behind (parts : List String) : List Char := parts.flatMap fun part => '/' :: part.toList

theorem behind_cons (part : String) (rest : List String) :
    behind (part :: rest) = '/' :: (part.toList ++ behind rest) := rfl

theorem toList_join_slash (part : String) (rest : List String) :
    (join "/" (part :: rest)).toList = part.toList ++ behind rest := by
  induction rest generalizing part with
  | nil => simp [join, behind]
  | cons next rest ih => rw [toList_join_cons, ih, behind_cons]; rfl

/-- No placeholder reaches over a slash. -/
theorem mangledPieces_append_behind (text : List Char) (parts : List String) :
    mangledPieces (text ++ behind parts) = mangledPieces text ++ mangledPieces (behind parts) := by
  cases parts with
  | nil => simp [behind, mangledPieces, piecesFrom, Pending.settle]
  | cons part rest =>
      rw [behind_cons]
      exact piecesFrom_append (by decide) (by decide) text _ .nothing

/-- The segments with the arguments filled in, each with the next ones of the list. -/
def fillAll (segments : List MangledSegment) (args : List String) : List String :=
  segments.zipWith filled ((segments.map arity).splitLengths args)

theorem fillAll_cons (segment : MangledSegment) (rest : List MangledSegment) (args : List String) :
    fillAll (segment :: rest) args
      = segment.filled (args.take segment.arity) :: fillAll rest (args.drop segment.arity) := by
  simp [fillAll]

theorem fill_behind {segments : List MangledSegment} {args : List String} {used : Nat}
    (hsize : used + (segments.map arity).sum < sizeLimit) (hused : used ≤ args.length) :
    fill (args.map String.toList) used (mangledPieces (behind (segments.map MangledSegment.mangled)))
      = if used + (segments.map arity).sum ≤ args.length then
          .ok ⟨behind (fillAll segments (args.drop used)), used + (segments.map arity).sum⟩
        else .error .tooFew := by
  induction segments generalizing used with
  | nil => simp [behind, fillAll, mangledPieces, piecesFrom, Pending.settle, fill, hused]
  | cons segment rest ih =>
      simp only [List.map_cons, List.sum_cons] at hsize ⊢
      have hslash : mangledPieces (behind (segment.mangled :: rest.map MangledSegment.mangled))
          = .plain '/' :: (mangledPieces segment.mangled.toList
              ++ mangledPieces (behind (rest.map MangledSegment.mangled))) := by
        rw [behind_cons, ← mangledPieces_append_behind]
        rfl
      rw [hslash, fill, fill_mangled_append (by omega) hused]
      by_cases henough : used + segment.arity ≤ args.length
      · rw [if_pos henough, ih (by omega) henough, fillAll_cons, behind_cons, List.drop_drop]
        by_cases hall : used + (segment.arity + (rest.map arity).sum) ≤ args.length
        · simp [Nat.add_assoc, hall, Except.map]
        · simp [Nat.add_assoc, hall, Except.map]
      · rw [if_neg henough, if_neg (by omega), Except.map]

/-! ### Counting back -/

theorem unlocalizeChars_eq (name : List Char) :
    unlocalizeChars name = match firstList name with
      | .absent => name
      | .unclosed head rest => head ++ arityMark :: Nat.toDigits 10 (arguments rest).length
      | .found cut =>
        cut.head ++ arityMark :: Nat.toDigits 10 (arguments cut.inside).length
          ++ if cut.tail.head? = some '/' then unlocalizeChars cut.tail else [] := by
  rw [unlocalizeChars]
  split
  · rename_i hlist; simp only [hlist]
  · rename_i hlist; simp only [hlist]
  · rename_i cut hlist
    by_cases hslash : cut.tail.head? = some '/'
    · simp [hlist, hslash]
    · simp [hlist, hslash]

/-- What comes before the first bracket is not looked at. -/
theorem unlocalizeChars_append {before : List Char} (h : '<' ∉ before) (name : List Char) :
    unlocalizeChars (before ++ name) = before ++ unlocalizeChars name := by
  rw [unlocalizeChars_eq, unlocalizeChars_eq]
  unfold firstList
  cases hcut : cutFirst '<' name with
  | none =>
      have hnone : cutFirst '<' (before ++ name) = none := by
        rw [cutFirst_eq_none_iff] at hcut ⊢
        simpa [hcut] using h
      simp [hnone]
  | some cut =>
      obtain ⟨head, rest⟩ := cut
      obtain ⟨hname, hhead⟩ := cutFirst_eq_some hcut
      have hsome : cutFirst '<' (before ++ name) = some (before ++ head, rest) := by
        rw [hname, ← List.append_assoc]
        exact cutFirst_append (by simpa [hhead] using h) rest
      cases hclosing : closing 0 rest with
      | none => simp [hsome, hclosing]
      | some sides => simp [hsome, hclosing]

theorem unlocalizeChars_slash (name : List Char) :
    unlocalizeChars ('/' :: name) = '/' :: unlocalizeChars name :=
  have hslash : '<' ∉ ['/'] := by decide
  unlocalizeChars_append hslash name

theorem unlocalizeChars_of_notMem {name : List Char} (h : '<' ∉ name) :
    unlocalizeChars name = name := by
  have hempty : unlocalizeChars [] = [] := by rw [unlocalizeChars_eq]; rfl
  have hname := unlocalizeChars_append h []
  rwa [hempty, List.append_nil] at hname

/-- A segment gets its arity back. -/
theorem unlocalizeChars_filled (segment : MangledSegment) {args : List String}
    (hlength : args.length = segment.arity) (hargs : ∀ arg ∈ args, IsArgument arg.toList)
    (parts : List String) :
    unlocalizeChars ((segment.filled args).toList ++ behind parts)
      = segment.mangled.toList ++ unlocalizeChars (behind parts) := by
  have hplain : '<' ∉ segment.plain.toList := segment.notMem_plain (by simp)
  by_cases hnone : args = []
  · have hzero : segment.arity = 0 := by rw [← hlength, hnone, List.length_nil]
    simp [filled, MangledSegment.mangled, hnone, hzero, unlocalizeChars_append hplain]
  · have hmark : segment.arity ≠ 0 := by
      rw [← hlength]
      simpa using hnone
    have hfilled : (segment.filled args).toList ++ behind parts
        = segment.plain.toList ++ '<' :: ((join "," args).toList ++ '>' :: behind parts) := by
      simp [filled, hnone]
    have hpasses := Passes.join fun arg harg => (hargs arg harg).passes
    have hlist : firstList ('<' :: ((join "," args).toList ++ '>' :: behind parts))
        = .found ⟨[], (join "," args).toList, behind parts⟩ := by
      simp [firstList, cutFirst, closing_of_passes hpasses]
    -- behind the list there is nothing, or a slash
    have htail : (if (behind parts).head? = some '/' then unlocalizeChars (behind parts) else [])
        = unlocalizeChars (behind parts) := by
      cases parts with
      | nil => exact (unlocalizeChars_of_notMem List.not_mem_nil).symm
      | cons part rest => rfl
    rw [hfilled, unlocalizeChars_append hplain, unlocalizeChars_eq, hlist]
    simp only [htail, length_arguments_of_keptAt hnone fun arg harg => (hargs arg harg).keptAt,
      hlength]
    rw [MangledSegment.mangled, if_neg hmark, toList_marked, naturalText, String.toList_ofList]
    simp

theorem unlocalizeChars_behind {segments : List MangledSegment} {args : List String}
    (henough : (segments.map arity).sum ≤ args.length)
    (hargs : ∀ arg ∈ args.take (segments.map arity).sum, IsArgument arg.toList) :
    unlocalizeChars (behind (fillAll segments args))
      = behind (segments.map MangledSegment.mangled) := by
  induction segments generalizing args with
  | nil => exact unlocalizeChars_of_notMem List.not_mem_nil
  | cons segment rest ih =>
      rw [List.map_cons, List.sum_cons] at henough hargs
      rw [List.take_add] at hargs
      have hlength : (args.take segment.arity).length = segment.arity := by
        rw [List.length_take]
        omega
      have hrest : unlocalizeChars (behind (fillAll rest (args.drop segment.arity)))
          = behind (rest.map MangledSegment.mangled) :=
        ih (by rw [List.length_drop]; omega) fun arg harg => hargs arg (List.mem_append_right _ harg)
      have hsegment := unlocalizeChars_filled segment hlength
        (fun arg harg => hargs arg (List.mem_append_left _ harg))
        (fillAll rest (args.drop segment.arity))
      rw [fillAll_cons, behind_cons, unlocalizeChars_slash, hsegment, hrest]
      rfl

/-! ### Whole names -/

/-- The segments with slashes between them. -/
def mangledName (segments : List MangledSegment) : String :=
  join "/" (segments.map MangledSegment.mangled)

theorem open_notMem_mangledName (segments : List MangledSegment) :
    '<' ∉ (mangledName segments).toList := by
  intro hmem
  rcases mem_toList_join hmem with hslash | ⟨text, htext, hmem⟩
  · exact absurd hslash (by decide)
  · obtain ⟨segment, -, rfl⟩ := List.mem_map.mp htext
    exact segment.open_notMem_mangled hmem

theorem fill_mangledName {segments : List MangledSegment}
    (hsize : (segments.map arity).sum < sizeLimit) (args : List String) :
    fill (args.map String.toList) 0 (mangledPieces (mangledName segments).toList)
      = if (segments.map arity).sum ≤ args.length then
          .ok ⟨(join "/" (fillAll segments args)).toList, (segments.map arity).sum⟩
        else .error .tooFew := by
  cases segments with
  | nil => simp [mangledName, join, fillAll, mangledPieces, piecesFrom, Pending.settle, fill]
  | cons segment rest =>
      simp only [List.map_cons, List.sum_cons] at hsize ⊢
      rw [mangledName, List.map_cons, toList_join_slash, mangledPieces_append_behind,
        fill_mangled_append (by omega) (Nat.zero_le _), Nat.zero_add, List.drop_zero, fillAll_cons,
        toList_join_slash]
      by_cases henough : segment.arity ≤ args.length
      · rw [if_pos henough, fill_behind (by omega) henough]
        by_cases hall : segment.arity + (rest.map arity).sum ≤ args.length
        · simp [hall, Except.map]
        · simp [hall, Except.map]
      · rw [if_neg henough, if_neg (by omega)]

theorem localize_mangledName {segments : List MangledSegment}
    (hsize : (segments.map arity).sum < sizeLimit) {generics : List String} (hne : generics ≠ []) :
    localize (mangledName segments) generics
      = if (segments.map arity).sum ≤ generics.length then .ok (join "/" (fillAll segments generics))
        else .error (.malformedGenericName (mangledName segments)) := by
  have hown : ¬((generics.map String.toList).isEmpty = true
      ∨ '<' ∈ (mangledName segments).toList) := by
    simp [hne, open_notMem_mangledName]
  rw [localize, localizeOrFault, localizeChars, if_neg hown, fill_mangledName hsize]
  by_cases henough : (segments.map arity).sum ≤ generics.length
  · simp [henough, Except.map, Except.mapError]
  · simp [henough, Except.map, Except.mapError, Shortage.fault, Fault.error]

theorem unlocalize_fillAll {segments : List MangledSegment} {args : List String}
    (henough : (segments.map arity).sum ≤ args.length)
    (hargs : ∀ arg ∈ args.take (segments.map arity).sum, IsArgument arg.toList) :
    unlocalize (join "/" (fillAll segments args)) = mangledName segments := by
  cases segments with
  | nil => exact congrArg String.ofList (unlocalizeChars_of_notMem List.not_mem_nil)
  | cons segment rest =>
      have hbehind := unlocalizeChars_behind henough hargs
      rw [fillAll_cons, behind_cons, List.map_cons, behind_cons, unlocalizeChars_slash,
        ← toList_join_slash, ← toList_join_slash] at hbehind
      rw [unlocalize, fillAll_cons]
      exact String.toList_inj.mp ((String.toList_ofList ..).trans (List.cons.inj hbehind).2)

/-- The shares of the segments are the front of the list, cut up. -/
theorem flatten_splitLengths_eq_take {α : Type} (sizes : List Nat) (items : List α) :
    (sizes.splitLengths items).flatten = items.take sizes.sum := by
  induction sizes generalizing items with
  | nil => simp
  | cons size rest ih => simp [ih, List.take_add]

/-- **Counting back undoes localizing.**  A mangled name is localized exactly if there are as many
arguments as its arities add up to, and otherwise it is reported.  The segments take the arguments
in order, each as many as its arity says, and every argument up to the last one taken is used once.
If those arguments have matching brackets and no comma outside of them, then counting gives the
mangled name again.  Without arguments the name stays as it is, both ways. -/
theorem unlocalize_localize (segments : List MangledSegment)
    (hsize : (segments.map arity).sum < sizeLimit) (generics : List String) :
    let name := mangledName segments
    let count := (segments.map arity).sum
    let shares := (segments.map arity).splitLengths generics
    let localized := join "/" (segments.zipWith filled shares)
    (generics ≠ [] →
      localize name generics
        = (if count ≤ generics.length then .ok localized
          else .error (.malformedGenericName name)) ∧
      (count ≤ generics.length →
        shares.map List.length = segments.map arity ∧
        shares.flatten = generics.take count ∧
        ((∀ arg ∈ generics.take count, IsArgument arg.toList) → unlocalize localized = name))) ∧
    (generics = [] → localize name generics = .ok name ∧ unlocalize name = name) := by
  intro name count shares localized
  have hopen := open_notMem_mangledName segments
  refine ⟨fun hne => ⟨localize_mangledName hsize hne, fun henough => ?_⟩, ?_⟩
  · exact ⟨List.map_splitLengths_length _ _ henough, flatten_splitLengths_eq_take _ _,
      unlocalize_fillAll henough⟩
  · rintro rfl
    constructor
    · have hown : localizeChars name.toList [] = .ok name.toList := by
        rw [localizeChars, if_pos (.inl rfl), localizeOwn_of_absent hopen]
      rw [localize, localizeOrFault, List.map_nil, hown]
      exact congrArg Except.ok String.ofList_toList
    · rw [unlocalize, unlocalizeChars_of_notMem hopen, String.ofList_toList]

/-- The plain segment in the middle takes nothing, and the last argument is left over. -/
theorem unlocalize_localize_inner :
    let generics := ["A", "List<B,C>", "D[]", "E"]
    localize "Game.Outer`1/Mid/Inner`2" generics = .ok "Game.Outer<A>/Mid/Inner<List<B,C>,D[]>" ∧
      unlocalize "Game.Outer<A>/Mid/Inner<List<B,C>,D[]>" = "Game.Outer`1/Mid/Inner`2" ∧
      localize "Game.Outer`1/Mid/Inner`2" ["A", "B"]
        = .error (.malformedGenericName "Game.Outer`1/Mid/Inner`2") := by
  intro generics
  let segments : List MangledSegment := [⟨"Game.Outer", 1, forall_mem_of_all (by decide)⟩,
    ⟨"Mid", 0, forall_mem_of_all (by decide)⟩, ⟨"Inner", 2, forall_mem_of_all (by decide)⟩]
  have hsize : (segments.map arity).sum < sizeLimit := by decide
  obtain ⟨hlocalize, hback⟩ := (unlocalize_localize segments hsize generics).1 (by decide)
  obtain ⟨hshort, -⟩ := (unlocalize_localize segments hsize ["A", "B"]).1 (by decide)
  obtain ⟨-, -, hunlocalize⟩ := hback (by decide)
  exact ⟨hlocalize, hunlocalize (by decide), hshort⟩

end Name

end ApiSurface
