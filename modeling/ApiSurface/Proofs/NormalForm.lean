/-
Normal forms of names.

Displaying a name rewrites text twice: framework types become keywords, and then
namespaces go.  Both rewrites run once through the text, so what is left of it next
to a change might call for another one.  It never does, whatever the text is.

The first rewrite works on the runs of the text: the longest pieces whose characters
all belong to names, and the pieces between them.  A keyword is again a run of that
sort, so the runs of the result are the rewritten runs (`IsRuns.map`), and no keyword
has a keyword.  The second rewrite leaves no word directly before a dot, and such text
is bare: there is no namespace to drop from it and no framework type in it.
-/
import ApiSurface.Proofs.NamePasses
import Mathlib.Data.List.SplitBy

namespace ApiSurface

/-! ### Runs -/

/-- The longest pieces of a text whose characters are all of the class or all not of it. -/
def Text.runs (p : Char → Bool) (text : List Char) : List (List Char) :=
  text.splitBy fun c d => p c == p d

/-- The characters of the piece are all of the class, or none of them is. -/
def Text.IsUniform (p : Char → Bool) (piece : List Char) : Prop :=
  ∀ c ∈ piece, p c = piece.all p

/-- The pieces are the runs of the text that they make up. -/
structure Text.IsRuns (p : Char → Bool) (pieces : List (List Char)) : Prop where
  nonempty : [] ∉ pieces
  uniform : ∀ piece ∈ pieces, IsUniform p piece
  alternating : pieces.IsChain fun piece next => piece.all p ≠ next.all p

namespace Text

variable {p : Char → Bool}

theorem isUniform_of_isChain {piece : List Char} (h : piece.IsChain fun c d => p c == p d) :
    IsUniform p piece := by
  induction piece with
  | nil => exact fun c hc => absurd hc List.not_mem_nil
  | cons c rest ih =>
      intro d hd
      obtain ⟨hnext, hrest⟩ := List.isChain_cons.mp h
      have hall : (c :: rest).all p = p c := by
        cases rest with
        | nil => simp
        | cons e rest =>
            have hce : p c = p e := by simpa using hnext e rfl
            rw [List.all_cons, ← ih hrest e List.mem_cons_self, hce, Bool.and_self]
      rcases List.mem_cons.mp hd with rfl | hd
      · exact hall.symm
      · cases rest with
        | nil => exact absurd hd List.not_mem_nil
        | cons e rest =>
            have hce : p c = p e := by simpa using hnext e rfl
            rw [hall, hce, ih hrest d hd, ih hrest e List.mem_cons_self]

theorem isRuns_runs (p : Char → Bool) (text : List Char) : IsRuns p (runs p text) := by
  have huniform : ∀ piece ∈ runs p text, IsUniform p piece :=
    fun piece hpiece => isUniform_of_isChain (List.isChain_of_mem_splitBy hpiece)
  refine ⟨List.nil_notMem_splitBy _ text, huniform, ?_⟩
  refine (List.isChain_getLast_head_splitBy _ text).imp_of_mem_imp ?_
  rintro piece next hpiece hnext ⟨hne, hne', hdiffer⟩ hsame
  rw [← huniform piece hpiece _ (List.getLast_mem hne),
    ← huniform next hnext _ (List.head_mem hne')] at hsame
  simp [hsame] at hdiffer

/-- Rewriting runs into runs of the same class keeps them apart. -/
theorem IsRuns.map {pieces : List (List Char)} (h : IsRuns p pieces)
    {f : List Char → List Char} (hne : ∀ piece, piece ≠ [] → f piece ≠ [])
    (hall : ∀ piece, (f piece).all p = piece.all p)
    (huniform : ∀ piece, IsUniform p piece → IsUniform p (f piece)) :
    IsRuns p (pieces.map f) := by
  refine ⟨?_, ?_, ?_⟩
  · intro hnil
    obtain ⟨piece, hpiece, hempty⟩ := List.mem_map.mp hnil
    refine hne piece ?_ hempty
    rintro rfl
    exact h.nonempty hpiece
  · intro piece hpiece
    obtain ⟨old, hold, rfl⟩ := List.mem_map.mp hpiece
    exact huniform old (h.uniform old hold)
  · rw [List.isChain_map]
    refine h.alternating.imp ?_
    intro piece next hdiffer
    rwa [hall, hall]

end Text

open Text

namespace Name

/-! ### Keywords -/

/-- What becomes of a run: a framework type with a keyword is replaced, and all else stays. -/
def friendlyRun (run : List Char) : List Char :=
  if run.all isTokenChar then friendlyToken run else run

theorem friendlyToken_cases (token : List Char) :
    friendlyToken token = token ∨
      ∃ keyword, keyword? (String.ofList token) = some keyword
        ∧ friendlyToken token = keyword.toList := by
  unfold friendlyToken
  cases hkey : keyword? (String.ofList token) with
  | none => exact Or.inl rfl
  | some keyword => exact Or.inr ⟨keyword, rfl, rfl⟩

theorem all_isTokenChar_keyword {keyword : String} (h : IsIdentifier keyword) :
    keyword.toList.all isTokenChar = true :=
  List.all_eq_true.mpr fun c hc =>
    isTokenChar_of_isPathChar (isPathChar_of_isWordChar (h.chars c hc))

theorem all_friendlyRun (run : List Char) :
    (friendlyRun run).all isTokenChar = run.all isTokenChar := by
  unfold friendlyRun
  by_cases hrun : run.all isTokenChar = true
  · rw [if_pos hrun, hrun]
    rcases friendlyToken_cases run with hsame | ⟨keyword, hkey, hfriendly⟩
    · rw [hsame, hrun]
    · rw [hfriendly]
      exact all_isTokenChar_keyword (keyword?_eq_some hkey).2
  · rw [if_neg hrun]

theorem friendlyRun_ne_nil {run : List Char} (h : run ≠ []) : friendlyRun run ≠ [] := by
  unfold friendlyRun
  by_cases hrun : run.all isTokenChar = true
  · rw [if_pos hrun]
    rcases friendlyToken_cases run with hsame | ⟨keyword, hkey, hfriendly⟩
    · rwa [hsame]
    · rw [hfriendly]
      exact (keyword?_eq_some hkey).2.toList_ne_nil
  · rwa [if_neg hrun]

theorem isUniform_friendlyRun {run : List Char} (h : IsUniform isTokenChar run) :
    IsUniform isTokenChar (friendlyRun run) := by
  by_cases hrun : run.all isTokenChar = true
  · intro c hc
    rw [all_friendlyRun, hrun]
    rw [← all_friendlyRun] at hrun
    exact List.all_eq_true.mp hrun c hc
  · rwa [friendlyRun, if_neg hrun]

/-- A keyword is no framework type. -/
theorem friendlyRun_friendlyRun (run : List Char) :
    friendlyRun (friendlyRun run) = friendlyRun run := by
  by_cases hrun : run.all isTokenChar = true
  · have htoken : friendlyRun run = friendlyToken run := if_pos hrun
    rcases friendlyToken_cases run with hsame | ⟨keyword, hkey, hfriendly⟩
    · rw [htoken, hsame, htoken, hsame]
    · have hword := (keyword?_eq_some hkey).2
      have hall := all_isTokenChar_keyword hword
      have hsame := friendlyChars_identifier hword
      rw [friendlyChars_of_token (List.all_eq_true.mp hall)] at hsame
      rw [htoken, hfriendly, friendlyRun, if_pos hall, hsame]
  · have hother : friendlyRun run = run := if_neg hrun
    rw [hother, hother]

theorem friendlyChars_token_append {run text : List Char} (hrun : run.all isTokenChar = true)
    (htext : ∀ c ∈ text.head?, isTokenChar c = false) :
    friendlyChars (run ++ text) = friendlyToken run ++ friendlyChars text := by
  have htoken := friendlyChars_of_token (List.all_eq_true.mp hrun)
  cases text with
  | nil =>
      rw [List.append_nil, htoken]
      exact (List.append_nil _).symm
  | cons c rest =>
      have hsplit := friendlyChars_separates (htext c rfl)
      have hempty : friendlyChars [] = [] := rfl
      have hrest := hsplit [] rest
      rw [List.nil_append, hempty, List.nil_append] at hrest
      rw [hsplit, htoken, hrest]

theorem friendlyChars_other_append {run : List Char} (hrun : ∀ c ∈ run, isTokenChar c = false)
    (text : List Char) : friendlyChars (run ++ text) = run ++ friendlyChars text := by
  induction run with
  | nil => rfl
  | cons c rest ih =>
      have hempty : friendlyChars [] = [] := rfl
      have hsplit := friendlyChars_separates (hrun c List.mem_cons_self) [] (rest ++ text)
      rw [List.nil_append, hempty, List.nil_append] at hsplit
      rw [List.cons_append, hsplit, ih fun d hd => hrun d (List.mem_cons_of_mem c hd)]
      rfl

/-- Each run is rewritten on its own. -/
theorem friendlyChars_flatten {pieces : List (List Char)} (h : IsRuns isTokenChar pieces) :
    friendlyChars pieces.flatten = pieces.flatMap friendlyRun := by
  induction pieces with
  | nil => rfl
  | cons run rest ih =>
      have huniform := h.uniform run List.mem_cons_self
      have hrest : IsRuns isTokenChar rest :=
        ⟨fun hnil => h.nonempty (List.mem_cons_of_mem run hnil),
          fun piece hpiece => h.uniform piece (List.mem_cons_of_mem run hpiece),
          h.alternating.tail⟩
      rw [List.flatten_cons, List.flatMap_cons, ← ih hrest]
      by_cases hrun : run.all isTokenChar = true
      · rw [friendlyRun, if_pos hrun]
        refine friendlyChars_token_append hrun fun c hc => ?_
        cases rest with
        | nil => exact absurd hc (by simp)
        | cons next more =>
            have hnext : next ≠ [] := by
              rintro rfl
              exact hrest.nonempty List.mem_cons_self
            have hdiffer := (List.isChain_cons_cons.mp h.alternating).1
            have hmem : c ∈ next := by
              rw [List.flatten_cons, List.head?_append_of_ne_nil _ hnext] at hc
              exact List.mem_of_mem_head? hc
            rw [hrest.uniform next List.mem_cons_self c hmem]
            simpa [hrun] using hdiffer.symm
      · rw [friendlyRun, if_neg hrun]
        refine friendlyChars_other_append (fun c hc => ?_) rest.flatten
        rw [huniform c hc]
        simpa using hrun

theorem friendlyChars_eq_flatMap (text : List Char) :
    friendlyChars text = (runs isTokenChar text).flatMap friendlyRun := by
  have hruns := friendlyChars_flatten (isRuns_runs isTokenChar text)
  rwa [runs, List.flatten_splitBy, ← runs] at hruns

theorem friendlyChars_friendlyChars (text : List Char) :
    friendlyChars (friendlyChars text) = friendlyChars text := by
  have hruns := (isRuns_runs isTokenChar text).map (fun _ => friendlyRun_ne_nil) all_friendlyRun
    fun _ => isUniform_friendlyRun
  have htwice := friendlyChars_flatten hruns
  rw [← List.flatMap_def, ← friendlyChars_eq_flatMap, List.flatMap_map] at htwice
  simp only [friendlyRun_friendlyRun] at htwice
  rw [htwice, friendlyChars_eq_flatMap]

/-! ### Bare text -/

/-- No word stands directly before a dot. -/
def IsBare (text : List Char) : Prop := text.IsChain fun c d => ¬(isWordChar c = true ∧ d = '.')

instance : DecidablePred IsBare := fun text => by unfold IsBare; infer_instance

theorem isBare_of_notMem {text : List Char} (h : '.' ∉ text) : IsBare text := by
  induction text with
  | nil => exact List.isChain_nil
  | cons c rest ih =>
      refine List.isChain_cons.mpr ⟨?_, ih fun hmem => h (List.mem_cons_of_mem c hmem)⟩
      rintro d hd ⟨-, rfl⟩
      exact h (List.mem_cons_of_mem c (List.mem_of_mem_head? hd))

theorem dot_notMem_word {word : List Char} (h : ∀ c ∈ word, isWordChar c = true) : '.' ∉ word := by
  intro hmem
  exact absurd (h '.' hmem) (by decide)

theorem isBare_cons {c : Char} {text : List Char} (hc : isWordChar c = false) (h : IsBare text) :
    IsBare (c :: text) := by
  refine List.isChain_cons.mpr ⟨?_, h⟩
  rintro d - ⟨hword, -⟩
  exact absurd hword (by simp [hc])

/-- Dropping namespaces leaves bare text. -/
theorem isBare_unqualifyFrom (text : List Char) {current : List Char}
    (hword : ∀ c ∈ current, isWordChar c = true) : IsBare (unqualifyFrom current text) := by
  have hcurrent : ∀ c ∈ current.reverse, isWordChar c = true := by simpa using hword
  have hbare := isBare_of_notMem (dot_notMem_word hcurrent)
  induction text generalizing current with
  | nil => exact hbare
  | cons c rest ih =>
      have hnone : ∀ d ∈ ([] : List Char), isWordChar d = true := by simp
      have hrest := ih hnone hnone List.isChain_nil
      rw [unqualifyFrom]
      by_cases hc : isWordChar c = true
      · rw [if_pos hc]
        have hlonger : ∀ d ∈ c :: current, isWordChar d = true := by simpa [hc] using hword
        have hlonger' : ∀ d ∈ (c :: current).reverse, isWordChar d = true := by
          simpa [or_imp, forall_and, hc] using hword
        exact ih hlonger hlonger' (isBare_of_notMem (dot_notMem_word hlonger'))
      · rw [if_neg hc]
        by_cases hdot : c = '.' ∧ ¬current.isEmpty = true
        · rwa [if_pos hdot]
        · rw [if_neg hdot]
          refine List.isChain_append.mpr ⟨hbare, isBare_cons (by simpa using hc) hrest, ?_⟩
          -- a dot is kept only where no word was read before it
          rintro d hd e he ⟨-, rfl⟩
          obtain rfl : c = '.' := by simpa using he
          have hempty : current = [] := by simpa using hdot
          simp [hempty] at hd

theorem unqualifyFrom_of_isBare {text current : List Char}
    (hword : ∀ c ∈ current, isWordChar c = true) (h : IsBare (current.reverse ++ text)) :
    unqualifyFrom current text = current.reverse ++ text := by
  induction text generalizing current with
  | nil => rw [unqualifyFrom, List.append_nil]
  | cons c rest ih =>
      rw [unqualifyFrom]
      by_cases hc : isWordChar c = true
      · have hshape : (c :: current).reverse ++ rest = current.reverse ++ c :: rest := by simp
        rw [if_pos hc, ih (by simpa [hc] using hword) (by rwa [hshape]), hshape]
      · obtain ⟨-, hrest, hjoint⟩ := List.isChain_append.mp h
        have hdot : ¬(c = '.' ∧ ¬current.isEmpty = true) := by
          rintro ⟨rfl, hne⟩
          obtain ⟨d, before, rfl⟩ := List.exists_cons_of_ne_nil (by simpa using hne)
          exact hjoint d (by simp) '.' rfl ⟨hword d List.mem_cons_self, rfl⟩
        have hkept : unqualifyFrom [] rest = rest := ih (by simp) hrest.tail
        rw [if_neg hc, if_neg hdot, hkept]

/-! ### Spaced text -/

/-- No comma stands directly before a word character. -/
def IsSpaced (text : List Char) : Prop :=
  text.IsChain fun c d => ¬(c = ',' ∧ Text.isWordCharacter d = true)

theorem head?_spaceArguments (text : List Char) : (spaceArguments text).head? = text.head? := by
  fun_cases spaceArguments text with
  | case1 => rfl
  | case2 c => rfl
  | case3 c d rest hcut => simp [hcut.1]
  | case4 c d rest hcut => rfl

theorem isSpaced_spaceArguments (text : List Char) : IsSpaced (spaceArguments text) := by
  fun_induction spaceArguments text with
  | case1 => exact List.isChain_nil
  | case2 c => exact List.isChain_singleton c
  | case3 c d rest hcut ih =>
      have hspace : Text.isWordCharacter ' ' = false := by decide
      simp [IsSpaced, List.isChain_cons, hspace] at ih ⊢
      exact ih
  | case4 c d rest hcut ih =>
      refine List.isChain_cons.mpr ⟨?_, ih⟩
      intro e he
      rw [head?_spaceArguments] at he
      obtain rfl : d = e := by simpa using he
      exact hcut

theorem spaceArguments_of_isSpaced {text : List Char} (h : IsSpaced text) :
    spaceArguments text = text := by
  fun_induction spaceArguments text with
  | case1 => rfl
  | case2 c => rfl
  | case3 c d rest hcut ih => exact absurd hcut (List.isChain_cons_cons.mp h).1
  | case4 c d rest hcut ih => rw [ih (List.isChain_cons_cons.mp h).2]

theorem isBare_spaceArguments {text : List Char} (h : IsBare text) :
    IsBare (spaceArguments text) := by
  fun_induction spaceArguments text with
  | case1 => exact h
  | case2 c => exact h
  | case3 c d rest hcut ih =>
      exact isBare_cons (by decide) (isBare_cons (by decide) (ih (List.isChain_cons_cons.mp h).2))
  | case4 c d rest hcut ih =>
      obtain ⟨hpair, hrest⟩ := List.isChain_cons_cons.mp h
      refine List.isChain_cons.mpr ⟨?_, ih hrest⟩
      intro e he
      rw [head?_spaceArguments] at he
      obtain rfl : d = e := by simpa using he
      exact hpair

/-! ### Displayed text -/

theorem isBare_unqualifyChars (text : List Char) : IsBare (unqualifyChars text) :=
  isBare_spaceArguments (isBare_unqualifyFrom text (by simp))

theorem unqualifyChars_of_isBare {text : List Char} (hbare : IsBare text)
    (hspaced : IsSpaced text) : unqualifyChars text = text := by
  have hnone : ∀ c ∈ ([] : List Char), isWordChar c = true := by simp
  have hkept : unqualifyFrom [] text = text := unqualifyFrom_of_isBare hnone hbare
  rw [unqualifyChars, hkept]
  exact spaceArguments_of_isSpaced hspaced

theorem unqualifyChars_unqualifyChars (text : List Char) :
    unqualifyChars (unqualifyChars text) = unqualifyChars text :=
  unqualifyChars_of_isBare (isBare_unqualifyChars text) (isSpaced_spaceArguments _)

/-- A framework type with a keyword has a namespace. -/
theorem not_isBare_of_keyword? {name keyword : String} (h : keyword? name = some keyword) :
    ¬IsBare name.toList := by
  have hall : ∀ entry ∈ keywords, ¬IsBare entry.1.toList := by decide
  exact hall _ (mem_keywords h)

theorem friendlyChars_of_isBare {text : List Char} (h : IsBare text) :
    friendlyChars text = text := by
  have hsame : ∀ run ∈ Text.runs isTokenChar text, friendlyRun run = run := by
    intro run hrun
    have hinfix : run <:+: text := by
      rw [← List.flatten_splitBy (fun c d => isTokenChar c == isTokenChar d) text]
      exact List.infix_of_mem_flatten hrun
    have hbare : IsBare run := List.IsChain.infix h hinfix
    rw [friendlyRun]
    by_cases htoken : run.all isTokenChar = true
    · rw [if_pos htoken]
      rcases friendlyToken_cases run with hsame | ⟨keyword, hkey, -⟩
      · exact hsame
      · have hqualified := not_isBare_of_keyword? hkey
        rw [String.toList_ofList] at hqualified
        exact absurd hbare hqualified
    · rw [if_neg htoken]
  rw [friendlyChars_eq_flatMap, List.flatMap_congr hsame, List.flatMap_id']
  exact List.flatten_splitBy _ text

/--
**Normalizing a name a second time changes nothing**, whatever the text.  Writing keywords, dropping
namespaces and doing both are idempotent.  Writing keywords takes the text apart into its runs and
rewrites those of name characters that are, as a whole, framework types with a keyword; everything
else is kept.  Where namespaces were dropped, no word character stands directly before a dot.
-/
theorem normalizing_is_idempotent (text : String) :
    friendly (friendly text) = friendly text
      ∧ unqualified (unqualified text) = unqualified text
      ∧ unqualified (friendly (unqualified (friendly text))) = unqualified (friendly text)
      ∧ (let pieces := Text.runs isTokenChar text.toList
        IsRuns isTokenChar pieces ∧ pieces.flatten = text.toList
          ∧ (friendly text).toList
            = pieces.flatMap fun run =>
              if run.all isTokenChar then
                match keyword? (String.ofList run) with
                | some keyword => keyword.toList
                | none => run
              else run)
      ∧ (unqualified text).toList.IsChain (fun c d => ¬(isWordChar c = true ∧ d = '.')) := by
  have hbare : ∀ chars : List Char, friendlyChars (unqualifyChars chars) = unqualifyChars chars :=
    fun chars => friendlyChars_of_isBare (isBare_unqualifyChars chars)
  refine ⟨?_, ?_, ?_, ?_, ?_⟩
  · simp [friendly, friendlyChars_friendlyChars]
  · simp [unqualified, unqualifyChars_unqualifyChars]
  · simp [unqualified, friendly, hbare, unqualifyChars_unqualifyChars]
  · refine ⟨isRuns_runs isTokenChar text.toList, List.flatten_splitBy _ _, ?_⟩
    rw [friendly, String.toList_ofList]
    exact friendlyChars_eq_flatMap text.toList
  · rw [unqualified, String.toList_ofList]
    exact isBare_unqualifyChars text.toList

end Name

end ApiSurface
