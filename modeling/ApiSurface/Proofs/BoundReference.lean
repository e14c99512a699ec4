/-
What a bound reference keeps.

When arguments are written into a shown reference, what is displayed is made anew,
and what tells the reference from others is kept: its mangled name, its open name
and what was declared.  `ShownType.through_eq` says so for all of the record but the
flag of open parameters, which is not kept but worked out again, by comparing the
mangled name with the open one.

The two are made of the same raw name by different passes.  A mangled name has no
brackets and no marks, `Name.notMem_mangled`.  An open name has lost its arities and
nothing else: where localizing takes an argument list away, it puts another one in,
so a name with a bracket or a mark has one afterwards.  Every reference that something
can be written into is a parameter or has one, so the comparison finds the parameters.
-/
import ApiSurface.Proofs.Rewriting
import ApiSurface.Proofs.RootName

namespace ApiSurface

open Text

/-! ### End marks in open names -/

namespace Name

/-- Arguments that are filled in stand in angle brackets. -/
theorem open_mem_fill {args : List (List Char)} {used : Nat} {pieces : List Piece}
    {filled : Filled} (h : fill args used pieces = .ok filled) :
    filled.used = used ∨ '<' ∈ filled.text := by
  induction pieces generalizing used filled with
  | nil =>
      obtain rfl := Except.ok.inj h
      exact Or.inl rfl
  | cons piece rest ih =>
      cases piece with
      | plain c =>
          rw [fill] at h
          cases hrest : fill args used rest with
          | error shortage =>
              rw [hrest] at h
              exact absurd h (by simp [Except.map])
          | ok more =>
              rw [hrest] at h
              obtain rfl := Except.ok.inj h
              exact (ih hrest).imp_right (List.mem_cons_of_mem c)
      | placeholder digits =>
          rw [fill] at h
          cases hgrant : grant args.length used digits with
          | error shortage =>
              rw [hgrant] at h
              exact absurd h (by simp)
          | ok count =>
              simp only [hgrant] at h
              cases hrest : fill args (used + count) rest with
              | error shortage =>
                  rw [hrest] at h
                  exact absurd h (by simp [Except.map])
              | ok more =>
                  rw [hrest] at h
                  obtain rfl := Except.ok.inj h
                  exact Or.inr (by simp [bracket])

/-- Localizing a name with an argument list leaves it with one. -/
theorem open_mem_localizeOwn {name text : List Char} (h : localizeOwn name = .ok text)
    (hopen : '<' ∈ name) : '<' ∈ text := by
  rw [localizeOwn_eq] at h
  split at h
  · obtain rfl := Except.ok.inj h
    exact hopen
  · exact absurd h (by simp)
  · split at h
    · exact absurd h (by simp)
    · split at h
      · exact absurd h (by simp)
      · rename_i args hargs filled hfill
        obtain rfl := Except.ok.inj h
        rw [List.append_assoc, List.mem_append, List.mem_append]
        rcases open_mem_fill hfill with hnone | hopen
        · -- No argument was taken, so the list follows behind the name.
          refine Or.inr (Or.inl ?_)
          rw [if_pos hnone]
          exact List.mem_cons_self
        · exact Or.inl hopen

theorem endMark_mem_localizedOr {raw : String} (h : ∃ c ∈ endMarks, c ∈ raw.toList) :
    ∃ c ∈ endMarks, c ∈ (localizedOr raw []).toList := by
  rw [localizedOr_nil]
  cases hown : localizeOwn raw.toList with
  | error fault => exact h
  | ok text =>
      by_cases hopen : '<' ∈ raw.toList
      · refine ⟨'<', by decide, ?_⟩
        simp only [String.toList_ofList]
        exact open_mem_localizeOwn hown hopen
      · rw [localizeOwn_of_absent hopen] at hown
        obtain rfl := Except.ok.inj hown
        simpa only [String.ofList_toList] using h

end Name

theorem Separates.mem {f : List Char → List Char} {c : Char} (h : Separates f c)
    {text : List Char} (hc : c ∈ text) : c ∈ f text := by
  obtain ⟨before, after, rfl⟩ := List.append_of_mem hc
  rw [h]
  exact List.mem_append_right _ List.mem_cons_self

namespace Signature

open Name

/-- A reference with a bracket or a mark in its raw name has one in its open name. -/
theorem endMark_mem_shownFullName {sig : Signature}
    (h : ∃ c ∈ endMarks, c ∈ sig.stripByRef.rawName.toList) :
    ∃ c ∈ endMarks, c ∈ sig.shownFullName.toList := by
  obtain ⟨c, hc, hlocalized⟩ := endMark_mem_localizedOr h
  have hall : ∀ c ∈ endMarks, isMark c = false ∧ isDecimalDigit c = false ∧ c ≠ '/' :=
    forall_mem_of_all (by decide)
  obtain ⟨hmark, hdigit, hslash⟩ := hall c hc
  refine ⟨c, hc, mem_swap_of_mem hslash ?_⟩
  rw [localizedName, stripArity, String.toList_ofList]
  exact (stripPlaceholders_separates hmark hdigit).mem hlocalized

/-- What arguments are written into is a parameter, or something is written around its root. -/
theorem isParameter_or_endMark {args : List Signature} {sig : Signature}
    (h : (sig.substitute args).2 = true) :
    (∃ owner index name, sig = .parameter owner index name)
      ∨ sig.isParameter = false ∧ ∃ c ∈ endMarks, c ∈ sig.rawName.toList := by
  cases sig with
  | primitive kind => exact absurd h (by simp [substitute])
  | named name => exact absurd h (by simp [substitute])
  | instantiation base inner =>
      refine Or.inr ⟨rfl, '<', by decide, ?_⟩
      rw [toList_rawName_instantiation]
      simp
  | array element rank =>
      refine Or.inr ⟨rfl, '[', by decide, ?_⟩
      rw [toList_rawName_array]
      simp
  | byRef element =>
      refine Or.inr ⟨rfl, '&', by decide, ?_⟩
      rw [toList_rawName_byRef]
      simp
  | pointer element =>
      refine Or.inr ⟨rfl, '*', by decide, ?_⟩
      rw [toList_rawName_pointer]
      simp
  | parameter owner index name => exact Or.inl ⟨owner, index, name, rfl⟩

end Signature

/-! ### Bound references -/

namespace ShownType

theorem mangledName_ne_openName {sig : Signature}
    (h : ∃ c ∈ Name.endMarks, c ∈ sig.stripByRef.rawName.toList) :
    (of sig).mangledName ≠ (of sig).openName := by
  intro hsame
  obtain ⟨c, hc, hmem⟩ := Signature.endMark_mem_shownFullName h
  have hmangled : c ∈ (of sig).mangledName.toList := by rwa [hsame]
  exact Name.notMem_mangled _ hc hmangled

/-- No pass finds anything to do in the name of a parameter. -/
theorem mangledName_eq_openName {sig : Signature} {owner : ParameterOwner} {index : Nat}
    {name : String} (hsig : sig.stripByRef = .parameter owner index name)
    (hname : IsIdentifier name) : (of sig).mangledName = (of sig).openName := by
  have hends : ∀ c ∈ (Signature.parameter owner index name).rootName.toList,
      c ∉ Name.endMarks := by
    intro c hc hmark
    have hall : ∀ c ∈ Name.endMarks, Name.isWordChar c = false := forall_mem_of_all (by decide)
    exact absurd (hname.chars c hc) (by simp [hall c hmark])
  have hopen : '<' ∉ name.toList := hname.notMem (by decide)
  have hlocalized : Name.localizedOr name [] = name := by
    rw [localizedOr_nil, localizeOwn_of_absent hopen]
    exact String.ofList_toList
  have hstripped : Name.stripArity name = name := by
    rw [Name.stripArity, stripPlaceholders_of_notMem (hname.notMem (by decide)),
      String.ofList_toList]
  calc (of sig).mangledName
      = Name.mangled sig.stripByRef.rawName := rfl
    _ = swap '/' '.' name := by
        rw [hsig]
        exact Signature.mangled_rawName hends
    _ = sig.shownFullName := by
        rw [Signature.shownFullName, Signature.localizedName, hsig]
        show _ = swap '/' '.' (Name.stripArity (Name.localizedOr name []))
        rw [hlocalized, hstripped]

/-- **The comparison of names finds the parameters**, bound or not. -/
theorem through_isParameter {sig : Signature}
    (hname : ∀ owner index name, sig.stripByRef = .parameter owner index name → IsIdentifier name)
    (binding : Binding) : (through binding sig).isParameter = sig.stripByRef.isParameter := by
  unfold through bind
  split
  · rfl
  · rename_i rewritten htracked
    have hchanged : (sig.stripByRef.substitute binding.args).2 = true := by
      rw [of_signature, Binding.applyTracked] at htracked
      split at htracked
      · exact absurd (congrArg Prod.snd htracked) (by simp)
      · rw [htracked]
    dsimp only
    rcases Signature.isParameter_or_endMark hchanged with ⟨owner, index, name, hsig⟩ | ⟨hplain, hmark⟩
    · rw [decide_eq_true (mangledName_eq_openName hsig (hname owner index name hsig)), hsig]
      rfl
    · rw [decide_eq_false (mangledName_ne_openName hmark), hplain]

end ShownType

end ApiSurface
