/-
The segments of a name as identifiers write them.

A segment is a plain name, alone or with its arity behind a mark.  A segment that
takes arguments drops its arity and has the arguments in braces behind it; the
arity is then the number of arguments, so nothing is lost.  `Segment.Fits.text_inj`
says so: the text of a segment tells its name and its arguments.

References are texts with commas and brackets in them.  `IsReference` is what the
braces need to know about such a text to keep it apart from its neighbours.
-/
import ApiSurface.Decimal.Integer
import ApiSurface.Proofs.Enclosed
import ApiSurface.TypeName
import Mathlib.Data.List.Basic

namespace ApiSurface

open Text

/-! ### Segments -/

/-- The characters that identifiers keep for themselves. -/
def punctuation : List Char := ".`\x7b\x7d[](),@*:~/".toList

/-- A name without arity: not empty, and free of punctuation. -/
structure IsPlain (text : String) : Prop where
  nonempty : text ≠ ""
  chars : ∀ c ∈ text.toList, c ∉ punctuation

/-- A segment of a name: a plain name, alone or with its arity in decimal behind the mark. -/
inductive IsSegment : String → Prop
  | bare {plain : String} (h : IsPlain plain) : IsSegment plain
  | marked {plain : String} (h : IsPlain plain) (arity : Nat) :
      IsSegment (plain ++ "`" ++ naturalText arity)

theorem mem_naturalText {n : Nat} {c : Char} (h : c ∈ (naturalText n).toList) :
    c ∉ punctuation := by
  rw [naturalText, String.toList_ofList] at h
  have hdigit : c.isDigit = true := Nat.isDigit_of_mem_toDigits (by decide) (by decide) h
  have hnone : ∀ p ∈ punctuation, p.isDigit = false := forall_mem_of_all (by decide)
  intro hmem
  rw [hnone c hmem] at hdigit
  exact absurd hdigit (by decide)

theorem naturalText_ne_empty (n : Nat) : naturalText n ≠ "" := by
  intro h
  have hlist := congrArg String.toList h
  rw [naturalText, String.toList_ofList] at hlist
  exact Nat.toDigits_ne_nil hlist

theorem toList_marked (plain : String) (arity : Nat) :
    (plain ++ "`" ++ naturalText arity).toList
      = plain.toList ++ arityMark :: (naturalText arity).toList := by
  rw [String.toList_append, String.toList_append, List.append_assoc]
  rfl

/-- The mark is all the punctuation that a segment can have. -/
theorem IsSegment.notMem {segment : String} (h : IsSegment segment) {c : Char}
    (hc : c ∈ punctuation) (hmark : c ≠ arityMark) : c ∉ segment.toList := by
  intro hmem
  cases h with
  | bare h => exact h.chars c hmem hc
  | marked h arity =>
      rw [toList_marked, List.mem_append, List.mem_cons] at hmem
      rcases hmem with hplain | hmark' | hdigits
      · exact h.chars c hplain hc
      · exact hmark hmark'
      · exact mem_naturalText hdigits hc

theorem IsSegment.ne_empty {segment : String} (h : IsSegment segment) : segment ≠ "" := by
  cases h with
  | bare h => exact h.nonempty
  | marked h arity =>
      intro hempty
      exact naturalText_ne_empty arity (String.append_eq_empty_iff.mp hempty).2

theorem weight_eq_zero {c : Char} (h : c ∉ ['\x7b', '[', '\x7d', ']']) : weight c = 0 := by
  simp only [List.mem_cons, List.not_mem_nil, or_false, not_or] at h
  obtain ⟨h1, h2, h3, h4⟩ := h
  rw [weight, if_neg (by rintro (rfl | rfl) <;> contradiction),
    if_neg (by rintro (rfl | rfl) <;> contradiction)]

/-- A segment shows no separator at all. -/
theorem IsSegment.enclosed {segment : String} (h : IsSegment segment) {seps : List Char}
    (hseps : ∀ sep ∈ seps, sep ∈ punctuation ∧ sep ≠ arityMark) :
    Enclosed seps segment.toList := by
  refine .of_plain fun c hc => ⟨?_, ?_⟩
  · refine weight_eq_zero fun hbracket => ?_
    have hkept : ∀ b ∈ ['\x7b', '[', '\x7d', ']'], b ∈ punctuation ∧ b ≠ arityMark :=
      forall_mem_of_all (by decide)
    exact h.notMem (hkept c hbracket).1 (hkept c hbracket).2 hc
  · intro hsep
    exact h.notMem (hseps c hsep).1 (hseps c hsep).2 hc

/-- The text begins like a name and not like a parameter, and does not end like an array or a
pointer. -/
structure IsNamed (text : String) : Prop where
  head : text.toList.head? ≠ some arityMark
  last : text.toList.getLast? ≠ some ']' ∧ text.toList.getLast? ≠ some '*'
  nonempty : text ≠ ""

theorem IsNamed.toList_ne_nil {text : String} (h : IsNamed text) : text.toList ≠ [] :=
  fun hnil => h.nonempty (String.toList_eq_nil_iff.mp hnil)

theorem IsSegment.named {segment : String} (h : IsSegment segment) : IsNamed segment := by
  refine ⟨?_, ⟨?_, ?_⟩, h.ne_empty⟩
  · have hplain : ∀ {plain : String}, IsPlain plain → plain.toList.head? ≠ some arityMark :=
      fun hplain hhead => hplain.chars _ (List.mem_of_head? hhead) (by decide)
    cases h with
    | bare h => exact hplain h
    | marked h arity =>
        rw [toList_marked, List.head?_append_of_ne_nil]
        · exact hplain h
        · exact fun hnil => h.nonempty (String.toList_eq_nil_iff.mp hnil)
  · exact fun hlast => h.notMem (by decide) (by decide) (List.mem_of_getLast? hlast)
  · exact fun hlast => h.notMem (by decide) (by decide) (List.mem_of_getLast? hlast)

/-! ### The arity of a segment -/

theorem digitsValue_of_isDigit {digits : List Char} (h : ∀ c ∈ digits, c.isDigit = true)
    (acc : Nat) : digitsValue acc digits = some (Nat.ofDigitChars 10 digits acc) := by
  induction digits generalizing acc with
  | nil => rfl
  | cons c rest ih =>
      rw [digitsValue, if_pos (h c List.mem_cons_self), Nat.ofDigitChars_cons, Nat.mul_comm acc]
      exact ih (fun d hd => h d (List.mem_cons_of_mem c hd)) _

/-- A number that is written in decimal is read back, unless it is no size. -/
theorem readSize_naturalText (n : Nat) :
    readSize (naturalText n).toList = if n < sizeLimit then some n else none := by
  rw [naturalText, String.toList_ofList]
  have hdigits : ∀ c ∈ Nat.toDigits 10 n, c.isDigit = true :=
    fun c hc => Nat.isDigit_of_mem_toDigits (by decide) (by decide) hc
  have hread : readDigits (Nat.toDigits 10 n) = if n < sizeLimit then some n else none := by
    rw [readDigits, if_neg (by simp [Nat.toDigits_ne_nil]), digitsValue_of_isDigit hdigits,
      Nat.ofDigitChars_ten_toDigits, Option.filter_some]
    simp only [decide_eq_true_eq]
  unfold readSize
  split
  · rename_i rest heq
    have hplus := hdigits '+' (by rw [heq]; exact List.mem_cons_self)
    exact absurd hplus (by decide)
  · exact hread

theorem cutLast_marked (plain : String) (arity : Nat) :
    cutLast arityMark (plain ++ "`" ++ naturalText arity).toList
      = some (plain.toList, (naturalText arity).toList) := by
  rw [toList_marked]
  exact cutLast_append (fun hmem => mem_naturalText hmem (by decide)) plain.toList

/-- A segment that takes arguments is its plain name with the number of arguments behind it. -/
theorem IsSegment.eq_marked {name : TypeName} (h : IsSegment name.name)
    (harity : name.ownArity ≠ 0) :
    IsPlain name.plainName
      ∧ name.name = name.plainName ++ "`" ++ naturalText name.ownArity := by
  unfold TypeName.ownArity TypeName.plainName at *
  generalize name.name = segment at *
  cases h with
  | bare h =>
      have hnone : cutLast arityMark segment.toList = none :=
        cutLast_eq_none_iff.mpr fun hmem => h.chars _ hmem (by decide)
      rw [hnone] at harity
      exact absurd rfl harity
  | marked h arity =>
      rename_i plain
      rw [cutLast_marked] at harity ⊢
      simp only [readSize_naturalText] at harity ⊢
      rw [String.ofList_toList]
      split at harity
      · rename_i hsize
        rw [if_pos hsize, Option.getD_some]
        exact ⟨h, rfl⟩
      · exact absurd rfl harity

/-! ### Written segments -/

/-- What the text of every reference is like, so that it can stand in a list. -/
structure IsReference (text : String) : Prop where
  nonempty : text ≠ ""
  enclosed : Enclosed [','] text.toList
  free : ∀ c ∈ text.toList, c ∉ [')', '@']

/-- A segment with the texts of the arguments that it takes itself. -/
@[ext]
structure Segment where
  name : String
  args : List String

namespace Segment

/-- The name of the segment on its own. -/
def typeName (s : Segment) : TypeName := .top "" s.name none

/-- The segment as a path writes it. -/
def text (s : Segment) : String :=
  if s.args.isEmpty then s.name
  else s.typeName.plainName ++ "\x7b" ++ join "," s.args ++ "\x7d"

/-- The segment has as many arguments as its arity says, or none at all. -/
structure Fits (s : Segment) : Prop where
  name : IsSegment s.name
  count : s.args ≠ [] → s.args.length = s.typeName.ownArity
  args : ∀ arg ∈ s.args, IsReference arg

variable {s t : Segment}

theorem text_of_bare (h : s.args = []) : s.text = s.name := by
  rw [text, h]
  rfl

theorem Fits.plain (h : s.Fits) (hargs : s.args ≠ []) :
    IsPlain s.typeName.plainName
      ∧ s.name = s.typeName.plainName ++ "`" ++ naturalText s.args.length := by
  have hcount := h.count hargs
  have harity : s.typeName.ownArity ≠ 0 := by
    rw [← hcount]
    exact fun hzero => hargs (List.eq_nil_of_length_eq_zero hzero)
  have hsegment : IsSegment s.typeName.name := h.name
  obtain ⟨hplain, hname⟩ := hsegment.eq_marked harity
  rw [hcount]
  exact ⟨hplain, hname⟩

theorem toList_text (hargs : s.args ≠ []) :
    s.text.toList
      = s.typeName.plainName.toList ++ '\x7b' :: ((join "," s.args).toList ++ ['\x7d']) := by
  rw [text, if_neg (by simpa using hargs), String.toList_append, String.toList_append,
    String.toList_append, List.append_assoc, List.append_assoc]
  rfl

/-- The text of a segment tells its name and its arguments. -/
theorem Fits.text_inj (hs : s.Fits) (ht : t.Fits) (heq : s.text = t.text) : s = t := by
  have hbrace : ∀ {a b : Segment}, a.Fits → a.args = [] → b.args ≠ [] → a.text ≠ b.text := by
    intro a b ha hbare hfull hab
    have hmem : '\x7b' ∈ a.text.toList := by
      rw [hab, toList_text hfull]
      exact List.mem_append_right _ List.mem_cons_self
    rw [text_of_bare hbare] at hmem
    exact ha.name.notMem (by decide) (by decide) hmem
  by_cases hsargs : s.args = []
  · by_cases htargs : t.args = []
    · rw [text_of_bare hsargs, text_of_bare htargs] at heq
      exact Segment.ext heq (hsargs.trans htargs.symm)
    · exact absurd heq (hbrace hs hsargs htargs)
  · by_cases htargs : t.args = []
    · exact absurd heq.symm (hbrace ht htargs hsargs)
    · obtain ⟨hsplain, hsname⟩ := hs.plain hsargs
      obtain ⟨htplain, htname⟩ := ht.plain htargs
      have hlist := congrArg String.toList heq
      rw [toList_text hsargs, toList_text htargs] at hlist
      obtain ⟨hplain, hinner⟩ := first_inj (fun hmem => hsplain.chars _ hmem (by decide))
        (fun hmem => htplain.chars _ hmem (by decide)) hlist
      have hargs : s.args = t.args := by
        refine join_inj (List.mem_singleton.mpr rfl) rfl (fun arg harg => ?_) (fun arg harg => ?_)
          (String.toList_inj.mp (List.append_cancel_right hinner))
        · exact ⟨(hs.args arg harg).enclosed, (hs.args arg harg).nonempty⟩
        · exact ⟨(ht.args arg harg).enclosed, (ht.args arg harg).nonempty⟩
      refine Segment.ext ?_ hargs
      rw [hsname, htname, String.toList_inj.mp hplain, hargs]

theorem Fits.enclosed (h : s.Fits) : Enclosed ['.', ','] s.text.toList := by
  by_cases hargs : s.args = []
  · rw [text_of_bare hargs]
    exact h.name.enclosed (forall_mem_of_all (by decide))
  · have hinner : Enclosed [] (join "," s.args).toList :=
      enclosed_join (.of_plain (forall_mem_of_all (by decide))) fun arg harg =>
        (h.args arg harg).enclosed.mono (by simp)
    rw [toList_text hargs]
    exact ((IsSegment.bare (h.plain hargs).1).enclosed (forall_mem_of_all (by decide))).append
      (hinner.wrap (by decide) (by decide) (forall_mem_of_all (by decide)))

theorem Fits.free (h : s.Fits) : ∀ c ∈ s.text.toList, c ∉ [')', '@'] := by
  intro c hc hreserved
  have hkept : ∀ r ∈ [')', '@'], r ∈ punctuation ∧ r ≠ arityMark ∧ r ∉ ['\x7b', '\x7d', ','] :=
    forall_mem_of_all (by decide)
  obtain ⟨hpunct, hmark, hother⟩ := hkept c hreserved
  by_cases hargs : s.args = []
  · rw [text_of_bare hargs] at hc
    exact h.name.notMem hpunct hmark hc
  · rw [toList_text hargs, List.mem_append, List.mem_cons, List.mem_append,
      List.mem_singleton] at hc
    rcases hc with hplain | rfl | hinner | rfl
    · exact (h.plain hargs).1.chars c hplain hpunct
    · exact hother (by decide)
    · rcases mem_toList_join hinner with hcomma | ⟨arg, harg, hmem⟩
      · exact hother (by rw [List.mem_singleton.mp hcomma]; decide)
      · exact (h.args arg harg).free c hmem hreserved
    · exact hother (by decide)

theorem Fits.named (h : s.Fits) : IsNamed s.text := by
  by_cases hargs : s.args = []
  · rw [text_of_bare hargs]
    exact h.name.named
  · have hplain := (IsSegment.bare (h.plain hargs).1).named
    refine ⟨?_, ?_, ?_⟩
    · rw [toList_text hargs, List.head?_append_of_ne_nil _ hplain.toList_ne_nil]
      exact hplain.head
    · rw [toList_text hargs, List.getLast?_append_of_ne_nil _ (List.cons_ne_nil _ _),
        ← List.cons_append, List.getLast?_concat]
      decide
    · intro hempty
      rw [← String.toList_eq_nil_iff, toList_text hargs, List.append_eq_nil_iff] at hempty
      exact hplain.toList_ne_nil hempty.1

end Segment

end ApiSurface
