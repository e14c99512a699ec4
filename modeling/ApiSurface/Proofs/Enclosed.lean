/-
Taking joined text apart again.

A reference to a type is one flat text, and the commas and dots in it play the same
part at every depth of nesting.  What tells them apart is the brackets around
them: `Text.Enclosed` says of a text that its brackets match and that certain
separators stand only inside of them.  Pieces of such text can be joined by one of
these separators and cut apart in one way only, because a second way would show
the separator outside all brackets of a piece.

Depth is counted as an integer sum, so that it adds up over appended text and no
scan has to be followed.
-/
import ApiSurface.Text.Basic

namespace ApiSurface.Text

/-- What is checked of every character of a text holds of its characters.  The check goes through
the text and not through all characters there are. -/
theorem forall_mem_of_all {p : Char → Prop} [DecidablePred p] {text : List Char}
    (h : (text.all fun c => decide (p c)) = true) : ∀ c ∈ text, p c :=
  fun c hc => of_decide_eq_true (List.all_eq_true.mp h c hc)

/-! ### Cuts at a known place -/

theorem cutFirst_append {c : Char} {before : List Char} (h : c ∉ before) (after : List Char) :
    cutFirst c (before ++ c :: after) = some (before, after) := by
  induction before with
  | nil => rw [List.nil_append, cutFirst, if_pos rfl]
  | cons d rest ih =>
      have hd : d ≠ c := fun heq => h (by rw [heq]; exact List.mem_cons_self)
      have hrest : c ∉ rest := fun hmem => h (List.mem_cons_of_mem d hmem)
      rw [List.cons_append, cutFirst, if_neg hd, ih hrest]
      rfl

/-- What stands before the first `c` of a text, or the whole text if there is none. -/
theorem before_first {c : Char} {before rest : List Char} (h : c ∉ before)
    (hrest : ∀ d ∈ rest.head?, d = c) :
    ((cutFirst c (before ++ rest)).map Prod.fst).getD (before ++ rest) = before := by
  cases rest with
  | nil => rw [List.append_nil, cutFirst_eq_none_iff.mpr h]; rfl
  | cons d rest =>
      obtain rfl : d = c := hrest d rfl
      rw [cutFirst_append h]
      rfl

theorem cutLast_append {c : Char} {after : List Char} (h : c ∉ after) (before : List Char) :
    cutLast c (before ++ c :: after) = some (before, after) := by
  induction before with
  | nil => rw [List.nil_append, cutLast, cutLast_eq_none_iff.mpr h, if_pos rfl]
  | cons d rest ih => rw [List.cons_append, cutLast, ih]

/-- Two texts that agree up to and after their first `c` have the same parts. -/
theorem first_inj {c : Char} {before before' after after' : List Char} (h : c ∉ before)
    (h' : c ∉ before') (heq : before ++ c :: after = before' ++ c :: after') :
    before = before' ∧ after = after' := by
  have hcut := cutFirst_append h after
  rw [heq, cutFirst_append h' after'] at hcut
  obtain ⟨rfl, rfl⟩ := Prod.mk.inj (Option.some.inj hcut)
  exact ⟨rfl, rfl⟩

/-- Two texts that agree up to and after their last `c` have the same parts. -/
theorem last_inj {c : Char} {before before' after after' : List Char} (h : c ∉ after)
    (h' : c ∉ after') (heq : before ++ c :: after = before' ++ c :: after') :
    before = before' ∧ after = after' := by
  have hcut := cutLast_append h before
  rw [heq, cutLast_append h' before'] at hcut
  obtain ⟨rfl, rfl⟩ := Prod.mk.inj (Option.some.inj hcut)
  exact ⟨rfl, rfl⟩

/-! ### Depth -/

/-- What a character adds to the depth of nesting. -/
def weight (c : Char) : Int :=
  if c = '\x7b' ∨ c = '[' then 1 else if c = '\x7d' ∨ c = ']' then -1 else 0

/-- How many more brackets a text opens than it closes. -/
def depth : List Char → Int
  | [] => 0
  | c :: rest => weight c + depth rest

@[simp] theorem depth_nil : depth [] = 0 := rfl

@[simp] theorem depth_cons (c : Char) (rest : List Char) :
    depth (c :: rest) = weight c + depth rest := rfl

@[simp] theorem depth_append (a b : List Char) : depth (a ++ b) = depth a + depth b := by
  induction a with
  | nil => simp
  | cons c rest ih =>
      rw [List.cons_append, depth_cons, depth_cons, ih]
      omega

/-- A text without brackets has no depth. -/
theorem depth_eq_zero {text : List Char} (h : ∀ c ∈ text, weight c = 0) : depth text = 0 := by
  induction text with
  | nil => rfl
  | cons c rest ih =>
      rw [depth_cons, h c List.mem_cons_self, ih fun d hd => h d (List.mem_cons_of_mem c hd)]
      rfl

/-- The brackets of the text match, and the separators stand only inside of them. -/
structure Enclosed (seps : List Char) (text : List Char) : Prop where
  total : depth text = 0
  nonneg : ∀ {before after : List Char}, text = before ++ after → 0 ≤ depth before
  inside : ∀ {sep : Char} {before after : List Char}, sep ∈ seps →
    text = before ++ sep :: after → 0 < depth before

namespace Enclosed

variable {seps : List Char}

theorem mono {seps' : List Char} {text : List Char} (h : Enclosed seps text)
    (hsub : ∀ sep ∈ seps', sep ∈ seps) : Enclosed seps' text :=
  ⟨h.total, h.nonneg, fun hsep heq => h.inside (hsub _ hsep) heq⟩

/-- A text with neither brackets nor separators. -/
theorem of_plain {text : List Char} (h : ∀ c ∈ text, weight c = 0 ∧ c ∉ seps) :
    Enclosed seps text := by
  refine ⟨depth_eq_zero fun c hc => (h c hc).1, ?_, ?_⟩
  · intro before after heq
    have hzero : depth before = 0 :=
      depth_eq_zero fun c hc => (h c (by rw [heq]; exact List.mem_append_left _ hc)).1
    omega
  · intro sep before after hsep heq
    have hmem : sep ∈ text := by
      rw [heq]
      exact List.mem_append_right _ List.mem_cons_self
    exact absurd hsep (h sep hmem).2

theorem append {a b : List Char} (ha : Enclosed seps a) (hb : Enclosed seps b) :
    Enclosed seps (a ++ b) := by
  refine ⟨by rw [depth_append, ha.total, hb.total]; rfl, ?_, ?_⟩
  · intro before after heq
    rcases List.append_eq_append_iff.mp heq with ⟨more, rfl, hmore⟩ | ⟨more, hmore, rfl⟩
    · have := hb.nonneg hmore
      rw [depth_append, ha.total]
      omega
    · exact ha.nonneg hmore
  · intro sep before after hsep heq
    rcases List.append_eq_append_iff.mp heq with ⟨more, rfl, hmore⟩ | ⟨more, hmore, hafter⟩
    · have := hb.inside hsep hmore
      rw [depth_append, ha.total]
      omega
    · cases more with
      | nil =>
          -- The separator would begin `b`, outside of all its brackets.
          have : 0 < depth [] := hb.inside hsep hafter.symm
          exact absurd this (Int.lt_irrefl 0)
      | cons d more =>
          rw [List.cons_append] at hafter
          obtain ⟨rfl, -⟩ := List.cons.inj hafter
          exact ha.inside hsep hmore

/-- Brackets around a text whose own brackets match enclose every separator. -/
theorem wrap {opening closing : Char} {inner : List Char} (hinner : Enclosed [] inner)
    (hopening : weight opening = 1) (hclosing : weight closing = -1)
    (hseps : ∀ sep ∈ seps, weight sep = 0) :
    Enclosed seps (opening :: (inner ++ [closing])) := by
  have hbefore : ∀ {before after : List Char}, inner ++ [closing] = before ++ after →
      0 ≤ depth before ∨ (after = [] ∧ depth before = -1) := by
    intro before after heq
    rcases List.append_eq_append_iff.mp heq with ⟨more, rfl, hmore⟩ | ⟨more, hmore, -⟩
    · cases more with
      | nil =>
          have hzero := hinner.total
          rw [List.append_nil]
          omega
      | cons d rest =>
          rw [List.cons_append] at hmore
          obtain ⟨rfl, hrest⟩ := List.cons.inj hmore
          obtain ⟨rfl, rfl⟩ := List.append_eq_nil_iff.mp hrest.symm
          exact Or.inr ⟨rfl, by simp [hinner.total, hclosing]⟩
    · exact Or.inl (hinner.nonneg hmore)
  refine ⟨by simp [hinner.total, hopening, hclosing], ?_, ?_⟩
  · intro before after heq
    cases before with
    | nil => exact Int.le_refl 0
    | cons d rest =>
        obtain ⟨rfl, hrest⟩ := List.cons.inj heq
        rw [depth_cons, hopening]
        rcases hbefore hrest with hge | ⟨-, hneg⟩ <;> omega
  · intro sep before after hsep heq
    cases before with
    | nil =>
        obtain ⟨rfl, -⟩ := List.cons.inj heq
        rw [hseps _ hsep] at hopening
        exact absurd hopening (by decide)
    | cons d rest =>
        obtain ⟨rfl, hrest⟩ := List.cons.inj heq
        rw [depth_cons, hopening]
        rcases hbefore hrest with hge | ⟨hnil, -⟩
        · omega
        · exact absurd hnil (List.cons_ne_nil _ _)

/-- A separator cannot follow a text of depth zero inside an enclosed one. -/
theorem eq_nil_of_append {sep : Char} (hsep : sep ∈ seps) {a more rest tail : List Char}
    (h : Enclosed seps (a ++ more)) (ha : depth a = 0) (heq : sep :: rest = more ++ tail) :
    more = [] := by
  cases more with
  | nil => rfl
  | cons d more =>
      obtain ⟨rfl, -⟩ := List.cons.inj heq
      have := h.inside hsep rfl
      omega

/-- Two enclosed texts with the same separator after them are cut off at the same place. -/
theorem cut {sep : Char} (hsep : sep ∈ seps) {p q r r' : List Char} (hp : Enclosed seps p)
    (hq : Enclosed seps q) (heq : p ++ sep :: r = q ++ sep :: r') : p = q ∧ r = r' := by
  rcases List.append_eq_append_iff.mp heq with ⟨more, rfl, hrest⟩ | ⟨more, rfl, hrest⟩
  · obtain rfl := eq_nil_of_append hsep hq hp.total hrest
    exact ⟨(List.append_nil p).symm, (List.cons.inj hrest).2⟩
  · obtain rfl := eq_nil_of_append hsep hp hq.total hrest
    exact ⟨List.append_nil q, (List.cons.inj hrest).2.symm⟩

/-- An enclosed text is not one up to a separator and more. -/
theorem ne_append {sep : Char} (hsep : sep ∈ seps) {p q r : List Char} (hp : Enclosed seps p)
    (hq : Enclosed seps q) : p ≠ q ++ sep :: r := by
  intro heq
  have := hp.inside hsep heq
  rw [hq.total] at this
  exact absurd this (Int.lt_irrefl 0)

end Enclosed

/-! ### Joined text -/

theorem toList_join_cons (sep part next : String) (rest : List String) :
    (join sep (part :: next :: rest)).toList
      = part.toList ++ (sep.toList ++ (join sep (next :: rest)).toList) := by
  rw [join, String.toList_append, String.toList_append, List.append_assoc]
  exact List.cons_ne_nil next rest

theorem mem_toList_join {sep : String} {c : Char} {parts : List String}
    (h : c ∈ (join sep parts).toList) : c ∈ sep.toList ∨ ∃ part ∈ parts, c ∈ part.toList := by
  induction parts with
  | nil => exact absurd h (by simp [join])
  | cons part rest ih =>
      cases rest with
      | nil => exact Or.inr ⟨part, List.mem_cons_self, h⟩
      | cons next rest =>
          rw [toList_join_cons, List.mem_append, List.mem_append] at h
          rcases h with hpart | hsep | hrest
          · exact Or.inr ⟨part, List.mem_cons_self, hpart⟩
          · exact Or.inl hsep
          · rcases ih hrest with hsep | ⟨other, hother, hc⟩
            · exact Or.inl hsep
            · exact Or.inr ⟨other, List.mem_cons_of_mem part hother, hc⟩

theorem enclosed_join {seps : List Char} {sep : String} (hsep : Enclosed seps sep.toList)
    {parts : List String} (h : ∀ part ∈ parts, Enclosed seps part.toList) :
    Enclosed seps (join sep parts).toList := by
  induction parts with
  | nil => exact .of_plain (by simp [join])
  | cons part rest ih =>
      have hrest := ih fun other hother => h other (List.mem_cons_of_mem part hother)
      cases rest with
      | nil => exact h part List.mem_cons_self
      | cons next rest =>
          rw [toList_join_cons]
          exact (h part List.mem_cons_self).append (hsep.append hrest)

theorem join_append {sep : String} {as bs : List String} (has : as ≠ []) (hbs : bs ≠ []) :
    join sep (as ++ bs) = join sep as ++ sep ++ join sep bs := by
  induction as with
  | nil => exact absurd rfl has
  | cons a as ih =>
      cases as with
      | nil =>
          cases bs with
          | nil => exact absurd rfl hbs
          | cons b bs => rfl
      | cons a' as =>
          show a ++ sep ++ join sep (a' :: as ++ bs)
            = a ++ sep ++ join sep (a' :: as) ++ sep ++ join sep bs
          rw [ih (List.cons_ne_nil a' as)]
          simp only [String.append_assoc]

theorem join_ne_empty {sep : String} {parts : List String} (hne : parts ≠ [])
    (h : ∀ part ∈ parts, part ≠ "") : join sep parts ≠ "" := by
  cases parts with
  | nil => exact absurd rfl hne
  | cons part rest =>
      have hpart : part ≠ "" := h part List.mem_cons_self
      cases rest with
      | nil => exact hpart
      | cons next rest =>
          intro hempty
          rw [← String.toList_eq_nil_iff, toList_join_cons, List.append_eq_nil_iff] at hempty
          exact hpart (String.toList_eq_nil_iff.mp hempty.1)

/-- **Enclosed pieces can be told apart after they were joined**, if none of them is empty. -/
theorem join_inj {seps : List Char} {c : Char} (hc : c ∈ seps) {sep : String}
    (hsep : sep.toList = [c]) {ps qs : List String}
    (hps : ∀ p ∈ ps, Enclosed seps p.toList ∧ p ≠ "")
    (hqs : ∀ q ∈ qs, Enclosed seps q.toList ∧ q ≠ "") (heq : join sep ps = join sep qs) :
    ps = qs := by
  induction ps generalizing qs with
  | nil =>
      cases qs with
      | nil => rfl
      | cons q qs =>
          exact absurd heq.symm (join_ne_empty (List.cons_ne_nil q qs) fun q' hq' => (hqs q' hq').2)
  | cons p ps ih =>
      obtain ⟨hp, -⟩ := hps p List.mem_cons_self
      cases qs with
      | nil => exact absurd heq (join_ne_empty (List.cons_ne_nil p ps) fun p hp => (hps p hp).2)
      | cons q qs =>
          obtain ⟨hq, -⟩ := hqs q List.mem_cons_self
          have hlist := congrArg String.toList heq
          -- Either both lists end here, or both go on behind a separator.
          cases ps with
          | nil =>
              cases qs with
              | nil => rw [show p = q from heq]
              | cons q' qs =>
                  rw [toList_join_cons, hsep] at hlist
                  exact absurd hlist (hp.ne_append hc hq)
          | cons p' ps =>
              cases qs with
              | nil =>
                  rw [toList_join_cons, hsep] at hlist
                  exact absurd hlist.symm (hq.ne_append hc hp)
              | cons q' qs =>
                  rw [toList_join_cons, toList_join_cons, hsep] at hlist
                  obtain ⟨hpq, htail⟩ := hp.cut hc hq hlist
                  rw [String.toList_inj.mp hpq, ih
                    (fun p'' hp'' => hps p'' (List.mem_cons_of_mem p hp''))
                    (fun q'' hq'' => hqs q'' (List.mem_cons_of_mem q hq''))
                    (String.toList_inj.mp htail)]

end ApiSurface.Text
