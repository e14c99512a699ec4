/-
Counts that have no sum.

The check whether there are enough arguments for a placeholder adds its count to
what the placeholders before it have taken, and the sum may be too large for a
size.  Then the operation ends there, without a name and without an error.

`Name.demand` adds the counts up without a limit, so that the condition can be
said of the name alone: an overflow is a placeholder whose predecessors can all be
filled and whose count is too large to be added to theirs.  That is said of one
text by `Overruns`, and of a name with its argument lists by `OwnOverflow`, because
the arguments of a list are localized in the order they stand in and before the
text in front of the list is filled with them.
-/
import ApiSurface.Proofs.ShownName

namespace ApiSurface.Name

open Text

/-! ### Steps that may fail -/

section Steps

variable {ε α β : Type} {f : α → Except ε β}

theorem map_eq_ok_iff {outcome : Except ε α} {g : α → β} {result : β} :
    outcome.map g = .ok result ↔ ∃ value, outcome = .ok value ∧ g value = result := by
  cases outcome with
  | error fault => simp [Except.map]
  | ok value => simp [Except.map]

theorem map_eq_error_iff {outcome : Except ε α} {g : α → β} {fault : ε} :
    outcome.map g = .error fault ↔ outcome = .error fault := by
  cases outcome with
  | error other => simp [Except.map]
  | ok value => simp [Except.map]

theorem mapM_cons_of_error {item : α} {fault : ε} (h : f item = .error fault) (rest : List α) :
    (item :: rest).mapM f = .error fault := by
  rw [List.mapM_cons, h]
  rfl

/-- The first item that fails decides. -/
theorem mapM_eq_error_iff {items : List α} {fault : ε} :
    items.mapM f = .error fault
      ↔ ∃ earlier item later, items = earlier ++ item :: later
        ∧ (∀ other ∈ earlier, ∃ result, f other = .ok result) ∧ f item = .error fault := by
  induction items with
  | nil => simp [pure, Except.pure]
  | cons item rest ih =>
      cases hitem : f item with
      | error other =>
          rw [mapM_cons_of_error hitem, Except.error.injEq]
          constructor
          · rintro rfl
            exact ⟨[], item, rest, rfl, by simp, hitem⟩
          · rintro ⟨earlier, found, later, hitems, hearlier, hfound⟩
            cases earlier with
            | nil =>
                obtain ⟨rfl, -⟩ := List.cons.inj hitems
                exact Except.error.inj (hitem.symm.trans hfound)
            | cons first earlier =>
                obtain ⟨rfl, -⟩ := List.cons.inj hitems
                obtain ⟨result, hresult⟩ := hearlier _ List.mem_cons_self
                exact absurd (hitem.symm.trans hresult) (by simp)
      | ok first =>
          rw [mapM_cons_of_ok hitem, map_eq_error_iff, ih]
          constructor
          · rintro ⟨earlier, found, later, rfl, hearlier, hfound⟩
            refine ⟨item :: earlier, found, later, rfl, ?_, hfound⟩
            intro other hother
            rcases List.mem_cons.mp hother with rfl | hother
            · exact ⟨first, hitem⟩
            · exact hearlier other hother
          · rintro ⟨earlier, found, later, hitems, hearlier, hfound⟩
            cases earlier with
            | nil =>
                obtain ⟨rfl, -⟩ := List.cons.inj hitems
                exact absurd (hitem.symm.trans hfound) (by simp)
            | cons next earlier =>
                obtain ⟨-, rfl⟩ := List.cons.inj hitems
                exact ⟨earlier, found, later, rfl,
                  fun other hother => hearlier other (List.mem_cons_of_mem next hother), hfound⟩

theorem exists_of_mapM_eq_ok {items : List α} {results : List β} (h : items.mapM f = .ok results) :
    results.length = items.length ∧ ∀ item ∈ items, ∃ result, f item = .ok result := by
  induction items generalizing results with
  | nil =>
      obtain rfl : [] = results := by simpa [pure, Except.pure] using h
      simp
  | cons item rest ih =>
      cases hitem : f item with
      | error fault => simp [mapM_cons_of_error hitem] at h
      | ok first =>
          rw [mapM_cons_of_ok hitem] at h
          obtain ⟨more, hrest, rfl⟩ := map_eq_ok_iff.mp h
          obtain ⟨hlength, hall⟩ := ih hrest
          refine ⟨by simp [hlength], fun other hother => ?_⟩
          rcases List.mem_cons.mp hother with rfl | hother
          · exact ⟨first, hitem⟩
          · exact hall other hother

end Steps

/-! ### One text -/

/-- How many arguments the pieces ask for together, if all their counts are sizes. -/
def demand : List Piece → Option Nat
  | [] => some 0
  | .plain _ :: rest => demand rest
  | .placeholder digits :: rest =>
    (readDigits digits).bind fun count => (demand rest).map fun more => count + more

/-- A placeholder has a count that cannot be added to what the placeholders before it take, for
which there are enough arguments. -/
def Overruns (available : Nat) (pieces : List Piece) : Prop :=
  ∃ before digits after taken count, pieces = before ++ .placeholder digits :: after
    ∧ demand before = some taken ∧ taken ≤ available
    ∧ readDigits digits = some count ∧ sizeLimit ≤ taken + count

theorem demand_placeholder {digits : List Char} {rest : List Piece} {total : Nat} :
    demand (.placeholder digits :: rest) = some total
      ↔ ∃ count more, readDigits digits = some count ∧ demand rest = some more
        ∧ count + more = total := by
  simp [demand, Option.bind_eq_some_iff, Option.map_eq_some_iff]

variable {args : List (List Char)}

theorem fill_placeholder_of_grant {used count : Nat} {digits : List Char}
    (h : grant args.length used digits = .ok count) (rest : List Piece) :
    fill args used (.placeholder digits :: rest)
      = (fill args (used + count) rest).map fun filled =>
          ⟨bracket ((args.drop used).take count) ++ filled.text, filled.used⟩ := by
  rw [fill, h]

/-- What the loop has got over was asked for, and is there. -/
theorem demand_of_fill {used : Nat} {pieces : List Piece} {filled : Filled}
    (hused : used < sizeLimit) (henough : used ≤ args.length)
    (h : fill args used pieces = .ok filled) :
    ∃ total, demand pieces = some total ∧ used + total = filled.used
      ∧ filled.used < sizeLimit ∧ filled.used ≤ args.length := by
  induction pieces generalizing used filled with
  | nil =>
      obtain rfl := Except.ok.inj h
      exact ⟨0, rfl, rfl, hused, henough⟩
  | cons piece rest ih =>
      cases piece with
      | plain c =>
          rw [fill] at h
          obtain ⟨more, hrest, rfl⟩ := map_eq_ok_iff.mp h
          obtain ⟨total, hdemand, hbounds⟩ := ih hused henough hrest
          exact ⟨total, hdemand, hbounds⟩
      | placeholder digits =>
          cases hgrant : grant args.length used digits with
          | error shortage => simp [fill, hgrant] at h
          | ok count =>
              obtain ⟨hread, hsmall, hthere⟩ := grant_eq_ok_iff.mp hgrant
              rw [fill_placeholder_of_grant hgrant] at h
              obtain ⟨more, hrest, rfl⟩ := map_eq_ok_iff.mp h
              obtain ⟨total, hdemand, hsum, hbounds⟩ := ih hsmall hthere hrest
              refine ⟨count + total, ?_, by rw [← Nat.add_assoc, hsum], hbounds⟩
              exact demand_placeholder.mpr ⟨count, total, hread, hdemand, rfl⟩

/-- An overflow is at a placeholder that the loop reaches. -/
theorem exists_of_fill_eq_overflow {used : Nat} {pieces : List Piece}
    (henough : used ≤ args.length) (h : fill args used pieces = .error .overflow) :
    ∃ before digits after taken count, pieces = before ++ .placeholder digits :: after
      ∧ demand before = some taken ∧ used + taken ≤ args.length
      ∧ readDigits digits = some count ∧ sizeLimit ≤ used + taken + count := by
  induction pieces generalizing used with
  | nil => exact absurd h (by simp [fill])
  | cons piece rest ih =>
      cases piece with
      | plain c =>
          obtain ⟨before, digits, after, taken, count, rfl, hdemand, hfound⟩ :=
            ih henough (map_eq_error_iff.mp h)
          exact ⟨.plain c :: before, digits, after, taken, count, rfl, hdemand, hfound⟩
      | placeholder digits =>
          cases hgrant : grant args.length used digits with
          | error shortage =>
              obtain rfl : shortage = .overflow := by simpa [fill, hgrant] using h
              obtain ⟨count, hread, hlarge⟩ := grant_eq_overflow_iff.mp hgrant
              exact ⟨[], digits, rest, 0, count, rfl, rfl, henough, hread, hlarge⟩
          | ok count =>
              obtain ⟨hread, -, hthere⟩ := grant_eq_ok_iff.mp hgrant
              rw [fill_placeholder_of_grant hgrant] at h
              obtain ⟨before, other, after, taken, next, rfl, hdemand, hroom, hnext, hlarge⟩ :=
                ih hthere (map_eq_error_iff.mp h)
              refine ⟨.placeholder digits :: before, other, after, count + taken, next, rfl, ?_, ?_,
                hnext, ?_⟩
              · exact demand_placeholder.mpr ⟨count, taken, hread, hdemand, rfl⟩
              · omega
              · omega

theorem fill_eq_overflow_of_exists {used : Nat} {before after : List Piece} {digits : List Char}
    {taken count : Nat} (hdemand : demand before = some taken)
    (hroom : used + taken ≤ args.length) (hread : readDigits digits = some count)
    (hlarge : sizeLimit ≤ used + taken + count) :
    fill args used (before ++ .placeholder digits :: after) = .error .overflow := by
  induction before generalizing used taken with
  | nil =>
      obtain rfl : 0 = taken := Option.some.inj hdemand
      have hgrant : grant args.length used digits = .error .overflow :=
        grant_eq_overflow_iff.mpr ⟨count, hread, hlarge⟩
      rw [List.nil_append, fill, hgrant]
  | cons piece rest ih =>
      cases piece with
      | plain c => rw [List.cons_append, fill, ih hdemand hroom hlarge, Except.map]
      | placeholder own =>
          obtain ⟨first, more, hown, hrest, rfl⟩ := demand_placeholder.mp hdemand
          -- the overflow is here already, or this one is filled and it comes later
          by_cases hsmall : used + first < sizeLimit
          · have hgrant : grant args.length used own = .ok first :=
              grant_eq_ok_iff.mpr ⟨hown, hsmall, by omega⟩
            rw [List.cons_append, fill_placeholder_of_grant hgrant,
              ih hrest (by omega) (by omega), Except.map]
          · have hgrant : grant args.length used own = .error .overflow :=
              grant_eq_overflow_iff.mpr ⟨first, hown, Nat.not_lt.mp hsmall⟩
            rw [List.cons_append, fill, hgrant]

theorem fill_eq_overflow_iff {pieces : List Piece} :
    fill args 0 pieces = .error .overflow ↔ Overruns args.length pieces := by
  constructor
  · intro h
    simpa [Overruns] using exists_of_fill_eq_overflow (Nat.zero_le _) h
  · rintro ⟨before, digits, after, taken, count, rfl, hdemand, hroom, hread, hlarge⟩
    exact fill_eq_overflow_of_exists hdemand (by omega) hread (by omega)

/-! ### Names with lists -/

/-- Counts overflow while the name is localized with its own list: in one of the arguments, if those
before it are localized, or in what stands before the list, if all of them are. -/
inductive OwnOverflow : List Char → Prop
  | argument {name arg : List Char} {cut : Bracketed} {earlier later : List (List Char)}
      (hlist : firstList name = .found cut) (hargs : arguments cut.inside = earlier ++ arg :: later)
      (hearlier : ∀ other ∈ earlier, ∃ text, localizeOwn other = .ok text)
      (harg : OwnOverflow arg) : OwnOverflow name
  | head {name : List Char} {cut : Bracketed} (hlist : firstList name = .found cut)
      (hargs : ∀ arg ∈ arguments cut.inside, ∃ text, localizeOwn arg = .ok text)
      (hhead : Overruns (arguments cut.inside).length (mangledPieces cut.head)) : OwnOverflow name

/-- Counts overflow while the name is localized. -/
def Overflows (name : List Char) (generics : List (List Char)) : Prop :=
  if generics.isEmpty ∨ '<' ∈ name then OwnOverflow name
  else Overruns generics.length (mangledPieces name)

theorem exists_overflow_iff_ownOverflow (name : List Char) :
    (∃ inner, localizeOwn name = .error (.overflow inner)) ↔ OwnOverflow name := by
  constructor
  · -- along the calls of the function: the fault is the one of an argument, or of the text before
    induction hsize : name.length using Nat.strongRecOn generalizing name with
    | _ size ih =>
        rintro ⟨inner, h⟩
        rw [localizeOwn_eq] at h
        cases hlist : firstList name with
        | absent => simp [hlist] at h
        | unclosed head rest => simp [hlist] at h
        | found cut =>
            cases hargs : (arguments cut.inside).mapM localizeOwn with
            | error fault =>
                obtain rfl : fault = .overflow inner := by simpa [hlist, hargs] using h
                obtain ⟨earlier, arg, later, hsplit, hearlier, harg⟩ := mapM_eq_error_iff.mp hargs
                have hmem : arg ∈ arguments cut.inside := by simp [hsplit]
                have hshorter := length_le_of_mem_arguments hmem
                have hinside := firstList_length hlist
                exact .argument hlist hsplit hearlier
                  (ih arg.length (by omega) arg rfl ⟨inner, harg⟩)
            | ok args =>
                obtain ⟨hlength, hall⟩ := exists_of_mapM_eq_ok hargs
                cases hfill : fill args 0 (mangledPieces cut.head) with
                | ok filled => simp [hlist, hargs, hfill] at h
                | error shortage =>
                    cases shortage with
                    | tooFew => simp [hlist, hargs, hfill, Shortage.fault] at h
                    | overflow =>
                        refine .head hlist hall ?_
                        rw [← hlength]
                        exact fill_eq_overflow_iff.mp hfill
  · intro h
    induction h with
    | argument hlist hargs hearlier harg ih =>
        obtain ⟨inner, hinner⟩ := ih
        have hfault := mapM_eq_error_iff.mpr ⟨_, _, _, hargs, hearlier, hinner⟩
        exact ⟨inner, by simp only [localizeOwn_eq _, hlist, hfault]⟩
    | @head name cut hlist hargs hhead =>
        refine ⟨name, ?_⟩
        cases hall : (arguments cut.inside).mapM localizeOwn with
        | error fault =>
            obtain ⟨earlier, arg, later, hsplit, -, harg⟩ := mapM_eq_error_iff.mp hall
            obtain ⟨text, htext⟩ := hargs arg (by simp [hsplit])
            exact absurd (harg.symm.trans htext) (by simp)
        | ok args =>
            rw [← (exists_of_mapM_eq_ok hall).1] at hhead
            have hfill := fill_eq_overflow_iff.mpr hhead
            simp only [localizeOwn_eq name, hlist, hall, hfill, Shortage.fault]

theorem exists_overflow_iff_overflows (name : List Char) (generics : List (List Char)) :
    (∃ inner, localizeChars name generics = .error (.overflow inner))
      ↔ Overflows name generics := by
  unfold localizeChars Overflows
  by_cases hown : generics.isEmpty ∨ '<' ∈ name
  · rw [if_pos hown, if_pos hown]
    exact exists_overflow_iff_ownOverflow name
  · rw [if_neg hown, if_neg hown, ← fill_eq_overflow_iff]
    cases fill generics 0 (mangledPieces name) with
    | ok filled => simp
    | error shortage =>
        cases shortage with
        | tooFew => simp [Shortage.fault]
        | overflow => simp [Shortage.fault]

/--
**Localizing ends unless counts overflow.**  For every name and every list of arguments there is a
localized name, or a report of a malformed one, exactly if no placeholder that is reached has a
count whose sum with what was taken before is `2 ^ 64` or more.  Whatever pieces the loop has got
over, it has taken as many arguments as they ask for, which is a size and no more than there are:
so each of the stretches it cut out of the arguments was there.
-/
theorem localizes_iff_not_overflows (name : String) (generics : List String) :
    ((∃ text, localizeOrFault name generics = .ok text)
        ∨ (∃ inner, localizeOrFault name generics = .error (.malformed inner))
      ↔ ¬Overflows name.toList (generics.map String.toList))
    ∧ ∀ (args : List (List Char)) (pieces : List Piece) (filled : Filled),
      fill args 0 pieces = .ok filled →
        demand pieces = some filled.used ∧ filled.used < sizeLimit ∧ filled.used ≤ args.length := by
  constructor
  · rw [← exists_overflow_iff_overflows, localizeOrFault]
    cases localizeChars name.toList (generics.map String.toList) with
    | ok text => simp [Except.map]
    | error fault =>
        cases fault with
        | malformed inner => simp [Except.map]
        | overflow inner => simp [Except.map]
  · intro args pieces filled h
    obtain ⟨total, hdemand, hsum, hbounds⟩ := demand_of_fill (by decide) (Nat.zero_le _) h
    rw [Nat.zero_add] at hsum
    exact ⟨hsum ▸ hdemand, hbounds⟩

/-- The counts of the two placeholders add up to `2 ^ 64`, and there is an argument for the
first. -/
theorem not_localizes_pair :
    let name := "A`1B`18446744073709551615"
    ¬((∃ text, localizeOrFault name ["x"] = .ok text)
      ∨ ∃ inner, localizeOrFault name ["x"] = .error (.malformed inner)) := by
  intro name hends
  have hoverflows : Overflows name.toList (["x"].map String.toList) := by
    rw [Overflows, if_neg (by decide)]
    exact ⟨[.plain 'A', .placeholder ['1'], .plain 'B'], "18446744073709551615".toList, [], 1,
      2 ^ 64 - 1, by decide, by decide, by decide, by decide, by decide⟩
  exact (localizes_iff_not_overflows name ["x"]).1.mp hends hoverflows

end ApiSurface.Name
