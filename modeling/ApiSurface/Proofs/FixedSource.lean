/-
Inspections of a source whose answers do not change.

A source may load definitions while it is asked, so an inspection threads it
through and its outcome is one of a run.  Where asking does not change what later
questions are answered, the outcome is a function of those answers.  `Answers`
holds that function: `Answers.surface` goes through the same steps as
`Inspection.surfaceOf`, with nothing left of sessions and notices.

`Inquiry.Settles` relates the two.  It says that an inquiry comes to one result
from all states in which the answers hold, and that it leaves such a state, and it
has one rule for each way to build an inquiry.

An inspection asks for the bases and interfaces of the types on its way and for
nothing else, so no more than these answers has to be fixed: `Source.Steady` says
which they are, and a source that is `Source.Fixed` is steady for all of them.

The second half is about the climb.  It follows as many base references as it is
allowed, and a climb that ends within its allowance ends in the same way with a
larger one and through any binding.  So an ancestor of a type that can be
inspected can be inspected itself.
-/
import ApiSurface.Proofs.Climb

namespace ApiSurface

/-- What is answered to each reference. -/
abbrev Answers := TypeName → Option TypeDecl

/-- In each of the states the source gives these answers, and asking leads to such a state. -/
structure Source.Fixed {σ : Type} [Source σ] (states : σ → Prop) (answers : Answers) : Prop where
  found : ∀ source, states source → ∀ name, (resolve source name).found? = answers name
  stays : ∀ source, states source → ∀ name, states (resolve source name).source

/-- The named types that an inspection of the type asks for: its base and its interfaces. -/
def TypeDecl.references (decl : TypeDecl) : List TypeName :=
  (decl.base?.toList ++ decl.interfaces).filterMap Signature.typeName?

/-- The references that are asked have these answers in each of the states, asking for them leads
to such a state, and what is answered refers to nothing else. -/
structure Source.Steady {σ : Type} [Source σ] (states : σ → Prop) (asked : TypeName → Prop)
    (answers : Answers) : Prop where
  found : ∀ source, states source → ∀ name, asked name →
    (resolve source name).found? = answers name
  stays : ∀ source, states source → ∀ name, asked name → states (resolve source name).source
  asks : ∀ name, asked name → ∀ decl ∈ answers name, ∀ next ∈ decl.references, asked next

theorem Source.Fixed.steady {σ : Type} [Source σ] {states : σ → Prop} {answers : Answers}
    (h : Source.Fixed states answers) : Source.Steady states (fun _ => True) answers :=
  ⟨fun source hsource name _ => h.found source hsource name,
    fun source hsource name _ => h.stays source hsource name, fun _ _ _ _ _ _ => trivial⟩

/-- A collection that is all at hand is fixed. -/
theorem Shelf.fixed (shelf : Shelf) :
    Source.Fixed (· = shelf) fun name => shelf.find? name.fullName where
  found := by
    rintro source rfl name
    rfl
  stays := by
    rintro source rfl name
    rfl

/-- Full names lead to these definitions in each of the states, and looking for one leads to such
a state. -/
structure Source.Finds {σ : Type} [Source σ] (states : σ → Prop)
    (finds : String → Option TypeDecl) : Prop where
  found : ∀ source, states source → ∀ fullName, (find source fullName).found? = finds fullName
  stays : ∀ source, states source → ∀ fullName, states (find source fullName).source

theorem Shelf.finds (shelf : Shelf) : Source.Finds (· = shelf) shelf.find? where
  found := by
    rintro source rfl fullName
    rfl
  stays := by
    rintro source rfl fullName
    rfl

/-! ### Inspections as functions of the answers -/

namespace Answers

variable (answers : Answers)

def climb (limit : Nat) : (remaining : Nat) → Option Signature → Binding → Except Error (List Level)
  | _, none, _ => .ok []
  | 0, some _, _ => .error (.recursionLimit limit)
  | remaining + 1, some base, binding =>
    match base.typeName?.bind answers with
    | none => .ok []
    | some decl => do
      let binding' := Binding.through base binding
      let above ← climb limit remaining decl.base? binding'
      return ⟨decl, binding'⟩ :: above

def ancestors (options : Options) (decl : TypeDecl) : Except Error (List Level) :=
  if options.includeInherited then
    answers.climb options.maxDepth options.maxDepth decl.base? .empty
  else .ok []

def chain (options : Options) (decl : TypeDecl) : Except Error Chain := do
  return ⟨decl, ← answers.ancestors options decl⟩

def isShownInterface (interface : Signature) : Bool :=
  match interface.typeName?.bind answers with
  | some decl => decl.isPublic
  | none => true

def shownInterfaces (ignorePrivate : Bool) (interfaces : List Signature) : List Signature :=
  interfaces.filter fun interface => !ignorePrivate || answers.isShownInterface interface

def definition (finds : String → Option TypeDecl) (fullName : String) : Except Error TypeDecl :=
  match finds fullName with
  | some decl => .ok decl
  | none => .error (.typeNotFound fullName)

def surface (options : Options) (decl : TypeDecl) : Except Error Surface :=
  let shown := Surface.of decl options.ignorePrivate
    (answers.shownInterfaces options.ignorePrivate decl.interfaces)
  if decl.access.isHidden options.ignorePrivate then .ok (shown fun _ _ => [])
  else do
    let chain ← answers.chain options decl
    return shown fun kind isStatic => chain.members kind isStatic options.ignorePrivate

end Answers

/-! ### Inquiries that settle -/

namespace Inquiry

variable {σ α β : Type} {states : σ → Prop}

/-- From every state the inquiry comes to the result, and it leaves a state. -/
def Settles (states : σ → Prop) (inquiry : Inquiry σ α) (result : Except Error α) : Prop :=
  ∀ session, states session.source →
    ∃ after, (ExceptT.run inquiry).run session = (result, after) ∧ states after.source

theorem settles_pure (a : α) : Settles states (pure a) (.ok a) :=
  fun session hsession => ⟨session, rfl, hsession⟩

theorem settles_throw (error : Error) : Settles states (throw error : Inquiry σ α) (.error error) :=
  fun session hsession => ⟨session, rfl, hsession⟩

theorem settles_report (notices : List Notice) : Settles states (report notices) (.ok ()) :=
  fun session hsession => ⟨⟨session.source, session.journal ++ notices⟩, rfl, hsession⟩

/-- A lookup settles if in each of the states it finds the same and leads to such a state. -/
theorem settles_look {lookup : σ → Lookup σ} {found? : Option TypeDecl}
    (hfound : ∀ source, states source → (lookup source).found? = found?)
    (hstays : ∀ source, states source → states (lookup source).source) :
    Settles states (look lookup) (.ok found?) := by
  intro session hsession
  refine ⟨⟨(lookup session.source).source, session.journal ++ (lookup session.source).notices⟩,
    ?_, hstays session.source hsession⟩
  rw [← hfound session.source hsession]
  rfl

theorem settles_resolve [Source σ] {asked : TypeName → Prop} {answers : Answers}
    (hsteady : Source.Steady states asked answers) {name : TypeName} (hname : asked name) :
    Settles states (resolve name) (.ok (answers name)) :=
  settles_look (fun source hsource => hsteady.found source hsource name hname)
    fun source hsource => hsteady.stays source hsource name hname

theorem Settles.bind {first : Inquiry σ α} {next : α → Inquiry σ β} {result : Except Error α}
    {rest : α → Except Error β} (hfirst : Settles states first result)
    (hnext : ∀ a, result = .ok a → Settles states (next a) (rest a)) :
    Settles states (first >>= next) (result >>= rest) := by
  intro session hsession
  obtain ⟨middle, hrun, hmiddle⟩ := hfirst session hsession
  rw [run_bind, hrun]
  cases result with
  | error error => exact ⟨middle, rfl, hmiddle⟩
  | ok a => exact hnext a rfl middle hmiddle

/-- A step that succeeds in any case is followed by the rest. -/
theorem Settles.step {first : Inquiry σ α} {next : α → Inquiry σ β} {a : α}
    {result : Except Error β} (hfirst : Settles states first (.ok a))
    (hnext : Settles states (next a) result) : Settles states (first >>= next) result := by
  intro session hsession
  obtain ⟨middle, hrun, hmiddle⟩ := hfirst session hsession
  rw [run_bind, hrun]
  exact hnext middle hmiddle

/-- An inquiry that is attempted succeeds in any case. -/
theorem Settles.attempt {inquiry : Inquiry σ α} {result : Except Error α}
    (h : Settles states inquiry result) : Settles states inquiry.attempt (.ok result) := by
  intro session hsession
  obtain ⟨after, hrun, hafter⟩ := h session hsession
  refine ⟨after, ?_, hafter⟩
  unfold Inquiry.attempt
  rw [ExceptT.run_lift, StateT.run_map, hrun]
  rfl

theorem settles_mapM {inquiry : β → Inquiry σ α} {result : β → α}
    (h : ∀ item, Settles states (inquiry item) (.ok (result item))) (items : List β) :
    Settles states (items.mapM inquiry) (.ok (items.map result)) := by
  induction items with
  | nil => exact settles_pure []
  | cons item rest ih =>
      rw [List.mapM_cons]
      exact (h item).step (ih.step (settles_pure _))

/-- What the inquiry comes to when it is started in the session. -/
def result (inquiry : Inquiry σ α) (session : Session σ) : Except Error α :=
  ((ExceptT.run inquiry).run session).1

theorem Settles.result_eq {inquiry : Inquiry σ α} {result : Except Error α}
    (h : Settles states inquiry result) {session : Session σ} (hsession : states session.source) :
    inquiry.result session = result := by
  obtain ⟨after, hrun, -⟩ := h session hsession
  exact congrArg Prod.fst hrun

/-- An inquiry that settles succeeds with what it settles on, and with nothing else. -/
theorem Settles.gives_iff {inquiry : Inquiry σ α} {result : Except Error α}
    (h : Settles states inquiry result) {session : Session σ} (hsession : states session.source)
    {value : α} : (∃ after, Gives inquiry session value after) ↔ result = .ok value := by
  obtain ⟨after, hrun, -⟩ := h session hsession
  unfold Gives
  rw [hrun]
  constructor
  · rintro ⟨after', heq⟩
    exact (Prod.mk.inj heq).1
  · rintro rfl
    exact ⟨after, rfl⟩

end Inquiry

theorem Source.Finds.settles_definition {σ : Type} [Source σ] {states : σ → Prop}
    {finds : String → Option TypeDecl} (hfinds : Source.Finds states finds) (fullName : String) :
    Inquiry.Settles states (Inspection.definition fullName)
      (Answers.definition finds fullName) := by
  have hfind : Inquiry.Settles states (Inquiry.find fullName) (.ok (finds fullName)) :=
    Inquiry.settles_look (fun source hsource => hfinds.found source hsource fullName)
      fun source hsource => hfinds.stays source hsource fullName
  unfold Inspection.definition Answers.definition
  refine hfind.step ?_
  cases finds fullName with
  | none => exact Inquiry.settles_throw _
  | some decl => exact Inquiry.settles_pure decl

theorem Answers.definition_eq_ok {finds : String → Option TypeDecl} {fullName : String}
    {decl : TypeDecl} (h : Answers.definition finds fullName = .ok decl) :
    finds fullName = some decl := by
  unfold Answers.definition at h
  split at h
  · rename_i found hfound
    rw [hfound, Except.ok.inj h]
  · cases h

namespace Source.Steady

open Inquiry Inspection

variable {σ : Type} [Source σ] {states : σ → Prop} {asked : TypeName → Prop} {answers : Answers}
  (hsteady : Source.Steady states asked answers)

include hsteady

theorem settles_resolveBase {base : Signature} (hbase : ∀ name ∈ base.typeName?, asked name) :
    Settles states (resolveBase base) (.ok (base.typeName?.bind answers)) := by
  unfold resolveBase
  cases htype : base.typeName? with
  | none => exact (settles_pure none).step ((settles_report _).step (settles_pure none))
  | some name =>
      refine (settles_resolve hsteady (hbase name htype)).step ?_
      rw [Option.bind_some]
      cases answers name with
      | none => exact (settles_report _).step (settles_pure none)
      | some decl => exact settles_pure (some decl)

/-- What is asked along a climb: the base it starts with, and then the bases of the answers. -/
theorem settles_climb (limit : Nat) :
    ∀ (remaining : Nat) {base? : Option Signature} (binding : Binding),
      (∀ base ∈ base?, ∀ name ∈ base.typeName?, asked name) →
      Settles states (climb limit remaining base? binding)
        (answers.climb limit remaining base? binding) := by
  intro remaining
  induction remaining with
  | zero =>
      intro base? binding hbase
      cases base? with
      | none => exact settles_pure []
      | some base => exact settles_throw _
  | succ remaining ih =>
      intro base? binding hbase
      cases base? with
      | none => exact settles_pure []
      | some base =>
          unfold climb Answers.climb
          refine (hsteady.settles_resolveBase (hbase base rfl)).step ?_
          cases hdecl : base.typeName?.bind answers with
          | none => exact settles_pure []
          | some decl =>
              obtain ⟨name, hname, hanswer⟩ := Option.bind_eq_some_iff.mp hdecl
              have hnext : ∀ next ∈ decl.base?, ∀ name' ∈ next.typeName?, asked name' := by
                intro next hnext name' hname'
                refine hsteady.asks name (hbase base rfl name hname) decl hanswer name' ?_
                exact List.mem_filterMap.mpr
                  ⟨next, List.mem_append_left _ (Option.mem_toList.mpr hnext), hname'⟩
              exact (ih (Binding.through base binding) hnext).bind fun above _ =>
                settles_pure (⟨decl, Binding.through base binding⟩ :: above)

theorem settles_chain (options : Options) {decl : TypeDecl}
    (hdecl : ∀ name ∈ decl.references, asked name) :
    Settles states (Inspection.chain options decl) (answers.chain options decl) := by
  unfold Inspection.chain Answers.chain
  refine Settles.bind ?_ fun ancestors _ => settles_pure (⟨decl, ancestors⟩ : Chain)
  unfold ancestors Answers.ancestors
  split
  · refine hsteady.settles_climb options.maxDepth options.maxDepth .empty ?_
    intro base hbase name hname
    exact hdecl name (List.mem_filterMap.mpr
      ⟨base, List.mem_append_left _ (Option.mem_toList.mpr hbase), hname⟩)
  · exact settles_pure []

theorem settles_isShownInterface {interface : Signature}
    (hinterface : ∀ name ∈ interface.typeName?, asked name) :
    Settles states (isShownInterface interface) (.ok (answers.isShownInterface interface)) := by
  unfold isShownInterface Answers.isShownInterface
  cases htype : interface.typeName? with
  | none => exact settles_pure true
  | some name =>
      refine (settles_resolve hsteady (hinterface name htype)).step ?_
      rw [Option.bind_some]
      cases answers name with
      | none => exact (settles_report _).step (settles_pure true)
      | some decl => exact settles_pure decl.isPublic

theorem settles_shownInterfaces (ignorePrivate : Bool) {interfaces : List Signature}
    (hasked : ∀ interface ∈ interfaces, ∀ name ∈ interface.typeName?, asked name) :
    Settles states (shownInterfaces ignorePrivate interfaces)
      (.ok (answers.shownInterfaces ignorePrivate interfaces)) := by
  induction interfaces with
  | nil => exact settles_pure []
  | cons interface rest ih =>
      have hrest := ih fun other hother => hasked other (List.mem_cons_of_mem interface hother)
      unfold shownInterfaces Answers.shownInterfaces
      rw [List.filter_cons]
      cases ignorePrivate with
      | false =>
          exact (settles_pure true).step ((settles_report _).step (hrest.step (settles_pure _)))
      | true =>
          refine (hsteady.settles_isShownInterface (hasked interface List.mem_cons_self)).step ?_
          cases answers.isShownInterface interface with
          | false => exact hrest
          | true => exact (settles_report _).step (hrest.step (settles_pure _))

/-- **An inspection of a steady source is a function of its answers.** -/
theorem settles_surfaceOf (options : Options) {decl : TypeDecl}
    (hdecl : ∀ name ∈ decl.references, asked name) :
    Settles states (surfaceOf options decl) (answers.surface options decl) := by
  have hinterfaces : ∀ interface ∈ decl.interfaces, ∀ name ∈ interface.typeName?, asked name :=
    fun interface hinterface name hname =>
      hdecl name (List.mem_filterMap.mpr ⟨interface, List.mem_append_right _ hinterface, hname⟩)
  unfold surfaceOf Answers.surface
  refine (settles_report _).step ?_
  refine (hsteady.settles_shownInterfaces options.ignorePrivate hinterfaces).step ?_
  refine (settles_report _).step ?_
  split
  · exact (settles_report _).step (settles_pure _)
  · refine (hsteady.settles_chain options hdecl).bind fun chain _ => ?_
    exact (settles_report _).step (settles_pure _)

theorem settles_surface {finds : String → Option TypeDecl} (hfinds : Source.Finds states finds)
    (options : Options) {fullName : String}
    (hfound : ∀ decl ∈ finds fullName, ∀ name ∈ decl.references, asked name) :
    Settles states (surface options fullName)
      (Answers.definition finds fullName >>= answers.surface options) :=
  (hfinds.settles_definition fullName).bind fun decl hdecl =>
    hsteady.settles_surfaceOf options (hfound decl (Answers.definition_eq_ok hdecl))

end Source.Steady

namespace Inspection

open Inquiry

variable {σ : Type} [Source σ] {states : σ → Prop} {answers : Answers}
  (hfixed : Source.Fixed states answers)

include hfixed

theorem settles_chain (options : Options) (decl : TypeDecl) :
    Settles states (Inspection.chain options decl) (answers.chain options decl) :=
  hfixed.steady.settles_chain options fun _ _ => trivial

theorem settles_surfaceOf (options : Options) (decl : TypeDecl) :
    Settles states (surfaceOf options decl) (answers.surface options decl) :=
  hfixed.steady.settles_surfaceOf options fun _ _ => trivial

end Inspection

/-! ### Ancestors can be inspected -/

namespace Answers

variable {answers : Answers}

/-- What a climb that follows a base reference comes to. -/
theorem climb_some_eq_ok {limit remaining : Nat} {base : Signature} {binding : Binding}
    {levels : List Level}
    (h : answers.climb limit (remaining + 1) (some base) binding = .ok levels) :
    (base.typeName?.bind answers = none ∧ levels = [])
      ∨ ∃ decl above, base.typeName?.bind answers = some decl
        ∧ answers.climb limit remaining decl.base? (Binding.through base binding) = .ok above
        ∧ levels = ⟨decl, Binding.through base binding⟩ :: above := by
  unfold climb at h
  cases hbase : base.typeName?.bind answers with
  | none =>
      rw [hbase] at h
      exact Or.inl ⟨rfl, (Except.ok.inj h).symm⟩
  | some decl =>
      rw [hbase] at h
      cases habove : answers.climb limit remaining decl.base? (Binding.through base binding) with
      | error error =>
          simp only [habove] at h
          cases h
      | ok above =>
          simp only [habove] at h
          exact Or.inr ⟨decl, above, rfl, habove, (Except.ok.inj h).symm⟩

/-- Neither a larger allowance nor another binding makes a climb fail. -/
theorem exists_climb_of_le {limit limit' : Nat} :
    ∀ {remaining remaining' : Nat} {base? : Option Signature} {binding : Binding}
      {levels : List Level}, remaining ≤ remaining' →
      answers.climb limit remaining base? binding = .ok levels → ∀ binding',
        ∃ levels', answers.climb limit' remaining' base? binding' = .ok levels' := by
  intro remaining
  induction remaining with
  | zero =>
      intro remaining' base? binding levels hle h binding'
      cases base? with
      | none => exact ⟨[], by unfold climb; rfl⟩
      | some base => cases h
  | succ remaining ih =>
      intro remaining' base? binding levels hle h binding'
      cases base? with
      | none => exact ⟨[], by unfold climb; rfl⟩
      | some base =>
          obtain ⟨rest, rfl⟩ := Nat.exists_eq_add_of_le' (Nat.le_trans (Nat.le_add_left 1 _) hle)
          unfold climb
          rcases climb_some_eq_ok h with ⟨hnone, -⟩ | ⟨decl, above, hdecl, habove, -⟩
          · rw [hnone]
            exact ⟨[], rfl⟩
          · obtain ⟨above', habove'⟩ :=
              ih (Nat.le_of_succ_le_succ hle) habove (Binding.through base binding')
            rw [hdecl]
            simp only [habove']
            exact ⟨_, rfl⟩

/-- From every level of a climb there is one of its own. -/
theorem exists_climb_of_mem (limit' : Nat) {limit allowance : Nat} :
    ∀ {remaining : Nat} {base? : Option Signature} {binding : Binding} {levels : List Level},
      remaining ≤ allowance → answers.climb limit remaining base? binding = .ok levels →
        ∀ level ∈ levels, ∀ binding', ∃ above,
          answers.climb limit' allowance level.decl.base? binding' = .ok above := by
  intro remaining
  induction remaining with
  | zero =>
      intro base? binding levels hle h level hlevel binding'
      cases base? with
      | none =>
          cases h
          exact absurd hlevel List.not_mem_nil
      | some base => cases h
  | succ remaining ih =>
      intro base? binding levels hle h level hlevel binding'
      have hrest : remaining ≤ allowance := Nat.le_of_succ_le hle
      cases base? with
      | none =>
          cases h
          exact absurd hlevel List.not_mem_nil
      | some base =>
          rcases climb_some_eq_ok h with ⟨-, rfl⟩ | ⟨decl, above, hdecl, habove, rfl⟩
          · exact absurd hlevel List.not_mem_nil
          · rcases List.mem_cons.mp hlevel with rfl | hmem
            · exact exists_climb_of_le hrest habove binding'
            · exact ih hrest habove level hmem binding'

theorem chain_eq_ok {options : Options} {decl : TypeDecl} {chain : Chain}
    (h : answers.chain options decl = .ok chain) :
    chain.root = decl ∧ answers.ancestors options decl = .ok chain.ancestors := by
  unfold Answers.chain at h
  cases hancestors : answers.ancestors options decl with
  | error error =>
      rw [hancestors] at h
      cases h
  | ok levels =>
      rw [hancestors] at h
      cases h
      exact ⟨rfl, rfl⟩

/-- **An ancestor has a chain of its own.** -/
theorem exists_chain_of_mem_ancestors {options : Options} {decl : TypeDecl} {chain : Chain}
    (h : answers.chain options decl = .ok chain) {level : Level}
    (hlevel : level ∈ chain.ancestors) :
    ∃ own, answers.chain options level.decl = .ok own := by
  obtain ⟨-, hancestors⟩ := chain_eq_ok h
  unfold Answers.chain
  unfold Answers.ancestors at *
  split at hancestors
  · rename_i hinherited
    obtain ⟨above, habove⟩ := exists_climb_of_mem options.maxDepth (Nat.le_refl options.maxDepth)
      hancestors level hlevel .empty
    rw [if_pos hinherited, habove]
    exact ⟨_, rfl⟩
  · rw [← Except.ok.inj hancestors] at hlevel
    exact absurd hlevel List.not_mem_nil

/-- A type that is shown has its surface from its chain. -/
theorem surface_of_shown {options : Options} {decl : TypeDecl}
    (hshown : decl.access.isHidden options.ignorePrivate = false) :
    answers.surface options decl = (do
      let chain ← answers.chain options decl
      return Surface.of decl options.ignorePrivate
        (answers.shownInterfaces options.ignorePrivate decl.interfaces)
        fun kind isStatic => chain.members kind isStatic options.ignorePrivate) := by
  unfold Answers.surface
  rw [if_neg (by rw [hshown]; exact Bool.false_ne_true)]

end Answers

end ApiSurface
