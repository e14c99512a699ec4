/-
Binding the generic parameters of a type.

Climbing from a type to its base binds the parameters of the base to the
arguments that the base reference passes.  `Signature.substitute` writes the
bound arguments into a reference, and `Binding.through` is the binding of the
next level: the arguments of its base reference, themselves seen through the
binding of the level below.
-/
import ApiSurface.Signature.Basic

namespace ApiSurface

namespace Signature

mutual

/-- Replaces each type-level parameter by the argument at its position, and says whether there
was one.  Parameters without an argument and those of methods stay open. -/
def substitute (args : List Signature) : Signature → Signature × Bool
  | parameter .type index name =>
    match args[index]? with
    | some arg => (arg, true)
    | none => (parameter .type index name, false)
  | parameter .method index name => (parameter .method index name, false)
  | instantiation base inner =>
    let base' := base.substitute args
    let inner' := substituteAll args inner
    (instantiation base'.1 inner'.1, base'.2 || inner'.2)
  | array element rank =>
    let element' := element.substitute args
    (array element'.1 rank, element'.2)
  | byRef element =>
    let element' := element.substitute args
    (byRef element'.1, element'.2)
  | pointer element =>
    let element' := element.substitute args
    (pointer element'.1, element'.2)
  | primitive kind => (primitive kind, false)
  | named name => (named name, false)

/-- Substitutes in each of the references, and says whether any of them changed. -/
def substituteAll (args : List Signature) : List Signature → List Signature × Bool
  | [] => ([], false)
  | sig :: rest =>
    let sig' := sig.substitute args
    let rest' := substituteAll args rest
    (sig'.1 :: rest'.1, sig'.2 || rest'.2)

end

@[simp] theorem substituteAll_eq (args sigs : List Signature) :
    substituteAll args sigs
      = (sigs.map fun sig => (sig.substitute args).1, sigs.any fun sig => (sig.substitute args).2) := by
  induction sigs with
  | nil => rfl
  | cons sig rest ih => simp [substituteAll, ih]

end Signature

/-- The arguments bound to the type-level generic parameters, by position. -/
structure Binding where
  args : List Signature
  deriving DecidableEq, Repr

namespace Binding

/-- The binding that binds nothing. -/
def empty : Binding := ⟨[]⟩

/-- The binding binds nothing. -/
def isEmpty (b : Binding) : Bool := b.args.isEmpty

/-- The reference with the bound arguments written in, and whether there was one to write. -/
def applyTracked (b : Binding) (sig : Signature) : Signature × Bool :=
  if b.isEmpty then (sig, false) else sig.substitute b.args

/-- The reference with the bound arguments written in. -/
def apply (b : Binding) (sig : Signature) : Signature := (b.applyTracked sig).1

/-- The binding of the level that `base` leads to, seen from the level that `current` binds. -/
def through (base : Signature) (current : Binding) : Binding :=
  match base with
  | .instantiation _ args => ⟨args.map current.apply⟩
  | _ => empty

end Binding

end ApiSurface
