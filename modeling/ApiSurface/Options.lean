/-
What an inspection shows.
-/
namespace ApiSurface

/-- The choices of an inspection. -/
structure Options where
  /-- Leave out what cannot be seen outside the assembly. -/
  ignorePrivate : Bool
  /-- Take members over from base types. -/
  includeInherited : Bool
  /-- How many base types a chain may have. -/
  maxDepth : Nat
  deriving DecidableEq, Repr

namespace Options

/-- The public surface, inherited members included. -/
def publicApi : Options := ⟨true, true, 64⟩

/-- Every declaration, whoever can see it. -/
def complete : Options := { publicApi with ignorePrivate := false }

/-- The public members that a type declares itself. -/
def declaredOnly : Options := { publicApi with includeInherited := false }

end Options

end ApiSurface
