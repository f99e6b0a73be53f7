import Locomotive.Tables

/-!
# Generating code with tables

Code is generated by actions that read and extend the tables of the compilation and may
fail. A failing action keeps what it has done to the tables so far.
-/

namespace Locomotive

/-- An action that generates code. -/
abbrev Emit := ExceptT Failure (StateM Tables)

namespace Emit

/-- The result of an action and the tables after it. -/
def apply {α : Type} (m : Emit α) (t : Tables) : Except Failure α × Tables := m.run t

/-- No code can be generated. -/
def refuse {α : Type} (why : Refusal) : Emit α := throw (.refused none why)

/-- The tables do not admit this. -/
def broken {α : Type} (fault : Fault) : Emit α := throw (.broken fault)

/-- Changes the tables. -/
def update (f : Tables → Tables) : Emit Unit := modify f

/-- A warning about the line being compiled. -/
def warn (r : Remark) : Emit Unit := update fun t => t.warn r

/-- A helper is called. -/
def helper (name : String) : Emit Unit := update fun t => t.call name

/-- The line waits for something. -/
def wait : Emit Unit := update Tables.wait

/-- A name of the source is used for a variable. -/
def mention (name : String) (storage : Storage) : Emit String := do
  let r := (← get).reference name storage
  set r.2
  pure r.1

/-- Opens or closes loops, and gives the new depth. -/
def indentBy (delta : Int) : Emit Int := do
  let r := (← get).indentBy delta
  set r.2
  match r.1 with
  | .ok depth => pure depth
  | .error fault => broken fault

/-- A label stands at the line with the given index. -/
def define (label : String) (line : Int) : Emit Unit := do
  match (← get).define label line with
  | .ok t => set t
  | .error fault => broken fault

/-- A reference to subroutines. -/
def site (kind : CallKind) (labels : List String) (selector : String) : Emit Nat := do
  let r := (← get).addSite kind labels selector
  set r.2
  pure r.1

/-- The action with its refusals put down to the line with the given number. -/
def atLine {α : Type} (line : Int) (m : Emit α) : Emit α :=
  tryCatch m fun f => throw (f.atLine line)

end Emit

end Locomotive
