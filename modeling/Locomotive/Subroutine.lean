import Locomotive.Tables

/-!
# Subroutines

A subroutine is a target of a `GOSUB` together with the lines up to the `RETURN` that
ends it. It becomes a function. The function has to be asynchronous if a line in it
waits, or calls such a function.

* `Tables.subroutines`: the subroutines of a program.
* `owner?`: the subroutine that a line belongs to.
* `asyncLabels`: the subroutines that wait, directly or through a call.
-/

namespace Locomotive

/-- A subroutine: its label and the indices of its first and its last line. -/
structure Subroutine where
  label : String
  first : Int
  last : Int
  deriving DecidableEq, Repr

/-- The subroutines of a program, in the order of their labels. -/
def Tables.subroutines (t : Tables) : List Subroutine :=
  t.labels.filterMap fun l =>
    match l.last with
    | some last => if 0 ≤ last ∧ t.isTarget l.name then some ⟨l.name, l.first, last⟩ else none
    | none => none

namespace Subroutine

/-- The line with the given index is in the subroutine. -/
def holds (s : Subroutine) (line : Int) : Bool := s.first ≤ line && line ≤ s.last

/-- All lines of the subroutine are among the first `count` lines. -/
def fits (s : Subroutine) (count : Nat) : Bool :=
  s.last < s.first || (0 ≤ s.first && s.last < count)

end Subroutine

/-- The label of the subroutine that a line belongs to: of the last one that holds it. -/
def owner? (subs : List Subroutine) (line : Int) : Option String :=
  ((subs.reverse.find? fun s => s.holds line).map Subroutine.label).filter (· ≠ "")

/-- The owners of the lines that wait, the first line having the given index. -/
def waiting (subs : List Subroutine) : (index : Int) → (waits : List Bool) → List String
  | _, [] => []
  | i, w :: ws => (if w then (owner? subs i).toList else []) ++ waiting subs (i + 1) ws

/-- The owners of the lines that call the subroutine with the given label. -/
def callers (subs : List Subroutine) (sites : List CallSite) (label : String) : List String :=
  sites.filterMap fun s =>
    if s.kind ≠ .reference ∧ s.labels.contains label then owner? subs s.line else none

/-- The members of `remaining` that can be reached from `pending` by steps of `next`
inside it. Each round takes one of them out. -/
def reach (next : String → List String) (remaining pending : List String) : List String :=
  match _found : pending.find? remaining.contains with
  | none => []
  | some x => x :: reach next (remaining.erase x) (next x ++ pending)
termination_by remaining.length
decreasing_by
  have hx : x ∈ remaining := List.contains_iff_mem.mp (List.find?_some _found)
  have := List.length_erase_of_mem hx
  have := List.length_pos_of_mem hx
  omega

/-- The labels of the subroutines that wait, directly or through a call. -/
def asyncLabels (subs : List Subroutine) (waits : List Bool) (sites : List CallSite) :
    List String :=
  reach (callers subs sites) (subs.map Subroutine.label).eraseDups (waiting subs 0 waits)

/-- The line of a call is one of the first `count` lines. -/
def CallSite.fits (s : CallSite) (count : Nat) : Bool :=
  s.kind == .reference || (0 ≤ s.line && s.line < count)

/-- The labels of the subroutines that wait, if all subroutines and calls are in the
program. -/
def asyncLabels? (subs : List Subroutine) (waits : List Bool) (sites : List CallSite) :
    Option (List String) :=
  if subs.all (fun s => s.fits waits.length) && sites.all (fun s => s.fits waits.length) then
    some (asyncLabels subs waits sites)
  else none

end Locomotive
