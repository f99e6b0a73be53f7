/-!
# Counting by name

A tally counts how often each of some names occurs. Names keep the order in which they
first occurred.
-/

namespace Locomotive

/-- How often each name occurs. -/
structure Tally where
  entries : List (String × Nat) := []
  deriving DecidableEq, Repr

namespace Tally

/-- One more occurrence of a name. -/
def add (t : Tally) (name : String) : Tally where
  entries := go t.entries
where
  /-- The entries with one more occurrence. -/
  go : List (String × Nat) → List (String × Nat)
    | [] => [(name, 1)]
    | (n, k) :: es => if n = name then (n, k + 1) :: es else (n, k) :: go es

/-- How often a name occurs. -/
def count (t : Tally) (name : String) : Nat := (t.entries.lookup name).getD 0

/-- The names that occur, in the order of their first occurrence. -/
def names (t : Tally) : List String := t.entries.map Prod.fst

/-- The number of all occurrences. -/
def total (t : Tally) : Nat := t.entries.foldr (fun e n => e.2 + n) 0

/-- The name occurs. -/
def has (t : Tally) (name : String) : Bool := t.count name != 0

end Tally

end Locomotive
