import Locomotive.Stmt

/-!
# Nesting of blocks

`FOR` and `WHILE` open a block, `NEXT` and `WEND` close blocks. The blocks of a program are
nested if none is closed that is not open, each branch of an `IF` leaves as many blocks open
as it has found, and none is open at the end.

* `Stmt.Hereditary`: induction over the branches of statements.
* `Stmt.depth?`: the number of open blocks after a statement.
* `Program.Nested`: the blocks of a program are nested.
-/

namespace Locomotive

/-- The number of open blocks after `count` of them are closed. -/
def closeBlocks (count depth : Nat) : Option Nat := if depth < count then none else some (depth - count)

theorem closeBlocks_succ_succ (count depth : Nat) : closeBlocks (count + 1) (depth + 1) = closeBlocks count depth := by
  unfold closeBlocks
  by_cases h : depth < count
  · rw [if_pos h, if_pos (by omega)]
  · rw [if_neg h, if_neg (by omega), Nat.add_sub_add_right]

namespace Stmt

/-- **What holds by induction over the branches** of statements: `P` of a statement if `Q` holds
of its branches, and `Q` of a list if `P` holds of its members. -/
structure Hereditary (P : Stmt → Prop) (Q : List Stmt → Prop) : Prop where
  simple : ∀ s, s.isBranch = false → P s
  branch : ∀ c yes no, Q yes → (∀ ss ∈ no, Q ss) → P (.branch c yes no)
  nil : Q []
  cons : ∀ s ss, P s → Q ss → Q (s :: ss)

theorem Hereditary.all {P : Stmt → Prop} {Q : List Stmt → Prop} (h : Hereditary P Q) (ss : List Stmt) : Q ss := by
  refine Stmt.rec_1 (motive_1 := P) (motive_2 := Q) (motive_3 := fun no => ∀ ss ∈ no, Q ss)
    ?_ ?_ ?_ ?_ ?_ ?_ ?_ ?_ ?_ h.branch ?_ ?_ ?_ ?_ ?_ ?_ ?_ ?_ ?_ ?_ ?_ ?_ ?_ ?_ ?_
    h.nil h.cons (fun _ hss => by cases hss) (fun _ hss _ hmem => by cases hmem; exact hss) ss
  all_goals intros; exact h.simple _ rfl

mutual

/-- The number of open blocks after a statement. There is none if a block is closed that is
not open, or if a branch leaves more or fewer open than it has found. -/
def depth? : Stmt → Nat → Option Nat
  | forLoop _ _ _ _, depth => some (depth + 1)
  | whileLoop _, depth => some (depth + 1)
  | next vars, depth => closeBlocks (max 1 vars.length) depth
  | wend, depth => closeBlocks 1 depth
  | branch _ yes no, depth =>
    if depthOf? yes (depth + 1) = some (depth + 1) ∧ depthOfElse? no (depth + 1) = some (depth + 1) then some depth
    else none
  | _, depth => some depth

/-- The number of open blocks after a list of statements. -/
def depthOf? : List Stmt → Nat → Option Nat
  | [], depth => some depth
  | s :: ss, depth => (s.depth? depth).bind (depthOf? ss)

/-- The number of open blocks after an `ELSE`. -/
def depthOfElse? : Option (List Stmt) → Nat → Option Nat
  | none, depth => some depth
  | some ss, depth => depthOf? ss depth

end

theorem depthOf?_append (ss ss' : List Stmt) (depth : Nat) :
    depthOf? (ss ++ ss') depth = (depthOf? ss depth).bind (depthOf? ss') := by
  induction ss generalizing depth with
  | nil => rfl
  | cons s ss ih =>
    rw [List.cons_append, depthOf?, depthOf?]
    cases s.depth? depth with
    | none => rfl
    | some d => exact ih d

end Stmt

/-- **The blocks of the program are nested.** -/
def Program.Nested (p : Program) : Prop := Stmt.depthOf? (p.lines.flatMap Line.stmts) 0 = some 0

instance (p : Program) : Decidable p.Nested := inferInstanceAs (Decidable (_ = _))

end Locomotive
