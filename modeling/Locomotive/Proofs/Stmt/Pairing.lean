import Locomotive.Js.Name
import Locomotive.Proofs.Stmt.Balance

/-!
# Which block a statement closes

The statements that open and close blocks are moves: `FOR`, `WHILE` and the start of a branch open
one, `NEXT`, `WEND` and the end of a branch close one, a `NEXT` with variables one for each of them.
By nesting, the block that is closed is the one opened last of those that are open. So the moves of
a program pair up, each that opens with one that closes, exactly if the counter of open blocks
never falls below zero and ends there. Nothing in this looks at what has opened the block.

* `Stmt.movesOf`: the moves of statements.
* `pairOff`: the pairs, found with a stack of open blocks.
* `exists_pairOff_iff`: when moves pair up.
* `pairOff_apart`: where no branch closes a block from before it, branches and loops stay apart.
-/

namespace Locomotive

/-! ## Moves -/

/-- What opens a block. -/
inductive Opener where
  | forLoop (var : String)
  | whileLoop
  /-- The start of a branch. -/
  | branch
  deriving DecidableEq, Repr

/-- What closes a block. -/
inductive Closer where
  /-- A `NEXT`, for one of its variables or without one. -/
  | next (var : Option String)
  | wend
  /-- The end of a branch. -/
  | branch
  deriving DecidableEq, Repr

/-- **A closer for its own kind of block**: a `NEXT` with a variable closes the loop over this
variable. -/
def Closer.fits : Closer → Opener → Bool
  | next none, .forLoop _ => true
  | next (some v), .forLoop var => Js.identifier v == Js.identifier var
  | wend, .whileLoop => true
  | branch, .branch => true
  | _, _ => false

/-- A block is opened, or blocks are closed, from the innermost outwards. -/
inductive Move where
  | opens (o : Opener)
  | closes (cs : List Closer)
  deriving DecidableEq, Repr

namespace Move

/-- The step of a move. -/
def step : Move → Int
  | opens _ => 1
  | closes cs => -(cs.length : Int)

/-- What a move opens. -/
def openers : Move → List Opener
  | opens o => [o]
  | closes _ => []

/-- What a move closes. -/
def closers : Move → List Closer
  | opens _ => []
  | closes cs => cs

end Move

/-- What a `NEXT` closes. -/
def nextClosers : List String → List Closer
  | [] => [.next none]
  | v :: vs => (v :: vs).map fun v => .next (some v)

namespace Stmt

mutual

/-- **The moves of a statement.** -/
def moves : Stmt → List Move
  | forLoop var _ _ _ => [.opens (.forLoop var)]
  | whileLoop _ => [.opens .whileLoop]
  | next vars => [.closes (nextClosers vars)]
  | wend => [.closes [.wend]]
  | branch _ yes no => (.opens .branch :: movesOf yes ++ [.closes [.branch]]) ++ movesOfElse no
  | _ => []

/-- The moves of the statements of a list. -/
def movesOf : List Stmt → List Move
  | [] => []
  | s :: ss => s.moves ++ movesOf ss

/-- The moves of an `ELSE`. -/
def movesOfElse : Option (List Stmt) → List Move
  | none => []
  | some ss => .opens .branch :: movesOf ss ++ [.closes [.branch]]

end

/-- **The steps of the moves** are those of the counter. -/
theorem steps_movesOf (ss : List Stmt) : (movesOf ss).map Move.step = countsOf ss := by
  refine Hereditary.all (P := fun s => s.moves.map Move.step = s.counts)
    (Q := fun ss => (movesOf ss).map Move.step = countsOf ss) ⟨?_, ?_, rfl, ?_⟩ ss
  · intro s hs
    rw [counts_of_simple hs]
    cases s with
    | branch c yes no => cases hs
    | next vars =>
      have hlength : (nextClosers vars).length = max 1 vars.length := by
        cases vars with
        | nil => rfl
        | cons v vs =>
          simp only [nextClosers, List.length_map, List.length_cons]
          omega
      simp only [moves, steps, List.map_cons, List.map_nil, Move.step, hlength]
    | _ => rfl
  · intro c yes no hyes hno
    cases no with
    | none => simp [moves, counts, movesOfElse, countsOfElse, Move.step, hyes]
    | some ss => simp [moves, counts, movesOfElse, countsOfElse, Move.step, hyes, hno ss rfl]
  · intro s ss hs hss
    rw [movesOf, countsOf, List.map_append, hs, hss]

end Stmt

/-! ## Pairs -/

/-- **The pairs by nesting**, in the order of the closing, and the blocks that are open in the end. There are none
if a block is closed that is not open. -/
def pairOff : List Opener → List Move → Option (List (Opener × Closer) × List Opener)
  | held, [] => some ([], held)
  | held, .opens o :: ms => pairOff (o :: held) ms
  | held, .closes cs :: ms =>
    if held.length < cs.length then none
    else (pairOff (held.drop cs.length) ms).map fun r => (held.zip cs ++ r.1, r.2)

variable {held left : List Opener} {ms ms' : List Move} {ps : List (Opener × Closer)}

/-- Closing takes as many blocks from the top as there are closers. -/
theorem pairOff_closes {cs : List Closer} : pairOff held (.closes cs :: ms) = some (ps, left) ↔
    ∃ top rest qs, held = top ++ rest ∧ top.length = cs.length ∧ ps = top.zip cs ++ qs ∧
      pairOff rest ms = some (qs, left) := by
  have hzip : ∀ {top rest : List Opener}, top.length = cs.length → (top ++ rest).zip cs = top.zip cs := by
    intro top rest hlength
    have h : (top ++ rest).zip (cs ++ []) = top.zip cs ++ rest.zip [] := List.zip_append hlength
    simpa using h
  rw [pairOff]
  constructor
  · intro h
    split at h
    · cases h
    · rename_i hle
      obtain ⟨⟨qs, rest⟩, hrest, heq⟩ := Option.map_eq_some_iff.1 h
      cases heq
      have hlength : (held.take cs.length).length = cs.length := by
        rw [List.length_take]
        omega
      refine ⟨held.take cs.length, held.drop cs.length, qs, (List.take_append_drop ..).symm, hlength, ?_, hrest⟩
      have hwhole : (held.take cs.length ++ held.drop cs.length).zip cs = _ := hzip hlength
      rw [← hwhole, List.take_append_drop]
  · rintro ⟨top, rest, qs, rfl, hlength, rfl, hrest⟩
    have hle : ¬ (top ++ rest).length < cs.length := by
      rw [List.length_append]
      omega
    rw [if_neg hle, hzip hlength, ← hlength, List.drop_left, hrest, Option.map_some]

theorem pairOff_append : pairOff held (ms ++ ms') = some (ps, left) ↔
    ∃ qs mid rs, ps = qs ++ rs ∧ pairOff held ms = some (qs, mid) ∧ pairOff mid ms' = some (rs, left) := by
  induction ms generalizing held ps with
  | nil =>
    constructor
    · intro h
      exact ⟨[], held, ps, rfl, rfl, h⟩
    · rintro ⟨qs, mid, rs, rfl, hnil, h⟩
      cases hnil
      exact h
  | cons m ms ih =>
    cases m with
    | opens o => exact ih
    | closes cs =>
      rw [List.cons_append, pairOff_closes]
      constructor
      · rintro ⟨top, rest, qs, rfl, hlength, rfl, h⟩
        obtain ⟨qs₁, mid, rs, rfl, hqs, hrs⟩ := ih.1 h
        exact ⟨top.zip cs ++ qs₁, mid, rs, (List.append_assoc ..).symm,
          pairOff_closes.2 ⟨top, rest, qs₁, rfl, hlength, rfl, hqs⟩, hrs⟩
      · rintro ⟨qs, mid, rs, rfl, hfirst, hrs⟩
        obtain ⟨top, rest, qs₁, rfl, hlength, rfl, hqs⟩ := pairOff_closes.1 hfirst
        exact ⟨top, rest, qs₁ ++ rs, rfl, hlength, List.append_assoc .., ih.2 ⟨qs₁, mid, rs, rfl, hqs, hrs⟩⟩

/-- Blocks below those that are reached stay open. -/
theorem pairOff_below (h : pairOff held ms = some (ps, left)) (below : List Opener) :
    pairOff (held ++ below) ms = some (ps, left ++ below) := by
  induction ms generalizing held ps with
  | nil =>
    cases h
    rfl
  | cons m ms ih =>
    cases m with
    | opens o => exact ih (show pairOff (o :: held) ms = some (ps, left) from h)
    | closes cs =>
      obtain ⟨top, rest, qs, rfl, hlength, rfl, hrest⟩ := pairOff_closes.1 h
      exact pairOff_closes.2 ⟨top, rest ++ below, qs, List.append_assoc .., hlength, rfl, ih hrest⟩

/-- **Every move is in the pairs**: what closes, in order, and what opens, once unless it stays open. -/
theorem pairOff_complete (h : pairOff held ms = some (ps, left)) :
    ps.map Prod.snd = ms.flatMap Move.closers ∧
      (ps.map Prod.fst ++ left).Perm (held ++ ms.flatMap Move.openers) := by
  induction ms generalizing held ps with
  | nil =>
    cases h
    exact ⟨rfl, by simp⟩
  | cons m ms ih =>
    cases m with
    | opens o =>
      obtain ⟨hclosers, hopeners⟩ := ih h
      exact ⟨hclosers, hopeners.trans List.perm_middle.symm⟩
    | closes cs =>
      obtain ⟨top, rest, qs, rfl, hlength, rfl, hrest⟩ := pairOff_closes.1 h
      obtain ⟨hclosers, hopeners⟩ := ih hrest
      rw [List.flatMap_cons, List.flatMap_cons, List.map_append, List.map_append, List.map_snd_zip (by omega),
        List.map_fst_zip (by omega), hclosers]
      refine ⟨rfl, ?_⟩
      simpa [Move.openers] using hopeners.append_left top

/-- **When moves pair off.** From the number of open blocks, their steps stay above zero. -/
theorem pairOff_steps (held : List Opener) (ms : List Move) :
    match pairOff held ms with
    | none => ¬ Above held.length (ms.map Move.step)
    | some r => Above held.length (ms.map Move.step) ∧ (r.2.length : Int) = held.length + (ms.map Move.step).sum := by
  induction ms generalizing held with
  | nil => simp [pairOff]
  | cons m ms ih =>
    rw [List.map_cons, above_cons, List.sum_cons]
    cases m with
    | opens o =>
      have hrest := ih (o :: held)
      have hstart : ((o :: held).length : Int) = held.length + (Move.opens o).step := by simp [Move.step]
      rw [hstart] at hrest
      rw [pairOff]
      split at hrest
      · exact fun h => hrest h.2
      · exact ⟨⟨by omega, hrest.1⟩, by omega⟩
    | closes cs =>
      have hrest := ih (held.drop cs.length)
      have hstep : (Move.closes cs).step = -(cs.length : Int) := rfl
      rw [pairOff, hstep]
      split
      · rename_i hnone
        split at hnone
        · intro h
          have hnext := h.2 0
          rw [List.take_zero, List.sum_nil] at hnext
          omega
        · rename_i hle
          have hstart : ((held.drop cs.length).length : Int) = held.length + -(cs.length : Int) := by
            rw [List.length_drop]
            omega
          rw [Option.map_eq_none_iff.1 hnone, hstart] at hrest
          exact fun h => hrest h.2
      · rename_i r hsome
        split at hsome
        · cases hsome
        · rename_i hle
          have hstart : ((held.drop cs.length).length : Int) = held.length + -(cs.length : Int) := by
            rw [List.length_drop]
            omega
          obtain ⟨r', hr', rfl⟩ := Option.map_eq_some_iff.1 hsome
          rw [hr', hstart] at hrest
          obtain ⟨habove, hlength⟩ := hrest
          exact ⟨⟨by omega, habove⟩, by dsimp only; omega⟩

/-- **Moves pair up exactly if their steps are balanced.** -/
theorem exists_pairOff_iff : (∃ ps, pairOff [] ms = some (ps, [])) ↔ Balanced (ms.map Move.step) := by
  have hsteps := pairOff_steps [] ms
  constructor
  · rintro ⟨ps, h⟩
    rw [h] at hsteps
    obtain ⟨habove, hlength⟩ := hsteps
    exact ⟨habove, by simpa using hlength.symm⟩
  · rintro ⟨habove, hback⟩
    rcases h : pairOff [] ms with _ | ⟨ps, left⟩ <;> rw [h] at hsteps
    · exact absurd habove hsteps
    · have hlength := hsteps.2
      rw [hback] at hlength
      have hnone : left = [] := List.length_eq_zero_iff.1 (by simpa using hlength)
      exact ⟨ps, hnone ▸ rfl⟩

/-! ## Branches and loops -/

/-- The pairs keep branches and loops apart, and no branch is open. -/
structure LoopsApart (ps : List (Opener × Closer)) (left : List Opener) : Prop where
  pairs : ∀ x ∈ ps, x.1 = .branch ↔ x.2 = .branch
  left : ∀ o ∈ left, o ≠ .branch

theorem LoopsApart.append {qs : List (Opener × Closer)} {mid : List Opener} (h : LoopsApart ps mid)
    (h' : LoopsApart qs left) : LoopsApart (ps ++ qs) left := ⟨List.forall_mem_append.2 ⟨h.pairs, h'.pairs⟩, h'.left⟩

namespace Stmt

/-- Without branches, the pairs are those of loops. -/
theorem apart_of_simple {s : Stmt} (hs : s.isBranch = false) (hheld : ∀ o ∈ held, o ≠ .branch)
    (h : pairOff held s.moves = some (ps, left)) : LoopsApart ps left := by
  have hcloses : ∀ {cs : List Closer}, (∀ c ∈ cs, c ≠ .branch) → pairOff held [.closes cs] = some (ps, left) →
      LoopsApart ps left := by
    intro cs hcs h
    obtain ⟨top, rest, qs, rfl, -, rfl, hrest⟩ := pairOff_closes.1 h
    cases hrest
    obtain ⟨htop, hrest⟩ := List.forall_mem_append.1 hheld
    refine ⟨fun x hx => ?_, hrest⟩
    rw [List.append_nil] at hx
    have hzip := List.of_mem_zip hx
    exact ⟨fun hbranch => absurd hbranch (htop _ hzip.1), fun hbranch => absurd hbranch (hcs _ hzip.2)⟩
  have hopens : ∀ {o : Opener}, o ≠ .branch → pairOff held [.opens o] = some (ps, left) → LoopsApart ps left := by
    intro o ho h
    cases h
    exact ⟨by simp, List.forall_mem_cons.2 ⟨ho, hheld⟩⟩
  cases s with
  | branch c yes no => cases hs
  | forLoop var _ _ _ => exact hopens (by simp) h
  | whileLoop _ => exact hopens (by simp) h
  | wend => exact hcloses (by simp) h
  | next vars => exact hcloses (by cases vars <;> simp [nextClosers]) h
  | _ =>
    cases h
    exact ⟨by simp, hheld⟩

/-- A branch that closes its own blocks only is closed by its end. -/
theorem apart_of_body {ss : List Stmt} (hss : Balanced (countsOf ss)) (hheld : ∀ o ∈ held, o ≠ .branch)
    (hin : ∀ ps left, pairOff [] (movesOf ss) = some (ps, left) → LoopsApart ps left)
    (h : pairOff held (.opens .branch :: movesOf ss ++ [.closes [.branch]]) = some (ps, left)) :
    LoopsApart ps left := by
  obtain ⟨qs, hqs⟩ := exists_pairOff_iff.2 ((steps_movesOf ss).symm ▸ hss)
  have hbody := pairOff_below hqs (.branch :: held)
  have hopened : pairOff (.branch :: held) (movesOf ss ++ [.closes [.branch]]) = some (ps, left) := h
  obtain ⟨qs', mid, rs, rfl, hfirst, hlast⟩ := pairOff_append.1 hopened
  cases hbody.symm.trans hfirst
  obtain ⟨top, rest, _, heq, hlength, rfl, hrest⟩ := pairOff_closes.1 hlast
  cases hrest
  obtain ⟨o, rfl⟩ := List.length_eq_one_iff.1 hlength
  cases heq
  exact ⟨List.forall_mem_append.2 ⟨(hin qs [] hqs).pairs, by simp⟩, hheld⟩

/-- **Branches and loops stay apart** where no branch closes a block from before it: what closes a loop
is the end of no branch, and what ends a branch closes no loop. -/
theorem pairOff_apart {ss : List Stmt} (hbranches : ∀ b ∈ branchesOf ss, Balanced (stepsOf b))
    (hheld : ∀ o ∈ held, o ≠ .branch) (h : pairOff held (movesOf ss) = some (ps, left)) : LoopsApart ps left := by
  refine Hereditary.all
    (P := fun s => (∀ b ∈ s.branches, Balanced (stepsOf b)) → ∀ held ps left, (∀ o ∈ held, o ≠ .branch) →
      pairOff held s.moves = some (ps, left) → LoopsApart ps left)
    (Q := fun ss => (∀ b ∈ branchesOf ss, Balanced (stepsOf b)) → ∀ held ps left, (∀ o ∈ held, o ≠ .branch) →
      pairOff held (movesOf ss) = some (ps, left) → LoopsApart ps left)
    ⟨?_, ?_, ?_, ?_⟩ ss hbranches held ps left hheld h
  · intro s hs _ held ps left hheld h
    exact apart_of_simple hs hheld h
  · intro c yes no hyes hno hb held ps left hheld h
    -- inside a balanced branch the blocks from before it are out of reach
    have hbalanced : ∀ {ss : List Stmt}, (∀ b ∈ ss :: branchesOf ss, Balanced (stepsOf b)) →
        Balanced (countsOf ss) := by
      intro ss hss
      obtain ⟨hself, hin⟩ := List.forall_mem_cons.1 hss
      exact ⟨(above_countsOf hin 0).2 hself.above, (sum_countsOf ss).trans hself.back⟩
    obtain ⟨hb, hbelse⟩ := List.forall_mem_append.1 hb
    rw [moves] at h
    obtain ⟨qs, mid, rs, rfl, hfirst, hrest⟩ := pairOff_append.1 h
    have hin := (List.forall_mem_cons.1 hb).2
    have hyes := apart_of_body (hbalanced hb) hheld (fun ps left => hyes hin [] ps left (by simp)) hfirst
    cases no with
    | none =>
      cases hrest
      exact hyes.append ⟨by simp, hyes.left⟩
    | some ss =>
      have hin' := (List.forall_mem_cons.1 hbelse).2
      exact hyes.append (apart_of_body (hbalanced hbelse) hyes.left
        (fun ps left => hno ss rfl hin' [] ps left (by simp)) hrest)
  · intro _ held ps left hheld h
    cases h
    exact ⟨by simp, hheld⟩
  · intro s ss hs hss hb held ps left hheld h
    obtain ⟨hb, hbs⟩ := List.forall_mem_append.1 hb
    rw [movesOf] at h
    obtain ⟨qs, mid, rs, rfl, hfirst, hrest⟩ := pairOff_append.1 h
    have hstmt := hs hb held qs mid hheld hfirst
    exact hstmt.append (hss hbs mid rs left hstmt.left hrest)

end Stmt

end Locomotive
