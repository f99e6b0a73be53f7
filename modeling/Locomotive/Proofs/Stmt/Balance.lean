import Locomotive.Proofs.Stmt.Nesting
import Mathlib.Algebra.Ring.Int.Defs

/-!
# Balanced statements

Each `FOR` and `WHILE` is a step up, each `NEXT` and `WEND` a step down by as many blocks as it
closes. The steps of some statements are **balanced** if they never fall below where they start
and end there. Reading a branch of an `IF` as one more open block, as `Stmt.depth?` does, tells
whether the steps of the branch end where they start, but not whether they stay above it:
a branch may close the block that it stands in and open another one in its place.

* `Stmt.counts`: the steps of the one counter for blocks and branches.
* `Stmt.depthOf?_eq_some_iff`: what the counter tells.
* `Program.WellNested`: the program and every branch in it are balanced.
* `Program.wellNested_iff`: what the counter leaves open.
-/

namespace Locomotive

/-! ## Steps -/

/-- From the given depth, the steps never lead below zero. -/
def Above (depth : Int) (steps : List Int) : Prop := ∀ n, 0 ≤ depth + (steps.take n).sum

/-- **Balanced steps** never fall below where they start, and end there. -/
structure Balanced (steps : List Int) : Prop where
  above : Above 0 steps
  back : steps.sum = 0

/-- A prefix that is longer than the whole is the whole. -/
theorem above_iff_le_length (depth : Int) (steps : List Int) :
    Above depth steps ↔ ∀ n ≤ steps.length, 0 ≤ depth + (steps.take n).sum := by
  constructor
  · intro h n _
    exact h n
  · intro h n
    by_cases hn : n ≤ steps.length
    · exact h n hn
    · have hall := h steps.length (Nat.le_refl _)
      rw [List.take_length] at hall
      rw [List.take_of_length_le (by omega)]
      exact hall

instance (depth : Int) (steps : List Int) : Decidable (Above depth steps) :=
  decidable_of_iff' _ (above_iff_le_length depth steps)

@[simp] theorem above_nil (depth : Int) : Above depth [] ↔ 0 ≤ depth := by
  unfold Above
  constructor
  · intro h
    have := h 0
    simpa using this
  · intro h n
    simpa using h

@[simp] theorem above_cons (depth d : Int) (ds : List Int) :
    Above depth (d :: ds) ↔ 0 ≤ depth ∧ Above (depth + d) ds := by
  unfold Above
  constructor
  · intro h
    refine ⟨by simpa using h 0, fun n => ?_⟩
    have := h (n + 1)
    rw [List.take_succ_cons, List.sum_cons] at this
    omega
  · rintro ⟨hstart, hrest⟩ n
    cases n with
    | zero => simpa using hstart
    | succ n =>
      have := hrest n
      rw [List.take_succ_cons, List.sum_cons]
      omega

theorem above_append (depth : Int) (ds es : List Int) :
    Above depth (ds ++ es) ↔ Above depth ds ∧ Above (depth + ds.sum) es := by
  induction ds generalizing depth with
  | nil =>
    have hstart : Above depth es → 0 ≤ depth := fun h => by simpa using h 0
    simpa using hstart
  | cons d ds ih =>
    rw [List.cons_append, above_cons, above_cons, ih, List.sum_cons, Int.add_assoc, and_assoc]

/-- What stays above zero stays there from further up. -/
theorem Above.mono {depth depth' : Int} {steps : List Int} (h : Above depth steps) (hle : depth ≤ depth') :
    Above depth' steps := by
  intro n
  have := h n
  omega

/-- Balanced steps stay above zero from wherever they may start. -/
theorem Balanced.above_iff {steps : List Int} (h : Balanced steps) (depth : Int) : Above depth steps ↔ 0 ≤ depth := by
  constructor
  · intro habove
    simpa using habove 0
  · intro hdepth
    exact h.above.mono hdepth

/-! ## Steps of statements -/

namespace Stmt

mutual

/-- The steps of a statement, those of its branches one after the other. -/
def steps : Stmt → List Int
  | forLoop _ _ _ _ => [1]
  | whileLoop _ => [1]
  | next vars => [-(max 1 vars.length : Nat)]
  | wend => [-1]
  | branch _ yes no => stepsOf yes ++ stepsOfElse no
  | _ => []

/-- The steps of the statements of a list. -/
def stepsOf : List Stmt → List Int
  | [] => []
  | s :: ss => s.steps ++ stepsOf ss

/-- The steps of the statements of an `ELSE`. -/
def stepsOfElse : Option (List Stmt) → List Int
  | none => []
  | some ss => stepsOf ss

end

mutual

/-- The branches in a statement, at any depth. -/
def branches : Stmt → List (List Stmt)
  | branch _ yes no => yes :: branchesOf yes ++ branchesOfElse no
  | _ => []

/-- The branches in the statements of a list. -/
def branchesOf : List Stmt → List (List Stmt)
  | [] => []
  | s :: ss => s.branches ++ branchesOf ss

/-- The `ELSE` branch and those in it. -/
def branchesOfElse : Option (List Stmt) → List (List Stmt)
  | none => []
  | some ss => ss :: branchesOf ss

end

mutual

/-- **The steps of the one counter** for blocks and branches: a branch is a step up, and one down
behind its statements. -/
def counts : Stmt → List Int
  | branch _ yes no => (1 :: countsOf yes ++ [-1]) ++ countsOfElse no
  | s => s.steps

/-- The steps of the counter in the statements of a list. -/
def countsOf : List Stmt → List Int
  | [] => []
  | s :: ss => s.counts ++ countsOf ss

/-- The steps of the counter in an `ELSE`. -/
def countsOfElse : Option (List Stmt) → List Int
  | none => []
  | some ss => 1 :: countsOf ss ++ [-1]

end

theorem stepsOf_append (ss ss' : List Stmt) : stepsOf (ss ++ ss') = stepsOf ss ++ stepsOf ss' := by
  induction ss with
  | nil => rfl
  | cons s ss ih => rw [List.cons_append, stepsOf, stepsOf, ih, List.append_assoc]

theorem branchesOf_append (ss ss' : List Stmt) : branchesOf (ss ++ ss') = branchesOf ss ++ branchesOf ss' := by
  induction ss with
  | nil => rfl
  | cons s ss ih => rw [List.cons_append, branchesOf, branchesOf, ih, List.append_assoc]

theorem countsOf_append (ss ss' : List Stmt) : countsOf (ss ++ ss') = countsOf ss ++ countsOf ss' := by
  induction ss with
  | nil => rfl
  | cons s ss ih => rw [List.cons_append, countsOf, countsOf, ih, List.append_assoc]

theorem counts_of_simple {s : Stmt} (h : s.isBranch = false) : s.counts = s.steps := by
  unfold counts
  split
  · cases h
  · rfl

/-- Blocks are closed by one step down. -/
theorem closeBlocks_eq_some_iff (count n k : Nat) :
    closeBlocks count n = some k ↔ Above n [-(count : Int)] ∧ (k : Int) = n + [-(count : Int)].sum := by
  unfold closeBlocks
  simp only [above_cons, above_nil, List.sum_cons, List.sum_nil]
  split
  · simp; omega
  · simp; omega

/-- A statement without branches follows its steps. -/
theorem depth?_of_simple {s : Stmt} (h : s.isBranch = false) :
    s.branches = [] ∧ ∀ n k, s.depth? n = some k ↔ Above n s.steps ∧ (k : Int) = n + s.steps.sum := by
  cases s with
  | branch c yes no => cases h
  | next vars => exact ⟨rfl, closeBlocks_eq_some_iff _⟩
  | wend => exact ⟨rfl, closeBlocks_eq_some_iff 1⟩
  | forLoop _ _ _ _ | whileLoop _ =>
    refine ⟨rfl, fun n k => ?_⟩
    simp only [depth?, steps, above_cons, above_nil, List.sum_cons, List.sum_nil, Option.some.injEq]
    omega
  | _ =>
    refine ⟨rfl, fun n k => ?_⟩
    simp only [depth?, steps, above_nil, List.sum_nil, Option.some.injEq]
    omega

/-! ## The counter -/

/-- Over all statements, branches do not count. -/
theorem sum_countsOf (ss : List Stmt) : (countsOf ss).sum = (stepsOf ss).sum := by
  refine Hereditary.all (P := fun s => s.counts.sum = s.steps.sum)
    (Q := fun ss => (countsOf ss).sum = (stepsOf ss).sum) ⟨?_, ?_, rfl, ?_⟩ ss
  · intro s hs
    rw [counts_of_simple hs]
  · intro c yes no hyes hno
    cases no with
    | none =>
      simp only [counts, steps, countsOfElse, stepsOfElse, List.sum_append, List.sum_cons, List.sum_nil, hyes]
      omega
    | some ss =>
      have hss := hno ss rfl
      simp only [counts, steps, countsOfElse, stepsOfElse, List.sum_append, List.sum_cons, List.sum_nil, hyes, hss]
      omega
  · intro s ss hs hss
    rw [countsOf, stepsOf, List.sum_append, List.sum_append, hs, hss]

/-- From `n` the counter never falls below zero, it ends at `k`, and each of the branches ends where
it starts. -/
structure Counted (n k : Nat) (counts : List Int) (bs : List (List Stmt)) : Prop where
  above : Above n counts
  branches : ∀ b ∈ bs, (stepsOf b).sum = 0
  leads : (k : Int) = n + counts.sum

theorem counted_nil {n k : Nat} : Counted n k [] [] ↔ n = k := by
  constructor
  · intro h
    have := h.leads
    simp only [List.sum_nil] at this
    omega
  · rintro rfl
    exact ⟨by simp, by simp, by simp⟩

theorem counted_append {n k : Nat} {cs ds : List Int} {bs bs' : List (List Stmt)} :
    Counted n k (cs ++ ds) (bs ++ bs') ↔ ∃ m, Counted n m cs bs ∧ Counted m k ds bs' := by
  constructor
  · intro h
    obtain ⟨hup, hup'⟩ := (above_append n cs ds).1 h.above
    obtain ⟨hb, hb'⟩ := List.forall_mem_append.1 h.branches
    have hleads := h.leads
    rw [List.sum_append] at hleads
    -- the depth between the two parts is where the second one starts
    have hmid : 0 ≤ (n : Int) + cs.sum := by simpa using hup' 0
    have hcast : (((n : Int) + cs.sum).toNat : Int) = n + cs.sum := Int.toNat_of_nonneg hmid
    refine ⟨((n : Int) + cs.sum).toNat, ⟨hup, hb, hcast⟩, ⟨?_, hb', ?_⟩⟩
    · rw [hcast]
      exact hup'
    · omega
  · rintro ⟨m, h, h'⟩
    have hleads := h.leads
    have hleads' := h'.leads
    have hup' := h'.above
    rw [hleads] at hup'
    refine ⟨(above_append n cs ds).2 ⟨h.above, hup'⟩, List.forall_mem_append.2 ⟨h.branches, h'.branches⟩, ?_⟩
    rw [List.sum_append]
    omega

/-- A branch starts one further up, ends there, and leaves the counter where it was. -/
theorem counted_body {n k : Nat} (ss : List Stmt) : Counted n k (1 :: countsOf ss ++ [-1]) (ss :: branchesOf ss) ↔
    Counted (n + 1) (n + 1) (countsOf ss) (branchesOf ss) ∧ n = k := by
  have hsum := sum_countsOf ss
  constructor
  · intro h
    obtain ⟨hzero, hbranches⟩ := List.forall_mem_cons.1 h.branches
    have habove := h.above
    have hleads := h.leads
    rw [List.cons_append, above_cons, above_append] at habove
    simp only [List.cons_append, List.sum_cons, List.sum_append, List.sum_nil] at hleads
    exact ⟨⟨habove.2.1, hbranches, by omega⟩, by omega⟩
  · rintro ⟨h, rfl⟩
    have hleads := h.leads
    refine ⟨?_, List.forall_mem_cons.2 ⟨by omega, h.branches⟩, ?_⟩
    · rw [List.cons_append, above_cons, above_append, above_cons, above_nil]
      exact ⟨by omega, h.above, by omega, by omega⟩
    · simp only [List.cons_append, List.sum_cons, List.sum_append, List.sum_nil]
      omega

theorem counted_of_simple {s : Stmt} (h : s.isBranch = false) (n k : Nat) :
    s.depth? n = some k ↔ Counted n k s.counts s.branches := by
  obtain ⟨hnone, hdepth⟩ := depth?_of_simple h
  rw [hdepth, counts_of_simple h, hnone]
  constructor
  · rintro ⟨habove, hleads⟩
    exact ⟨habove, by simp, hleads⟩
  · intro hcounted
    exact ⟨hcounted.above, hcounted.leads⟩

/-- **The depth that statements leave** is that of the counter. Nothing is asked of a branch but that
it ends where it starts. -/
theorem depthOf?_eq_some_iff (ss : List Stmt) (n k : Nat) :
    depthOf? ss n = some k ↔ Counted n k (countsOf ss) (branchesOf ss) := by
  refine Hereditary.all (P := fun s => ∀ n k : Nat, s.depth? n = some k ↔ Counted n k s.counts s.branches)
    (Q := fun ss => ∀ n k : Nat, depthOf? ss n = some k ↔ Counted n k (countsOf ss) (branchesOf ss)) ⟨?_, ?_, ?_, ?_⟩
    ss n k
  · intro s hs n k
    exact counted_of_simple hs n k
  · intro c yes no hyes hno n k
    rw [depth?, Option.ite_none_right_eq_some, Option.some.injEq, counts, branches, counted_append]
    cases no with
    | none =>
      simp only [countsOfElse, branchesOfElse, counted_nil, counted_body, hyes, depthOfElse?]
      simp
    | some ss =>
      have hss := hno ss rfl
      simp only [countsOfElse, branchesOfElse, counted_body, hyes, hss, depthOfElse?]
      constructor
      · rintro ⟨⟨hy, hn⟩, rfl⟩
        exact ⟨n, ⟨hy, rfl⟩, hn, rfl⟩
      · rintro ⟨m, ⟨hy, rfl⟩, hn, rfl⟩
        exact ⟨⟨hy, hn⟩, rfl⟩
  · intro n k
    rw [depthOf?, Option.some.injEq, countsOf, branchesOf, counted_nil]
  · intro s ss hs hss n k
    rw [depthOf?, Option.bind_eq_some_iff, countsOf, branchesOf, counted_append]
    simp only [hs, hss]

/-- The steps lead to the depth that statements leave. -/
theorem sum_stepsOf {ss : List Stmt} {n k : Nat} (h : depthOf? ss n = some k) : (k : Int) = n + (stepsOf ss).sum := by
  rw [← sum_countsOf]
  exact ((depthOf?_eq_some_iff ss n k).1 h).leads

/-- **If the branches are balanced**, the counter stays above zero exactly if the steps do. -/
theorem above_countsOf {ss : List Stmt} (h : ∀ b ∈ branchesOf ss, Balanced (stepsOf b)) (depth : Int) :
    Above depth (countsOf ss) ↔ Above depth (stepsOf ss) := by
  refine Hereditary.all
    (P := fun s => (∀ b ∈ s.branches, Balanced (stepsOf b)) → ∀ d, Above d s.counts ↔ Above d s.steps)
    (Q := fun ss => (∀ b ∈ branchesOf ss, Balanced (stepsOf b)) → ∀ d, Above d (countsOf ss) ↔ Above d (stepsOf ss))
    ⟨?_, ?_, ?_, ?_⟩ ss h depth
  · intro s hs _ d
    rw [counts_of_simple hs]
  · intro c yes no hyes hno hb d
    obtain ⟨hb, hbelse⟩ := List.forall_mem_append.1 hb
    -- both ways of reading a balanced branch ask only for the start
    have hbody : ∀ {b : List Stmt} (d : Int), Balanced (stepsOf b) → (∀ d, Above d (countsOf b) ↔ Above d (stepsOf b)) →
        (Above d (1 :: countsOf b ++ [-1]) ↔ Above d (stepsOf b)) := by
      intro b d hbalanced hcounts
      have hsum := sum_countsOf b
      have hback := hbalanced.back
      rw [List.cons_append, above_cons, above_append, above_cons, above_nil, hcounts, hbalanced.above_iff,
        hbalanced.above_iff]
      omega
    obtain ⟨hbalanced, hin⟩ := List.forall_mem_cons.1 hb
    have hfirst := hbody d hbalanced (hyes hin)
    have hzero : (1 :: countsOf yes ++ [-1]).sum = (stepsOf yes).sum := by
      have hsum := sum_countsOf yes
      simp only [List.cons_append, List.sum_cons, List.sum_append, List.sum_nil]
      omega
    rw [counts, steps, above_append d (1 :: countsOf yes ++ [-1]), above_append d (stepsOf yes), hfirst, hzero]
    refine and_congr_right fun _ => ?_
    cases no with
    | none => exact Iff.rfl
    | some ss =>
      obtain ⟨hbalanced', hin'⟩ := List.forall_mem_cons.1 hbelse
      exact hbody _ hbalanced' (hno ss rfl hin')
  · intro _ d
    exact Iff.rfl
  · intro s ss hs hss hb d
    obtain ⟨hb, hbs⟩ := List.forall_mem_append.1 hb
    have hsum : s.counts.sum = s.steps.sum := by
      have := sum_countsOf [s]
      simpa [countsOf, stepsOf] using this
    rw [countsOf, stepsOf, above_append, above_append, hs hb, hss hbs, hsum]

end Stmt

/-! ## Programs -/

namespace Program

/-- All statements of the program. -/
def stmts (p : Program) : List Stmt := p.lines.flatMap Line.stmts

/-- **The program is well nested.** It closes no block that is not open and leaves none open,
and so does every branch in it. -/
structure WellNested (p : Program) : Prop where
  whole : Balanced (Stmt.stepsOf p.stmts)
  branches : ∀ b ∈ Stmt.branchesOf p.stmts, Balanced (Stmt.stepsOf b)

/-- **What is asked of a program**: the counter never falls below zero and ends there, and every branch
ends where it starts. -/
theorem nested_iff (p : Program) : p.Nested ↔ Balanced (Stmt.countsOf p.stmts) ∧
    ∀ b ∈ Stmt.branchesOf p.stmts, (Stmt.stepsOf b).sum = 0 := by
  have hdepth : p.Nested ↔ _ := Stmt.depthOf?_eq_some_iff p.stmts 0 0
  rw [hdepth]
  constructor
  · intro h
    have hleads := h.leads
    exact ⟨⟨h.above, by omega⟩, h.branches⟩
  · rintro ⟨h, hbranches⟩
    exact ⟨h.above, hbranches, by rw [h.back]; rfl⟩

/-- **What the counter leaves open.** A well-nested program is a nested one in which no branch closes
a block that was open before it. -/
theorem wellNested_iff (p : Program) : p.WellNested ↔
    p.Nested ∧ ∀ b ∈ Stmt.branchesOf p.stmts, Above 0 (Stmt.stepsOf b) := by
  have hsum := Stmt.sum_countsOf p.stmts
  rw [nested_iff]
  constructor
  · intro h
    have habove := (Stmt.above_countsOf h.branches 0).2 h.whole.above
    have hback := hsum.trans h.whole.back
    exact ⟨⟨⟨habove, hback⟩, fun b hb => (h.branches b hb).back⟩, fun b hb => (h.branches b hb).above⟩
  · rintro ⟨⟨hcounts, hzero⟩, habove⟩
    have hbranches : ∀ b ∈ Stmt.branchesOf p.stmts, Balanced (Stmt.stepsOf b) := fun b hb => ⟨habove b hb, hzero b hb⟩
    exact ⟨⟨(Stmt.above_countsOf hbranches 0).1 hcounts.above, hsum.symm.trans hcounts.back⟩, hbranches⟩

end Program

end Locomotive
