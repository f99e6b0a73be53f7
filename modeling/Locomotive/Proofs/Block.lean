import Locomotive.Proofs.Async
import Locomotive.Proofs.Emit.Resolve

/-!
# Blocks of programs and functions

One counter serves the loops of a program and the branches of its `IF`s, and where a branch or a
subroutine ends it is only compared with where it was at the start. So a program is compiled if the
counter never falls below zero and comes back to where it was; what it does in between is not looked
at. A branch, or a function in a loop, can close the loop around it and open another.

* `parse_generates_iff_counter`: which programs are compiled.
* `compile_functions_keep_depth`: what holds of the blocks of a function.
-/

namespace Locomotive

/-! ## Programs -/

/-- **Which programs are compiled.** The counter never falls below zero and ends there, and every
branch ends where it starts. These are the well-nested programs, and those in which
only branches are not well nested. -/
theorem parse_generates_iff_counter (strict : Bool) (source : List Char) :
    match Program.parse strict (Token.scan source).tokens source with
    | .error _ => True
    | .ok p =>
      ((∃ text, p.generate.1 = .ok text) ↔
        Balanced (Stmt.countsOf p.stmts) ∧ ∀ b ∈ Stmt.branchesOf p.stmts, (Stmt.stepsOf b).sum = 0) ∧
      (p.WellNested ↔ (∃ text, p.generate.1 = .ok text) ∧ ∀ b ∈ Stmt.branchesOf p.stmts, Above 0 (Stmt.stepsOf b)) := by
  have hparse := Parse.program_proper strict source
  rcases hp : Program.parse strict (Token.scan source).tokens source with why | p <;> rw [hp] at hparse
  · trivial
  · have hgen := Program.generate_spec hparse
    have hnested : (∃ text, p.generate.1 = .ok text) ↔ p.Nested := by
      rcases hg : p.generate.1 with why | text <;> rw [hg] at hgen
      · constructor
        · rintro ⟨text, htext⟩
          cases htext
        · intro h
          exact absurd h hgen.2
      · exact ⟨fun _ => hgen.1, fun _ => ⟨text, rfl⟩⟩
    dsimp only
    rw [hnested, p.wellNested_iff, p.nested_iff]
    exact ⟨Iff.rfl, Iff.rfl⟩

/-- A program is compiled in which a branch closes a loop that is not open and opens another. -/
theorem generates_unnested_branch : ∃ (p : Program) (text : String),
    Program.parse false (Token.scan "10 IF a THEN NEXT: FOR i=1 TO 2".toList).tokens
      "10 IF a THEN NEXT: FOR i=1 TO 2".toList = .ok p ∧ p.generate.1 = .ok text ∧ ¬ p.WellNested := by
  have hrun : (Program.parse false (Token.scan "10 IF a THEN NEXT: FOR i=1 TO 2".toList).tokens
      "10 IF a THEN NEXT: FOR i=1 TO 2".toList).toOption.any (fun p =>
        p.generate.1.toOption.isSome && !decide (Above 0 (Stmt.stepsOf p.stmts))) = true := by decide +kernel
  obtain ⟨p, hp, hrun⟩ := exists_ok_of_any hrun
  obtain ⟨hok, hdip⟩ := (Bool.and_eq_true _ _).mp hrun
  obtain ⟨text, hg⟩ := exists_ok_of_isSome hok
  refine ⟨p, text, hp, hg, fun h => ?_⟩
  simp [h.whole.above] at hdip

/-! ## Functions -/

/-- The statements of a subroutine. -/
def Program.body (p : Program) (s : Subroutine) : List Stmt :=
  ((p.lines.drop s.first.toNat).take ((s.last + 1).toNat - s.first.toNat)).flatMap Line.stmts

theorem Program.stmts_eq_body (p : Program) {s : Subroutine} (h : s.first ≤ s.last + 1) :
    p.stmts = (p.lines.take s.first.toNat).flatMap Line.stmts ++ p.body s ++
      (p.lines.drop (s.last + 1).toNat).flatMap Line.stmts := by
  have hstop : s.first.toNat + ((s.last + 1).toNat - s.first.toNat) = (s.last + 1).toNat := by omega
  unfold Program.stmts Program.body
  rw [← List.flatMap_append, ← List.flatMap_append, ← List.take_add, hstop, List.take_append_drop]

theorem depthAt_body (p : Program) {s : Subroutine} (h : s.first ≤ s.last + 1) :
    depthAt p.lines (s.last + 1).toNat = depthAt p.lines s.first.toNat + (Stmt.stepsOf (p.body s)).sum := by
  have hstop : s.first.toNat + ((s.last + 1).toNat - s.first.toNat) = (s.last + 1).toNat := by omega
  unfold depthAt Program.body
  rw [← hstop, List.take_add, List.flatMap_append, Stmt.stepsOf_append, List.sum_append, hstop]

namespace Stages

variable {p : Program} {text : String}

/-- **The blocks of a function.** -/
structure Encloses (o : Stages p text) (s : Subroutine) : Prop where
  /-- Its lines stand between its braces. -/
  written : ∃ indent, s.function o.tables.vars o.tables.subroutines (o.codes.map LineCode.fragment) indent
    (o.async.contains s.label) <:+: o.rows
  /-- As many loops are open at the end of its last line as at its label. -/
  back : (Stmt.stepsOf (p.body s)).sum = 0
  /-- From the loops open at the label on, the counter never falls below zero. -/
  counted : Above (depthAt p.lines s.first.toNat) (Stmt.countsOf (p.body s))
  /-- If no branch closes a loop from before it, the statements close open loops only. -/
  closes : (∀ b ∈ Stmt.branchesOf (p.body s), Above 0 (Stmt.stepsOf b)) →
    Above (depthAt p.lines s.first.toNat) (Stmt.stepsOf (p.body s))
  /-- If no loop is open at the label either, they close their own loops only. -/
  selfContained : depthAt p.lines s.first.toNat = 0 →
    (∀ b ∈ Stmt.branchesOf (p.body s), Above 0 (Stmt.stepsOf b)) → Balanced (Stmt.stepsOf (p.body s))

theorem encloses (o : Stages p text) (hp : p.Proper)
    (hnested : p.Nested) {s : Subroutine} (hs : s ∈ o.tables.subroutines) : o.Encloses s := by
  have hinside := (o.inTurn hp).inside s hs
  have hfirst := hinside.first
  have hlast := hinside.last
  have hle : s.first ≤ s.last + 1 := by omega
  -- the label and the `RETURN` stand at the same depth
  have hdepth : depthAt p.lines s.first.toNat = depthAt p.lines (s.last + 1).toNat :=
    ((o.history hp).chronicle.closed _ (Finished.mem_spans hs) s.last rfl).2
  have hback : (Stmt.stepsOf (p.body s)).sum = 0 := by
    have hbody := depthAt_body p hle
    omega
  obtain ⟨hcounts, hbranches⟩ := p.nested_iff.1 hnested
  have hsplit := p.stmts_eq_body hle
  -- the counter at the label is the number of loops open there
  have hstart : (Stmt.countsOf ((p.lines.take s.first.toNat).flatMap Line.stmts)).sum = depthAt p.lines s.first.toNat :=
    Stmt.sum_countsOf _
  have hcounted : Above (depthAt p.lines s.first.toNat) (Stmt.countsOf (p.body s)) := by
    have habove := hcounts.above
    rw [hsplit, Stmt.countsOf_append, Stmt.countsOf_append, above_append, above_append, Int.zero_add, hstart] at habove
    exact habove.1.2
  have hzero : ∀ b ∈ Stmt.branchesOf (p.body s), (Stmt.stepsOf b).sum = 0 := by
    intro b hb
    refine hbranches b ?_
    rw [hsplit, Stmt.branchesOf_append, Stmt.branchesOf_append]
    exact List.mem_append_left _ (List.mem_append_right _ hb)
  have hcloses : (∀ b ∈ Stmt.branchesOf (p.body s), Above 0 (Stmt.stepsOf b)) →
      Above (depthAt p.lines s.first.toNat) (Stmt.stepsOf (p.body s)) := by
    intro habove
    exact (Stmt.above_countsOf (fun b hb => ⟨habove b hb, hzero b hb⟩) _).1 hcounted
  refine ⟨o.function_infix_rows hp s hs, hback, hcounted, hcloses, fun hzero habove => ⟨?_, hback⟩⟩
  have := hcloses habove
  rwa [hzero] at this

/-- Resolving references leaves the subroutines as they are. -/
theorem subroutines_eq (o : Stages p text) (hp : p.Proper)
    (hresult : p.generate.1 = .ok text) : p.generate.2.subroutines = o.tables.subroutines := by
  obtain ⟨n, htables⟩ := o.complains hp hresult
  rw [htables]
  rfl

end Stages

/-- **Every function ends at the depth of its label**, and closes no loop that is not open. That it
closes its own loops only is certain where no loop is open at the label. -/
theorem compile_functions_keep_depth (strict : Bool) (source : List Char) :
    match (compile strict source).result with
    | .error _ => True
    | .ok text => ∃ (p : Program) (o : Stages p text),
      Program.parse strict (Token.scan source).tokens source = .ok p ∧
      o.tables.subroutines = (compile strict source).tables.subroutines ∧
      ∀ s ∈ o.tables.subroutines, o.Encloses s := by
  rcases hresult : (compile strict source).result with why | text
  · trivial
  · obtain ⟨p, ⟨o⟩, h⟩ := compile_accepted hresult
    refine ⟨p, o, h.parsed, ?_, fun s hs => o.encloses h.proper h.nested hs⟩
    rw [h.tables, o.subroutines_eq h.proper h.generated]

/-- A function in a loop that closes this loop and opens another. -/
theorem function_crosses_loop : ∃ (p : Program) (text : String),
    Program.parse false
      (Token.scan "10 FOR i=1 TO 2\n20 GOSUB 30\n30 NEXT:FOR j=1 TO 2:RETURN\n40 NEXT".toList).tokens
      "10 FOR i=1 TO 2\n20 GOSUB 30\n30 NEXT:FOR j=1 TO 2:RETURN\n40 NEXT".toList = .ok p ∧
    (compile false "10 FOR i=1 TO 2\n20 GOSUB 30\n30 NEXT:FOR j=1 TO 2:RETURN\n40 NEXT".toList).result = .ok text ∧
    ∃ s ∈ (compile false
        "10 FOR i=1 TO 2\n20 GOSUB 30\n30 NEXT:FOR j=1 TO 2:RETURN\n40 NEXT".toList).tables.subroutines,
      ¬ Above 0 (Stmt.stepsOf (p.body s)) := by
  generalize hsource : "10 FOR i=1 TO 2\n20 GOSUB 30\n30 NEXT:FOR j=1 TO 2:RETURN\n40 NEXT".toList = source
  have hrun : (Program.parse false (Token.scan source).tokens source).toOption.any (fun p =>
      (compile false source).result.toOption.isSome && (compile false source).tables.subroutines.any
        fun s => !decide (Above 0 (Stmt.stepsOf (p.body s)))) = true := by
    rw [← hsource]
    decide +kernel
  obtain ⟨p, hp, hrun⟩ := exists_ok_of_any hrun
  obtain ⟨hok, hdip⟩ := (Bool.and_eq_true _ _).mp hrun
  obtain ⟨text, hresult⟩ := exists_ok_of_isSome hok
  obtain ⟨s, hs, hbelow⟩ := List.any_eq_true.1 hdip
  exact ⟨p, text, hp, hresult, s, hs, by simpa using hbelow⟩

end Locomotive
