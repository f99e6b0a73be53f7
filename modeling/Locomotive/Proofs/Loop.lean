import Locomotive.Proofs.Compiler
import Locomotive.Proofs.Emit.Draft
import Locomotive.Proofs.Stmt.Pairing

/-!
# Loops and what closes them

A program is compiled if its blocks pair up by nesting, whatever has opened them: only their number is
kept, and a `NEXT` and a `WEND` are the same brace. So a `WEND` can close a `FOR`, a `NEXT` a `WHILE`,
and the variables of a `NEXT` can be those of other loops. What is kept apart are loops and branches, and
only where no branch closes a block from before it; there, a program with one kind of loops closes each
of them with its own kind of statement.

* `Program.Pairing`: the pairs of all that opens and closes a block.
* `Program.blocks_close_by_depth`: which programs are compiled, and what closes their loops.
-/

namespace Locomotive

namespace Program

/-- The moves of the program. -/
def moves (p : Program) : List Move := Stmt.movesOf p.stmts

/-- All that opens a block, in order. -/
def openers (p : Program) : List Opener := p.moves.flatMap Move.openers

/-- All that closes a block, in order. -/
def closers (p : Program) : List Closer := p.moves.flatMap Move.closers

/-- **The blocks of the program pair up by nesting**: the pairs hold all that closes a block, in order, and all
that opens one, once. -/
structure Pairing (p : Program) (pairs : List (Opener × Closer)) : Prop where
  nested : pairOff [] p.moves = some (pairs, [])
  closers : pairs.map Prod.snd = p.closers
  openers : (pairs.map Prod.fst).Perm p.openers

theorem exists_pairing_iff (p : Program) : (∃ pairs, p.Pairing pairs) ↔ Balanced (Stmt.countsOf p.stmts) := by
  rw [← Stmt.steps_movesOf, ← exists_pairOff_iff]
  constructor
  · rintro ⟨pairs, h⟩
    exact ⟨pairs, h.nested⟩
  · rintro ⟨pairs, h⟩
    obtain ⟨hclosers, hopeners⟩ := pairOff_complete h
    rw [List.append_nil, List.nil_append] at hopeners
    exact ⟨pairs, h, hclosers, hopeners⟩

/-- The pairs of branches and of loops are apart, and what closes a loop is of its kind if all loops are of one kind. -/
structure KeepsApart (p : Program) (pairs : List (Opener × Closer)) : Prop where
  branches : ∀ x ∈ pairs, x.1 = .branch ↔ x.2 = .branch
  counting : .whileLoop ∉ p.openers → ∀ x ∈ pairs, ∀ v, x.2 = .next v → ∃ var, x.1 = .forLoop var
  testing : (∀ var, .forLoop var ∉ p.openers) → ∀ x ∈ pairs, x.2 = .wend → x.1 = .whileLoop

theorem Pairing.keepsApart {p : Program} {pairs : List (Opener × Closer)} (h : p.Pairing pairs)
    (hbranches : ∀ b ∈ Stmt.branchesOf p.stmts, Balanced (Stmt.stepsOf b)) : p.KeepsApart pairs := by
  have hapart := Stmt.pairOff_apart hbranches (by simp) h.nested
  have hopener : ∀ x ∈ pairs, x.1 ∈ p.openers := fun x hx => h.openers.mem_iff.1 (List.mem_map_of_mem hx)
  refine ⟨hapart.pairs, fun hnone x hx v hv => ?_, fun hnone x hx hwend => ?_⟩
  · rcases hfirst : x.1 with var | _ | _
    · exact ⟨var, rfl⟩
    · exact absurd (hfirst ▸ hopener x hx) hnone
    · rw [(hapart.pairs x hx).1 hfirst] at hv
      cases hv
  · rcases hfirst : x.1 with var | _ | _
    · exact absurd (hfirst ▸ hopener x hx) (hnone var)
    · rfl
    · rw [(hapart.pairs x hx).1 hfirst] at hwend
      cases hwend

/-- **Blocks are closed by depth.** The blocks of every program that is generated pair up by nesting, and where no
branch closes a block from before it, loops and branches are kept apart. For a program that is read from a source
this is all that is asked, besides that each branch ends at the depth it starts at: what closes a block is never
compared with what has opened it. -/
theorem blocks_close_by_depth (p : Program) :
    (match p.generate.1 with
      | .error _ => True
      | .ok _ => ∃ pairs, p.Pairing pairs ∧
          ((∀ b ∈ Stmt.branchesOf p.stmts, Above 0 (Stmt.stepsOf b)) → p.KeepsApart pairs)) ∧
    ∀ (strict : Bool) (source : List Char), Program.parse strict (Token.scan source).tokens source = .ok p →
      ((∃ text, p.generate.1 = .ok text) ↔
        (∃ pairs, p.Pairing pairs) ∧ ∀ b ∈ Stmt.branchesOf p.stmts, (Stmt.stepsOf b).sum = 0) := by
  have hnested : p.Nested ↔ (∃ pairs, p.Pairing pairs) ∧ ∀ b ∈ Stmt.branchesOf p.stmts, (Stmt.stepsOf b).sum = 0 := by
    rw [p.nested_iff, p.exists_pairing_iff]
  constructor
  · rcases hgen : p.generate with ⟨why | text, after⟩
    · trivial
    · obtain ⟨o⟩ := Program.exists_draft hgen
      obtain ⟨⟨pairs, hpairs⟩, hback⟩ := hnested.1 o.nested
      exact ⟨pairs, hpairs, fun habove => hpairs.keepsApart fun b hb => ⟨habove b hb, hback b hb⟩⟩
  · intro strict source hparse
    have hproper := Parse.program_proper strict source
    rw [hparse] at hproper
    have hspec := Program.generate_spec hproper
    rw [← hnested]
    rcases hgen : p.generate.1 with why | text <;> rw [hgen] at hspec
    · constructor
      · rintro ⟨text, htext⟩
        cases htext
      · intro h
        exact absurd h hspec.2
    · exact ⟨fun _ => hspec.1, fun _ => ⟨text, rfl⟩⟩

end Program

/-- A program is compiled in which a `WEND` closes a `FOR`. -/
theorem wend_closes_counting_loop : ∃ (p : Program) (text : String) (pairs : List (Opener × Closer)),
    Program.parse false (Token.scan "10 FOR i=1 TO 2\n20 WEND".toList).tokens
        "10 FOR i=1 TO 2\n20 WEND".toList = .ok p ∧
      p.generate.1 = .ok text ∧ pairOff [] p.moves = some (pairs, []) ∧ pairs = [(.forLoop "i", .wend)] ∧
      Closer.fits .wend (.forLoop "i") = false := by
  generalize hsource : "10 FOR i=1 TO 2\n20 WEND".toList = source
  have hrun : (Program.parse false (Token.scan source).tokens source).toOption.any (fun p =>
      p.generate.1.toOption.isSome && pairOff [] p.moves == some ([(.forLoop "i", .wend)], [])) = true := by
    rw [← hsource]
    decide +kernel
  obtain ⟨p, hp, hrun⟩ := exists_ok_of_any hrun
  obtain ⟨hok, hpairs⟩ := (Bool.and_eq_true _ _).mp hrun
  obtain ⟨text, hg⟩ := exists_ok_of_isSome hok
  exact ⟨p, text, _, hp, hg, eq_of_beq hpairs, rfl, rfl⟩

end Locomotive
