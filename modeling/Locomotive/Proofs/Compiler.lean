import Locomotive.Compiler
import Locomotive.Proofs.Emit.Program
import Locomotive.Proofs.Stmt.Sound

/-!
# Which programs are compiled

A source text that is read as a program is compiled exactly if the blocks of the program are
nested. So no operator, function, command or statement is ever found to have no code, the
labels never come out of order, and nothing is looked up where there is nothing.

* `Program.generate_spec`: what becomes of a program with proper lines.
* `compile_accepted`: the program of a source text that is compiled.
* `compile_fails_only_for_nesting`: what becomes of a source text.
-/

namespace Locomotive

/-- The text of a program with proper lines, or why there is none. -/
theorem Program.generate_spec {p : Program} (hp : p.Proper) :
    match p.generate.1 with
    | .ok text => p.Nested ∧ Nonempty (Stages p text)
    | .error why => why.IsNesting ∧ ¬ p.Nested := by
  have h := Emit.program_ends hp
  unfold Emit.Ends at h
  unfold Program.generate
  split at h
  · rename_i hrun
    rw [hrun]
    exact h
  · rename_i hrun
    rw [hrun]
    exact h

theorem compile_result (strict : Bool) (source : List Char) : (compile strict source).result =
    match (Token.scan source).error with
    | some (line, why) => .error (.scan line why)
    | none =>
      match Program.parse strict (Token.scan source).tokens source with
      | .error why => .error (.parse why)
      | .ok p => p.generate.1.mapError .generate := by
  unfold compile
  dsimp only
  rcases (Token.scan source).error with _ | ⟨line, why⟩
  · rcases Program.parse strict (Token.scan source).tokens source with why | p <;> rfl
  · rfl

/-- A source text that is compiled is scanned to its end. -/
theorem scan_of_compile {strict : Bool} {source : List Char} {text : String}
    (h : (compile strict source).result = .ok text) : (Token.scan source).error = none := by
  rw [compile_result] at h
  rcases hscan : (Token.scan source).error with _ | ⟨line, why⟩
  · rfl
  · rw [hscan] at h
    cases h

/-- **A source text that is compiled**: the program that is read from it, and what becomes of it. -/
structure Accepted (strict : Bool) (source : List Char) (p : Program) (text : String) : Prop where
  parsed : Program.parse strict (Token.scan source).tokens source = .ok p
  proper : p.Proper
  nested : p.Nested
  generated : p.generate.1 = .ok text
  tables : (compile strict source).tables = p.generate.2

/-- A source text that is compiled is read as a program, which goes through all stages. -/
theorem compile_accepted {strict : Bool} {source : List Char} {text : String}
    (h : (compile strict source).result = .ok text) :
    ∃ p, Nonempty (Stages p text) ∧ Accepted strict source p text := by
  have hparse := Parse.program_proper strict source
  have htables : ∀ p, (Token.scan source).error = none →
      Program.parse strict (Token.scan source).tokens source = .ok p →
      (compile strict source).tables = p.generate.2 := by
    intro p hscan hp
    unfold compile
    dsimp only
    rw [hscan]
    dsimp only
    rw [hp]
  rw [compile_result] at h
  rcases hscan : (Token.scan source).error with _ | ⟨line, why⟩ <;> rw [hscan] at h
  · rcases hp : Program.parse strict (Token.scan source).tokens source with why | p <;> rw [hp] at hparse h
    · cases h
    · have hgen := Program.generate_spec hparse
      dsimp only at h
      rcases hg : p.generate.1 with why | out <;> rw [hg] at hgen h
      · cases h
      · cases h
        exact ⟨p, hgen.2, ⟨hp, hparse, hgen.1, hg, htables p hscan hp⟩⟩
  · cases h

/-- **What becomes of a source text.** If its tokens are no program, a token is to blame. If
they are one, code is generated for it exactly if its blocks are nested, and no failure is
about anything but their nesting. -/
theorem compile_fails_only_for_nesting (strict : Bool) (source : List Char) :
    (match Program.parse strict (Token.scan source).tokens source with
      | .error why => why.Rejects
      | .ok p =>
        match p.generate.1 with
        | .ok _ => p.Nested
        | .error why => why.IsNesting ∧ ¬ p.Nested) ∧
    match (compile strict source).result with
    | .ok _ => True
    | .error (.scan _ _) => True
    | .error (.parse why) => why.Rejects
    | .error (.generate why) => why.IsNesting := by
  have hparse := Parse.program_proper strict source
  rw [compile_result]
  rcases hp : Program.parse strict (Token.scan source).tokens source with why | p <;> rw [hp] at hparse
  · refine ⟨hparse, ?_⟩
    rcases (Token.scan source).error with _ | ⟨line, scanError⟩
    · exact hparse
    · trivial
  · have hgen := Program.generate_spec hparse
    dsimp only
    rcases hg : p.generate.1 with why | text <;> rw [hg] at hgen
    · refine ⟨hgen, ?_⟩
      rcases (Token.scan source).error with _ | ⟨line, scanError⟩
      · exact hgen.1
      · trivial
    · refine ⟨hgen.1, ?_⟩
      rcases (Token.scan source).error with _ | ⟨line, scanError⟩ <;> trivial

end Locomotive
