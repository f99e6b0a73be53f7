import Locomotive.Proofs.Stmt.Reads

/-!
# Names of functions

A name that starts with `fn` is the name of a function: in an expression it is a call, and it cannot be assigned to,
read, input or given to an external command for its result. This is so for any tokens that are read as a program. The
names after `FOR`, `NEXT`, `DIM` and `ERASE` and those of parameters are not looked at, so there the name of a function
can stand for a variable.

* `Stmt.Mentions`, `Stmt.named`, `Stmt.Calls`: where the names of variables and functions stand.
* `Parse.Reads.apart`: whatever is read keeps them apart in expressions.
* `Program.parse_keeps_names_apart`: a whole program.
-/

namespace Locomotive

open Locomotive.Expr (Within)

/-- The name of a variable or an array. -/
def Expr.variable? : Expr → Option String
  | var name => some name
  | index name _ => some name
  | _ => none

theorem Expr.NameApart.isFnName_eq_false {e : Expr} (h : e.NameApart) {name : String} (hname : e.variable? = some name) :
    Parse.isFnName name = false := by
  cases e with
  | var | index =>
    obtain rfl := Option.some.inj hname
    exact h
  | _ => cases hname

namespace Stmt

/-- **The name is that of a variable or an array in an expression** of the statement. What an assignment, `READ` or
`INPUT` stores to is such an expression, and so is an argument after `@`. -/
def Mentions (s : Stmt) (name : String) : Prop := ∃ e ∈ s.exprs, ∃ n, Within n e ∧ n.variable? = some name

/-- **The name is that of a function that is called.** -/
def Calls (s : Stmt) (name : String) : Prop := ∃ e ∈ s.exprs, ∃ args, Within (.fn name args) e

/-- **The names of variables and arrays that stand by themselves**: those of loops, of arrays that are made or erased,
and of parameters. -/
def named : Stmt → List String
  | forLoop var _ _ _ => [var]
  | next vars => vars
  | dim arrays => arrays.filterMap Expr.variable?
  | erase names => names
  | defFn _ params _ => params
  | _ => []

end Stmt

/-- All statements of a program. -/
def Program.nodes (p : Program) : List Stmt := p.lines.flatMap fun l => Stmt.nodesOf l.stmts

/-- The name stands for a variable or an array somewhere in the program. -/
def Program.HasVariable (p : Program) (name : String) : Prop := ∃ s ∈ p.nodes, s.Mentions name ∨ name ∈ s.named

/-! ## What is read -/

namespace Parse

/-- A statement other than `IF`. -/
theorem simple_apart {s : Setting} {t : Token} {ts : List Token} {q : Parsed Stmt ts} (h : simple s t ts = .ok q) :
    ∀ e ∈ q.value.exprs, e.Apart := by
  cases of_simple h with
  | unsupported _ _ _ _ _ _ _ _ _ hvalue | data _ _ hvalue | comment _ hvalue => rw [hvalue]; exact List.forall_mem_nil _
  | plain hsound => exact hsound.apart

/-- **Whatever is read** keeps variables and functions apart in its expressions, at any depth. -/
theorem Reads.apart {s : Setting} {b : Bool} {ts rest : List Token} {ss : List Stmt} (h : Reads s (.stmts b) ts ss rest) :
    ∀ st ∈ Stmt.nodesOf ss, ∀ e ∈ st.exprs, e.Apart := by
  refine Reads.holds (P := fun ss => ∀ st ∈ Stmt.nodesOf ss, ∀ e ∈ st.exprs, e.Apart) (Q := fun _ => True) (fun _ => id)
    (List.forall_mem_nil _) (fun _ hq hss => List.forall_mem_append.2 ⟨?_, hss⟩)
    (fun _ hc hyes hno hss => List.forall_mem_append.2 ⟨List.forall_mem_cons.2 ⟨?_, ?_⟩, hss⟩) (fun _ _ hq => ?_) h trivial
  · rw [Stmt.nodes_of_not_branch (simple_isBranch hq)]
    exact List.forall_mem_singleton.2 (simple_apart hq)
  · have hcond := ((expressionOf_takes (K := Any) .number _ fun _ _ => trivial).of_ok (read_eq_ok hc)).1.apart
    exact List.forall_mem_singleton.2 hcond
  · refine List.forall_mem_append.2 ⟨hyes, ?_⟩
    split
    · exact List.forall_mem_nil _
    · exact hno
  · obtain ⟨⟨text, hvalue⟩, -⟩ := of_unsupported (read_eq_ok hq)
    rw [hvalue]
    exact List.forall_mem_singleton.2 (List.forall_mem_nil _)

end Parse

namespace Program

/-- **How names are kept apart.** -/
structure NamesApart (p : Program) : Prop where
  /-- No variable in an expression has the name of a function, be it read or stored to. -/
  mentioned : ∀ s ∈ p.nodes, ∀ name, s.Mentions name → Parse.isFnName name = false
  /-- What is called has the name of a function, which is `fn` alone only if a name is empty. -/
  called : ∀ s ∈ p.nodes, ∀ name, s.Calls name → Parse.isFnName name = true ∨ name = "fn"
  /-- So no variable at all has the name of a function exactly if none does that stands by itself. -/
  everywhere : (∀ name, p.HasVariable name → Parse.isFnName name = false) ↔
    ∀ s ∈ p.nodes, ∀ name ∈ s.named, Parse.isFnName name = false
  /-- And then nothing is a variable in one place and called in another. -/
  apart : (∀ s ∈ p.nodes, ∀ name ∈ s.named, Parse.isFnName name = false) →
    ∀ name, p.HasVariable name → ∀ s ∈ p.nodes, s.Calls name → name = "fn"

/-- **Names of functions are kept apart from those of variables** in whatever is read as a program. -/
theorem parse_keeps_names_apart {strict : Bool} {tokens : List Token} {source : List Char} {p : Program}
    (h : Program.parse strict tokens source = .ok p) : p.NamesApart := by
  have hapart : ∀ s ∈ p.nodes, ∀ e ∈ s.exprs, e.Apart := by
    intro s hs
    obtain ⟨l, hl, hs⟩ := List.mem_flatMap.1 hs
    obtain ⟨t, r, -, hline⟩ := Parse.lines_reads (lines_of_parse h) l hl
    obtain ⟨rest, hreads⟩ := hline.stmts
    exact hreads.apart s hs
  have hmentioned : ∀ s ∈ p.nodes, ∀ name, s.Mentions name → Parse.isFnName name = false := by
    rintro s hs name ⟨e, he, n, hn, hname⟩
    exact (hapart s hs e he n hn).isFnName_eq_false hname
  have hcalled : ∀ s ∈ p.nodes, ∀ name, s.Calls name → Parse.isFnName name = true ∨ name = "fn" := by
    rintro s hs name ⟨e, he, args, hn⟩
    exact hapart s hs e he _ hn
  have hvariables : (∀ s ∈ p.nodes, ∀ name ∈ s.named, Parse.isFnName name = false) →
      ∀ name, p.HasVariable name → Parse.isFnName name = false := by
    rintro hnamed name ⟨s, hs, hname | hname⟩
    · exact hmentioned s hs name hname
    · exact hnamed s hs name hname
  refine ⟨hmentioned, hcalled, ⟨fun hall s hs name hname => hall name ⟨s, hs, .inr hname⟩, hvariables⟩, ?_⟩
  intro hnamed name hvariable s hs hcalls
  have hfalse := hvariables hnamed name hvariable
  exact (hcalled s hs name hcalls).resolve_left fun htrue => Bool.false_ne_true (hfalse.symm.trans htrue)

/-- A function, its parameter and the variables of a branch. -/
theorem parse_keeps_names_apart_branch : ∃ p,
    Program.parse false (Token.scan "10 DEF FNa(x)=x+1:IF b THEN READ y(2) ELSE PRINT FNa(y(1))".toList).tokens
      "10 DEF FNa(x)=x+1:IF b THEN READ y(2) ELSE PRINT FNa(y(1))".toList = .ok p ∧
    p.nodes.flatMap Stmt.named = ["x"] ∧ p.NamesApart := by
  generalize hsource : "10 DEF FNa(x)=x+1:IF b THEN READ y(2) ELSE PRINT FNa(y(1))".toList = source
  have hrun : (Program.parse false (Token.scan source).tokens source).toOption.any (fun p =>
      p.nodes.flatMap Stmt.named == ["x"]) = true := by
    rw [← hsource]
    decide +kernel
  obtain ⟨p, hp, hrun⟩ := exists_ok_of_any hrun
  exact ⟨p, hp, eq_of_beq hrun, parse_keeps_names_apart hp⟩

/-- **A loop can count with the name of a function**, and inside of it the name is a call. -/
theorem loop_counts_with_function_name : ∃ p,
    Program.parse false (Token.scan "10 FOR fni=1 TO 2:PRINT fni:NEXT fni".toList).tokens
      "10 FOR fni=1 TO 2:PRINT fni:NEXT fni".toList = .ok p ∧
    Parse.isFnName "fni" = true ∧ p.HasVariable "fni" ∧ ∃ s ∈ p.nodes, s.Calls "fni" := by
  generalize hsource : "10 FOR fni=1 TO 2:PRINT fni:NEXT fni".toList = source
  have hrun : (Program.parse false (Token.scan source).tokens source).toOption.any (fun p =>
      p.nodes.any (fun s => s.named.contains "fni") && p.nodes.any (fun s => s.exprs.any fun
        | .fn name _ => name == "fni"
        | _ => false)) = true := by
    rw [← hsource]
    decide +kernel
  obtain ⟨p, hp, hrun⟩ := exists_ok_of_any hrun
  obtain ⟨hnamed, hcalls⟩ := (Bool.and_eq_true _ _).mp hrun
  obtain ⟨s, hs, hname⟩ := List.any_eq_true.1 hnamed
  obtain ⟨s', hs', hcall⟩ := List.any_eq_true.1 hcalls
  obtain ⟨e, he, hfn⟩ := List.any_eq_true.1 hcall
  refine ⟨p, hp, by decide, ⟨s, hs, .inr (List.contains_iff_mem.1 hname)⟩, s', hs', e, he, ?_⟩
  cases e with
  | fn name args =>
    rw [eq_of_beq hfn]
    exact ⟨args, .self⟩
  | _ => cases hfn

end Program

end Locomotive
