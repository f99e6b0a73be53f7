import Locomotive.Proofs.Emit.Note
import Locomotive.Proofs.Emit.Program

/-!
# What a program leaves in the tables

The lines of a program one after the other: a label enters the tables without a place in the data,
and the `DATA` statements that follow give it one. The helpers that are noted in the end are those
that the code of some line calls, and the calls and definitions of all lines are in order.

* `Stock.line`: the labels and the data after a line.
* `Emit.CompilesAll.books`: what lines leave in the tables.
* `Stages.stock_eq`, `Stages.called`: the same for a program.
-/

namespace Locomotive

open Emit (Called literals Sequenced)

namespace Stock

/-- A line begins. Its label has no place in the data yet. -/
def enter (s : Stock) : Option String → Stock
  | none => s
  | some label => { s with places := s.places ++ [(label, none)] }

/-- A line is compiled: its label comes first, then its `DATA` statements. -/
def line (s : Stock) (l : Line) : Stock := (literals (Stmt.dataListsOf l.stmts)).foldl add (s.enter l.label)

end Stock

/-- **What lines leave in the tables**, where `cs` are their codes. -/
structure Booked (t t' : Tables) (ls : List Line) (cs : List LineCode) : Prop where
  stock : t'.stock = ls.foldl Stock.line t.stock
  sites : t.callSites <+: t'.callSites
  missing : t'.missingTargets = t.missingTargets
  called : ∃ names, t'.helpers = names.foldl Tally.add t.helpers ∧
    Called (cs.flatMap LineCode.code) names t'.callSites
  sequenced : Sequenced t.asyncFns t'.asyncFns (ls.flatMap fun l => Stmt.functionsOf l.stmts)
    (cs.flatMap fun c => Js.Stmt.eventsOf c.code)

namespace Booked

variable {t t' t'' : Tables} {ls ls' : List Line} {cs cs' : List LineCode}

theorem nil (t : Tables) : Booked t t [] [] where
  stock := rfl
  sites := List.prefix_refl _
  missing := rfl
  called := ⟨[], rfl, .nil, by simp [Js.Stmt.selectionsOf]⟩
  sequenced := .of_calls []

/-- Lines after other lines. -/
theorem trans (h : Booked t t' ls cs) (h' : Booked t' t'' ls' cs') : Booked t t'' (ls ++ ls') (cs ++ cs') where
  stock := by rw [h'.stock, h.stock, List.foldl_append]
  sites := h.sites.trans h'.sites
  missing := h'.missing.trans h.missing
  called := by
    obtain ⟨names, hhelpers, hcalled⟩ := h.called
    obtain ⟨names', hhelpers', hcalled'⟩ := h'.called
    refine ⟨names ++ names', ?_, ?_⟩
    · rw [hhelpers', hhelpers, List.foldl_append]
    · rw [List.flatMap_append]
      exact (hcalled.mono h'.sites).append hcalled'
  sequenced := by
    rw [List.flatMap_append, List.flatMap_append]
    exact h.sequenced.append h'.sequenced

end Booked

namespace Emit

/-- **One line.** -/
theorem Compiles.books {i : Nat} {l : Line} {t t₁ t₂ t' : Tables} {c : LineCode} (h : Compiles i l t t₁ t₂ c t')
    (hl : l.Proper) : Booked t t' [l] [c] := by
  obtain ⟨hcalled, hsequenced⟩ := Stmt.accounted hl.stmts t₁
  have hdoes := h.does
  have hblocks := Stmt.blocks_deeds l.stmts t₁
  have hstock := hdoes.stock
  rw [hblocks] at hstock
  rw [← h.performed] at hcalled hsequenced
  have hsites := h.sites
  obtain ⟨new₂, hws₂, hplain₂⟩ := hdoes.warnings
  have hhelpers := hdoes.helpers
  have hmissing := Tables.missingTargets_append hws₂ hplain₂
  obtain ⟨labels, openSub, new₃, rfl, hplaces, hplain₃, -⟩ := h.ended
  obtain rfl := h.code
  obtain ⟨new₁, rfl, hplain₁⟩ := h.entered
  refine ⟨?_, ⟨_, hsites.symm⟩, ?_, ⟨_, hhelpers, ?_⟩, ?_⟩
  · have hkept : Tables.stock { t₂ with labels, openSub, warnings := t₂.warnings ++ new₃ } = t₂.stock := by
      unfold Tables.stock
      rw [hplaces]
    rw [hkept, hstock, List.foldl_cons, List.foldl_nil, Stock.line]
    congr 1
    cases l.label <;> simp [Tables.stock, Stock.enter]
  · exact (Tables.missingTargets_append (t := t₂) rfl hplain₃).trans (hmissing.trans (Tables.missingTargets_append rfl hplain₁))
  · rw [List.flatMap_singleton]
    exact hcalled
  · rw [List.flatMap_singleton, List.flatMap_singleton]
    exact hsequenced

/-- **All lines**, by induction over them. -/
theorem CompilesAll.books {ls : List Line} {i : Nat} {t t' : Tables} {cs : List LineCode} (h : CompilesAll i ls t cs t')
    (hls : ∀ l ∈ ls, l.Proper) : Booked t t' ls cs := by
  induction h with
  | nil => exact .nil _
  | cons _ hc _ ih =>
    obtain ⟨hl, hls⟩ := List.forall_mem_cons.1 hls
    exact (hc.books hl).trans (ih hls)

end Emit

/-! ## Programs -/

namespace Stages

variable {p : Program} {text : String}

/-- What the lines of the program have left in the tables before the data indices are noted. -/
theorem booked (o : Stages p text) (hp : p.Proper) :
    ∃ t, Booked p.start t p.lines o.codes ∧ o.tables = t.finish := by
  obtain ⟨t, hrun, htables⟩ := o.lines_eq
  exact ⟨t, ((Emit.lines_compiles 0 p.lines p.start).of_ok hrun).books hp.line, htables⟩

/-- **The labels and the data** of a program. -/
theorem stock_eq (o : Stages p text) (hp : p.Proper) :
    o.tables.stock = p.lines.foldl Stock.line ⟨[], []⟩ := by
  obtain ⟨t, hbooked, htables⟩ := o.booked hp
  obtain ⟨restoreMap, new, lineNumber, hfinish, -⟩ := t.finish_eq
  obtain ⟨gosubs, restores, hstart⟩ := p.start_eq
  have hstock := hbooked.stock
  rw [hstart] at hstock
  rw [htables, hfinish]
  exact hstock

/-- **The helpers** of a program are those that its code calls. -/
theorem called (o : Stages p text) (hp : p.Proper) : ∃ names,
    o.tables.helpers = names.foldl Tally.add {} ∧
      Called (o.codes.flatMap LineCode.code) names o.tables.callSites := by
  obtain ⟨t, hbooked, htables⟩ := o.booked hp
  obtain ⟨restoreMap, new, lineNumber, hfinish, -⟩ := t.finish_eq
  obtain ⟨gosubs, restores, hstart⟩ := p.start_eq
  obtain ⟨names, hhelpers, hcalled⟩ := hbooked.called
  rw [hstart] at hhelpers
  rw [htables, hfinish]
  exact ⟨names, hhelpers, hcalled⟩

end Stages

end Locomotive
