import Locomotive.Proofs.Emit.Ledger
import Locomotive.Proofs.Helper
import Locomotive.Proofs.Link

/-!
# Where a `RESTORE` leads

A `RESTORE` leads to the first item of data on the line of its label or behind it. While the lines are
compiled, each `DATA` statement gives its place to the last label if that has none, and in the end the
first place from the label on is looked up. This finds the number of items on the lines before.

* `Stock.from?_lines`: the first place from a label on.
* `Program.restoreIndex`: the item that a `RESTORE` leads to.
* `compile_restores_land`: the entries of the generated program.
-/

namespace Locomotive

open Emit (literals)

/-- The items of the `DATA` statements of a line, in order. -/
def Line.items (l : Line) : List DataItem := (Stmt.dataListsOf l.stmts).flatten

/-- A `DATA` statement stands on the line, also in a branch of an `IF`. -/
def Line.hasData (l : Line) : Bool := !(Stmt.dataListsOf l.stmts).isEmpty

/-- **The item that a `RESTORE` leads to**: if its label is that of a line and there is a `DATA`
statement on this line or behind it, then as many items as stand on the lines before are skipped. -/
def Program.restoreIndex (p : Program) (label : String) : Nat :=
  match p.lines.findIdx? fun l => l.label == some label with
  | none => 0
  | some k => if (p.lines.drop k).any Line.hasData then ((p.lines.take k).flatMap Line.items).length else 0

/-! ## Places in the data -/

namespace Stock

variable {s : Stock} {j : Nat}

/-- The first place in the data from the label with index `j` on. -/
def from? (s : Stock) (j : Nat) : Option Nat := (s.places.drop j).findSome? Prod.snd

/-- A label that enters has no place. -/
theorem from?_enter (label : Option String) (hj : j ≤ s.places.length) : (s.enter label).from? j = s.from? j := by
  cases label with
  | none => rfl
  | some label =>
    unfold from? enter
    rw [List.drop_append_of_le_length hj, List.findSome?_append]
    exact Option.or_none

/-- **A `DATA` statement** gives its place to the last label, unless a place was found before. -/
theorem from?_add (block : List String) (hj : j < s.places.length) :
    (s.add block).from? j = (s.from? j).or (some s.data.length) := by
  obtain ⟨places, data⟩ := s
  have hne : places ≠ [] := List.ne_nil_of_length_pos (Nat.zero_lt_of_lt hj)
  obtain ⟨front, e, rfl⟩ : ∃ front e, places = front ++ [e] := ⟨_, _, (List.dropLast_append_getLast hne).symm⟩
  have hj : j ≤ front.length := by
    rw [List.length_append, List.length_singleton] at hj
    omega
  have hlast : (front ++ [e]).modify ((front ++ [e]).length - 1) (fun e => (e.1, e.2.or (some data.length))) =
      front ++ [(e.1, e.2.or (some data.length))] := by
    rw [List.length_append, List.length_singleton, Nat.add_sub_cancel, List.modify_eq_take_cons_drop (by simp)]
    simp
  unfold from? add
  dsimp only
  rw [hlast, List.drop_append_of_le_length hj, List.drop_append_of_le_length hj, List.findSome?_append,
    List.findSome?_append, List.findSome?_singleton, List.findSome?_singleton, Option.or_assoc]

theorem length_add (block : List String) : (s.add block).places.length = s.places.length := by simp [add]

/-- Several `DATA` statements: the first one counts. -/
theorem from?_blocks (blocks : List (List String)) (hj : j < s.places.length) :
    (blocks.foldl add s).from? j = (s.from? j).or (if blocks.isEmpty then none else some s.data.length) := by
  induction blocks generalizing s with
  | nil => simp
  | cons block blocks ih =>
    rw [List.foldl_cons, ih (by rwa [length_add]), from?_add block hj, Option.or_assoc]
    simp

theorem length_blocks (blocks : List (List String)) : (blocks.foldl add s).places.length = s.places.length := by
  induction blocks generalizing s with
  | nil => rfl
  | cons block blocks ih => rw [List.foldl_cons, ih, length_add]

@[simp] theorem data_enter (label : Option String) : (s.enter label).data = s.data := by cases label <;> rfl

theorem length_enter (label : Option String) :
    (s.enter label).places.length = s.places.length + label.toList.length := by
  cases label <;> simp [enter]

/-- **The data after a line.** -/
theorem data_line (l : Line) : (s.line l).data = s.data ++ l.items.map DataItem.literal := by
  unfold line
  rw [data_foldl, data_enter, literals, Line.items, List.map_flatten]

theorem length_line (l : Line) : (s.line l).places.length = s.places.length + (labelsOf [l]).length := by
  unfold line
  rw [length_blocks, length_enter]
  cases hl : l.label <;> simp [labelsOf, hl]

/-- **The data after lines.** -/
theorem data_lines (ls : List Line) :
    (ls.foldl line s).data = s.data ++ (ls.flatMap Line.items).map DataItem.literal := by
  induction ls generalizing s with
  | nil => simp
  | cons l ls ih => rw [List.foldl_cons, ih, data_line, List.flatMap_cons, List.map_append, List.append_assoc]

theorem length_lines (ls : List Line) : (ls.foldl line s).places.length = s.places.length + (labelsOf ls).length := by
  induction ls generalizing s with
  | nil => rfl
  | cons l ls ih =>
    have hcons : labelsOf (l :: ls) = labelsOf [l] ++ labelsOf ls := List.filterMap_append (l := [l])
    rw [List.foldl_cons, ih, length_line, hcons, List.length_append, Nat.add_assoc]

/-- The statements of a line, whose label has entered. -/
theorem from?_stmts (l : Line) (hj : j < s.places.length) :
    ((literals (Stmt.dataListsOf l.stmts)).foldl add s).from? j =
      (s.from? j).or (if l.hasData then some s.data.length else none) := by
  rw [from?_blocks _ hj]
  cases h : Stmt.dataListsOf l.stmts <;> simp [Line.hasData, literals, h]

/-- A line without `DATA` statements has no items. -/
theorem items_eq_nil {l : Line} (h : l.hasData = false) : l.items = [] := by
  have hnone : Stmt.dataListsOf l.stmts = [] := by simpa [Line.hasData] using h
  rw [Line.items, hnone, List.flatten_nil]

/-- **The first place from a label on**, after more lines: the lines up to the first `DATA`
statement have no items, so it is the end of the data before these lines. -/
theorem from?_lines (ls : List Line) (hj : j < s.places.length) :
    (ls.foldl line s).from? j = (s.from? j).or (if ls.any Line.hasData then some s.data.length else none) := by
  induction ls generalizing s with
  | nil => simp
  | cons l ls ih =>
    have hline : (s.line l).from? j = (s.from? j).or (if l.hasData then some s.data.length else none) := by
      unfold line
      rw [from?_stmts l (by rw [length_enter]; omega), from?_enter _ hj.le, data_enter]
    rw [List.foldl_cons, ih (by rw [length_line]; omega), hline, Option.or_assoc, List.any_cons, data_line]
    cases h : l.hasData with
    | true => simp
    | false => simp [items_eq_nil h]

/-- **The first place from the label of a line on**, in a whole program. -/
theorem from?_program (before after : List Line) {l : Line} {label : String} (hl : l.label = some label) :
    ((before ++ l :: after).foldl line ⟨[], []⟩).from? (labelsOf before).length =
      if (l :: after).any Line.hasData then some (before.flatMap Line.items).length else none := by
  generalize hs : before.foldl line ⟨[], []⟩ = s
  have hlength : s.places.length = (labelsOf before).length := by
    rw [← hs, length_lines]
    exact Nat.zero_add _
  have hdata : s.data.length = (before.flatMap Line.items).length := by
    rw [← hs, data_lines]
    simp
  -- the label enters at the end, without a place
  have hentered : (s.enter l.label).from? (labelsOf before).length = none := by
    rw [from?_enter _ hlength.ge, from?, ← hlength, List.drop_length]
    rfl
  have hlt : (labelsOf before).length < (s.enter l.label).places.length := by
    rw [length_enter, hlength, hl]
    exact Nat.lt_succ_self _
  have hline : (s.line l).from? (labelsOf before).length = if l.hasData then some s.data.length else none := by
    unfold line
    rw [from?_stmts l hlt, hentered, data_enter, Option.none_or]
  rw [List.foldl_append, hs, List.foldl_cons, from?_lines _ (by rw [length_line, ← hlength, labelsOf]; simp [hl]),
    hline, List.any_cons, data_line]
  cases h : l.hasData with
  | true => simp [hdata]
  | false => simp [items_eq_nil h, hdata]

end Stock

/-! ## Looking up the places -/

namespace Tables

/-- The place of a label that stands once among the labels. -/
theorem labelIndex?_eq_some {t : Tables} {label : String} {names names' : List String}
    (h : t.labels.map Label.name = names ++ label :: names') (hnew : label ∉ names') :
    t.labelIndex? label = some names.length := by
  obtain ⟨front, rest, hlabels, rfl, hrest⟩ := List.map_eq_append_iff.1 h
  obtain ⟨l, back, rfl, rfl, rfl⟩ := List.map_eq_cons_iff.1 hrest
  have hback : back.reverse.findIdx? (fun m => m.name == l.name) = none := by
    rw [List.findIdx?_eq_none_iff]
    intro m hm
    rw [beq_eq_false_iff_ne]
    rintro hname
    exact hnew (List.mem_map.2 ⟨m, List.mem_reverse.1 hm, hname⟩)
  unfold labelIndex?
  rw [hlabels, List.reverse_append, List.reverse_cons, List.append_assoc, List.findIdx?_append, hback, Option.none_or,
    List.singleton_append, List.findIdx?_cons]
  simp

theorem labelIndex?_eq_none {t : Tables} {label : String} (h : label ∉ t.labels.map Label.name) :
    t.labelIndex? label = none := by
  unfold labelIndex?
  rw [Option.map_eq_none_iff, List.findIdx?_eq_none_iff]
  intro l hl
  rw [beq_eq_false_iff_ne]
  rintro rfl
  exact h (List.mem_map_of_mem (List.mem_reverse.1 hl))

theorem dataFrom_eq (t : Tables) (j : Nat) : t.dataFrom j = (t.stock.from? j).getD 0 := by
  unfold dataFrom Stock.from? stock
  dsimp only
  rw [← List.map_drop, List.findSome?_map]
  rfl

/-- The data index of a label, zero if there is none. -/
def restoreValue (t : Tables) (label : String) : Nat := ((t.labelIndex? label).map t.dataFrom).getD 0

/-- The warning that a target of a `RESTORE` is missing. It is about no line. -/
def missingTarget (label : String) : Warning := ⟨0, .noRestoreTarget label⟩

/-- **What is noted of the targets** of `RESTORE`s. -/
structure Resolved (t t' : Tables) (targets : List String) : Prop where
  labels : t'.labels = t.labels
  restoreMap : t'.restoreMap = t.restoreMap ++ targets.map fun l => (l, t.restoreValue l)
  warnings : t'.warnings = t.warnings ++ (targets.filter fun l => (t.labelIndex? l).isNone).map missingTarget

/-- One target, which has not been noted yet. -/
theorem resolveRestore_resolved {t : Tables} {label : String} (hnew : label ∉ t.restoreMap.map Prod.fst) :
    Resolved t (t.resolveRestore label) [label] := by
  have hkeep : t.restoreMap.filter (fun e => e.1 != label) = t.restoreMap := by
    refine List.filter_eq_self.2 fun e he => ?_
    rw [bne_iff_ne]
    rintro rfl
    exact hnew (List.mem_map_of_mem he)
  unfold resolveRestore
  cases hindex : t.labelIndex? label with
  | some place =>
    refine ⟨rfl, ?_, ?_⟩
    · simp [setRestore, hkeep, restoreValue, hindex]
    · simp [setRestore, hindex]
  | none =>
    refine ⟨rfl, ?_, ?_⟩
    · simp [setRestore, warn, hkeep, restoreValue, hindex]
    · simp [setRestore, warn, missingTarget, hindex]

/-- **All targets**, by induction over them. -/
theorem resolved_foldl {targets : List String} (hnodup : targets.Nodup) {t : Tables}
    (hnew : ∀ l ∈ targets, l ∉ t.restoreMap.map Prod.fst) : Resolved t (targets.foldl resolveRestore t) targets := by
  induction targets generalizing t with
  | nil => exact ⟨rfl, by simp, by simp⟩
  | cons label targets ih =>
    obtain ⟨hlabel, hnodup⟩ := List.nodup_cons.1 hnodup
    obtain ⟨hfirst, hnew⟩ := List.forall_mem_cons.1 hnew
    have hstep := resolveRestore_resolved hfirst
    have hrest := ih hnodup (t := t.resolveRestore label) fun l hl => by
      rw [hstep.restoreMap, List.map_append, List.mem_append]
      rintro (h | h)
      · exact hnew l hl h
      · obtain rfl : l = label := by simpa using h
        exact hlabel hl
    -- the labels stay as they are, so the other targets have the same indices
    have hindex : (t.resolveRestore label).labelIndex? = t.labelIndex? := by
      funext l
      unfold labelIndex?
      rw [hstep.labels]
    have hvalue : (t.resolveRestore label).restoreValue = t.restoreValue := by
      funext l
      unfold restoreValue dataFrom
      rw [hindex, hstep.labels]
    rw [List.foldl_cons]
    refine ⟨hrest.labels.trans hstep.labels, ?_, ?_⟩
    · rw [hrest.restoreMap, hstep.restoreMap, hvalue, List.append_assoc]
      rfl
    · rw [hrest.warnings, hstep.warnings, hindex, List.append_assoc, ← List.map_append, ← List.filter_append]
      rfl

/-- The labels with a data index are the targets, each once. -/
theorem mem_restoreLabels (t : Tables) (label : String) :
    label ∈ t.restoreLabels ↔ label ∈ t.restoreMap.map Prod.fst := by
  have hany : (t.restoreMap.any fun e => e.1 == label) = true ↔ label ∈ t.restoreMap.map Prod.fst := by simp
  unfold restoreLabels
  rw [List.mem_eraseDups, List.mem_filter, List.mem_append, Text.mem_sorted, hany]
  exact ⟨And.right, fun h => ⟨.inr h, h⟩⟩

end Tables

/-! ## The targets of a program -/

/-- The label that a `RESTORE` names. -/
def Stmt.restoreTarget? : Stmt → Option String
  | restore label => label
  | _ => none

/-- The labels that the `RESTORE`s of a program name, also those in the branches of an `IF`. -/
def Program.restoreTargets (p : Program) : List String :=
  p.lines.flatMap fun l => Stmt.gatherOf Stmt.restoreTarget? l.stmts

/-- The label of a use by a `RESTORE`. -/
def restoreLabel? : String × LabelUse → Option String
  | (label, .restore) => some label
  | (_, .gosub) => none

/-- **The labels that are collected first** are those that the statements name. -/
theorem Stmt.restores_usesOf (ss : List Stmt) : (usesOf ss).filterMap restoreLabel? = gatherOf restoreTarget? ss := by
  refine Hereditary.all (P := fun s => s.uses.filterMap restoreLabel? = s.gather restoreTarget?)
    (Q := fun ss => (usesOf ss).filterMap restoreLabel? = gatherOf restoreTarget? ss) ⟨?_, ?_, rfl, ?_⟩ ss
  · intro s hs
    cases s with
    | branch c yes no => cases hs
    | onGosub selector labels => simp [uses, gather, restoreTarget?, restoreLabel?, List.filterMap_map]
    | restore label => cases label <;> rfl
    | _ => rfl
  · intro c yes no hyes hno
    cases no with
    | none => simp [uses, gather, usesOfElse, gatherElse, hyes]
    | some ss => simp [uses, gather, usesOfElse, gatherElse, hyes, hno ss rfl]
  · intro s ss hs hss
    rw [usesOf, gatherOf, List.filterMap_append, hs, hss]

theorem restores_foldl_use (uses : List (String × LabelUse)) (t : Tables) :
    (uses.foldl (fun t u => t.use u.1 u.2) t).restores = (uses.filterMap restoreLabel?).foldl Tally.add t.restores := by
  induction uses generalizing t with
  | nil => rfl
  | cons u us ih =>
    obtain ⟨label, use⟩ := u
    rw [List.foldl_cons, ih]
    cases use <;> rfl

theorem Program.restores_start (p : Program) : p.start.restores = p.restoreTargets.foldl Tally.add {} := by
  unfold Program.start
  rw [restores_foldl_use, Program.uses, List.filterMap_flatMap]
  simp only [Stmt.restores_usesOf]
  rfl

/-! ## Calls -/

/-- **Statements with a `RESTORE`** call its helper. -/
theorem Stmt.restore_called {ss : List Stmt} {label : String} (h : label ∈ gatherOf restoreTarget? ss) :
    ∀ t, "restore" ∈ Js.Stmt.callsOf (codeOf t ss) := by
  induction ss using Stmt.induct with
  | nil => simp [gatherOf] at h
  | cons s ss hs hss =>
    intro t
    rw [codeOf, Js.Stmt.callsOf_append]
    rw [gatherOf, List.mem_append] at h
    rcases h with h | h
    · have hone := hs (by simpa [gatherOf] using h) t
      rw [codeOf_one] at hone
      exact List.mem_append_left _ hone
    · exact List.mem_append_right _ (hss h _)
  | branch cond yes no hyes hno =>
    intro t
    obtain ⟨t₁, t₂, -, -, -, heq⟩ := branch_eq t cond yes no
    have hparts : label ∈ gatherOf restoreTarget? yes ∨ label ∈ gatherOf restoreTarget? (no.getD []) := by
      cases no <;> simpa [gatherOf, gather, gatherElse] using h
    rw [heq]
    rcases hparts with h | h
    · simp [Js.Stmt.callsOf, Js.Stmt.calls, hyes h t₁]
    · cases no with
      | none => simp [gatherOf] at h
      | some ss =>
        have helse : "restore" ∈ Js.Stmt.callsOf (codeOf t₂ ss) := hno h t₂
        simp [Js.Stmt.callsOf, Js.Stmt.calls, Js.Stmt.callsOfElse, helse]
  | simple s hs =>
    intro t
    cases s with
    | branch => cases hs
    | restore l => simp [codeOf, code, Js.Stmt.callsOf, Js.Stmt.calls, Js.Expr.calls]
    | _ => simp [gatherOf, gather, restoreTarget?] at h

theorem Emit.CompilesAll.restore_called {i : Nat} {ls : List Line} {t t' : Tables} {cs : List LineCode}
    (hc : CompilesAll i ls t cs t') {label : String} (h : ∃ l ∈ ls, label ∈ Stmt.gatherOf Stmt.restoreTarget? l.stmts) :
    ∃ c ∈ cs, "restore" ∈ Js.Stmt.callsOf c.code := by
  induction hc with
  | nil => simp at h
  | @cons i l ls t t₁ _ _ _ c cs _ hc _ ih =>
    rcases (List.exists_mem_cons_iff ..).1 h with h | h
    · refine ⟨c, List.mem_cons_self, ?_⟩
      rw [hc.code]
      exact Stmt.restore_called h t₁
    · obtain ⟨c', hc', hcall⟩ := ih h
      exact ⟨c', List.mem_cons_of_mem _ hc', hcall⟩

/-! ## Programs -/

theorem Text.quoteChar_digit {c : Char} (h : c.isDigit = true) : Text.quoteChar '"' c = [c] := by
  have hrange : 48 ≤ c.toNat ∧ c.toNat ≤ 57 := by
    simp only [Char.isDigit, Bool.and_eq_true, decide_eq_true_eq] at h
    exact h
  have hprintable : Text.isPrintable c = true := by
    unfold Text.isPrintable
    dsimp only
    rw [if_pos (by omega), Bool.and_eq_true, decide_eq_true_eq, decide_eq_true_eq]
    omega
  have hplain : (c == '"' || c == '\\') = false := by
    rw [Bool.or_eq_false_iff, beq_eq_false_iff_ne, beq_eq_false_iff_ne]
    constructor <;> rintro rfl <;> exact absurd h (by decide)
  unfold Text.quoteChar
  rw [hplain, hprintable]
  rfl

/-- A label is quoted as it is. -/
theorem Text.quoted_label {label : String} (h : IsLabel label) : Text.quoted label = "\"" ++ label ++ "\"" := by
  obtain ⟨n, rfl⟩ := h
  have hdigits : ∀ cs : List Char, (∀ c ∈ cs, c.isDigit = true) → cs.flatMap (Text.quoteChar '"') = cs := by
    intro cs hcs
    induction cs with
    | nil => rfl
    | cons c cs ih =>
      obtain ⟨hc, hcs⟩ := List.forall_mem_cons.1 hcs
      rw [List.flatMap_cons, Text.quoteChar_digit hc, ih hcs, List.singleton_append]
  apply String.toList_inj.1
  rw [Text.quoted, String.toList_ofList, hdigits _ fun c hc => isDigit_of_mem_toString hc]
  simp

theorem Stmt.isLabel_restoreTarget {ss : List Stmt} (h : AllProper ss) :
    ∀ l ∈ gatherOf restoreTarget? ss, IsLabel l := by
  revert h
  refine Hereditary.all (P := fun s => s.Proper → ∀ l ∈ s.gather restoreTarget?, IsLabel l)
    (Q := fun ss => AllProper ss → ∀ l ∈ gatherOf restoreTarget? ss, IsLabel l) ⟨?_, ?_, ?_, ?_⟩ ss
  · intro s hs h l hl
    cases s with
    | branch c yes no => cases hs
    | restore label => exact h l (by simpa [gather, restoreTarget?] using hl)
    | _ => simp [gather, restoreTarget?] at hl
  · intro c yes no hyes hno h l hl
    rw [gather, List.mem_append] at hl
    rcases hl with hl | hl
    · exact hyes h.2.1 l hl
    · cases no with
      | none => simp [gatherElse] at hl
      | some ss => exact hno ss rfl h.2.2 l hl
  · intro _ l hl
    simp [gatherOf] at hl
  · intro s ss hs hss h l hl
    rw [gatherOf, List.mem_append] at hl
    exact hl.elim (hs h.1 l) (hss h.2 l)

theorem Program.isLabel_restoreTarget {p : Program} (hp : p.Proper) :
    ∀ label ∈ p.restoreTargets, IsLabel label := by
  intro label hlabel
  obtain ⟨l, hl, hmem⟩ := List.mem_flatMap.1 hlabel
  exact Stmt.isLabel_restoreTarget (hp.line l hl).stmts label hmem

/-- **The place that is found for a label** is that of the item. -/
theorem Tables.restoreValue_eq {t : Tables} {p : Program} (hp : p.Proper)
    (hnames : t.labels.map Label.name = labelsOf p.lines) (hstock : t.stock = p.lines.foldl Stock.line ⟨[], []⟩) (label : String) :
    t.restoreValue label = p.restoreIndex label ∧ ((t.labelIndex? label).isNone = true ↔ label ∉ labelsOf p.lines) := by
  unfold restoreValue Program.restoreIndex
  cases hfind : p.lines.findIdx? fun l => l.label == some label with
  | none =>
    have hnew : label ∉ labelsOf p.lines := by
      intro hmem
      obtain ⟨l, hl, hlabel⟩ := List.mem_filterMap.1 hmem
      have := List.findIdx?_eq_none_iff.1 hfind l hl
      simp [hlabel] at this
    rw [labelIndex?_eq_none (hnames ▸ hnew)]
    exact ⟨rfl, iff_of_true rfl hnew⟩
  | some k =>
    obtain ⟨hk, hlabel, -⟩ := List.findIdx?_eq_some_iff_getElem.1 hfind
    have hlabel : p.lines[k].label = some label := by simpa using hlabel
    have hdrop : p.lines.drop k = p.lines[k] :: p.lines.drop (k + 1) := List.drop_eq_getElem_cons hk
    have hlines : p.lines = p.lines.take k ++ p.lines[k] :: p.lines.drop (k + 1) := by
      rw [← hdrop, List.take_append_drop]
    have hlabels : labelsOf p.lines = labelsOf (p.lines.take k) ++ label :: labelsOf (p.lines.drop (k + 1)) := by
      conv_lhs => rw [hlines]
      unfold labelsOf
      rw [List.filterMap_append, List.filterMap_cons_some hlabel]
    -- the label stands once among the labels
    have hnew : label ∉ labelsOf (p.lines.drop (k + 1)) := by
      have hnodup := hp.nodup
      rw [hlabels] at hnodup
      exact (List.nodup_cons.1 (List.nodup_append.1 hnodup).2.1).1
    have hindex := labelIndex?_eq_some (hnames.trans hlabels) hnew
    rw [hindex]
    refine ⟨?_, iff_of_false (by simp) (by rw [hlabels]; simp)⟩
    have hplace := Stock.from?_program (p.lines.take k) (p.lines.drop (k + 1)) hlabel
    rw [← hlines, ← hstock, ← hdrop] at hplace
    rw [Option.map_some, Option.getD_some, dataFrom_eq, hplace]
    dsimp only
    split <;> rfl

theorem lookup_graph {f : String → Nat} {names : List String} {name : String} (h : name ∈ names) :
    (names.map fun n => (n, f n)).lookup name = some (f name) := by
  induction names with
  | nil => simp at h
  | cons n names ih =>
    by_cases hn : name = n
    · subst hn
      simp
    · rw [List.map_cons, Tally.lookup_cons_of_ne hn]
      exact ih ((List.mem_cons.1 h).resolve_left hn)

namespace Stages

variable {p : Program} {text : String}

/-- **What is noted of the targets** in the end. The warnings before are about other things. -/
structure Restored (o : Stages p text) (targets : List String) (warnings : List Warning) : Prop where
  nodup : targets.Nodup
  mem : ∀ l, l ∈ targets ↔ l ∈ p.restoreTargets
  map : o.tables.restoreMap = targets.map fun l => (l, p.restoreIndex l)
  warned : o.tables.warnings =
    warnings ++ (targets.filter fun l => decide (l ∉ labelsOf p.lines)).map Tables.missingTarget
  other : ∀ w ∈ warnings, ∀ l, w.remark ≠ .noRestoreTarget l

theorem restored (o : Stages p text) (hp : p.Proper) : ∃ targets warnings, o.Restored targets warnings := by
  obtain ⟨t, hrun, htables⟩ := o.lines_eq
  obtain ⟨hstart, hzero⟩ := p.before_start
  obtain ⟨⟨-, hcompiled⟩, -⟩ := (Emit.lines_ends hp.line hstart hzero).of_ok hrun
  have hbooked := ((Emit.lines_compiles 0 p.lines p.start).of_ok hrun).books hp.line
  obtain ⟨gosubs, restores, hempty⟩ := p.start_eq
  have hvalid : t.restores.Valid := by
    rw [hcompiled.restores, p.restores_start]
    exact Tally.valid_foldl _ Tally.valid_nil
  have hmem : ∀ l, l ∈ Text.sorted t.restores.names ↔ l ∈ p.restoreTargets := by
    intro l
    rw [Text.mem_sorted, hcompiled.restores, p.restores_start, Tally.mem_names_foldl]
    simp [Tally.names]
  have hnone : t.restoreMap = [] := by
    rw [hcompiled.restoreMap, hempty]
  have hresolved := Tables.resolved_foldl (Text.nodup_sorted hvalid.nodup) (t := { t with lineNumber := 0 })
    fun l _ => by simp [hnone]
  -- the labels and the data are those of the lines
  have hnames : t.labels.map Label.name = labelsOf p.lines := by
    rw [hcompiled.names, hempty]
    rfl
  have hstock : t.stock = p.lines.foldl Stock.line ⟨[], []⟩ := by
    rw [hbooked.stock, hempty]
    rfl
  have hvalue := fun l => Tables.restoreValue_eq (t := { t with lineNumber := 0 }) hp hnames hstock l
  refine ⟨Text.sorted t.restores.names, t.warnings, Text.nodup_sorted hvalid.nodup, hmem, ?_, ?_, ?_⟩
  · rw [htables]
    refine hresolved.restoreMap.trans ?_
    rw [List.map_congr_left fun l _ => congrArg (Prod.mk l) (hvalue l).1]
    exact congrArg (· ++ _) hnone
  · rw [htables]
    refine hresolved.warnings.trans (congrArg (fun ls : List String => t.warnings ++ ls.map Tables.missingTarget) ?_)
    refine List.filter_congr fun l _ => ?_
    rw [Bool.eq_iff_iff, (hvalue l).2, decide_eq_true_eq]
  · intro w hw l hremark
    have hmissing : t.missingTargets = [] := by
      rw [hbooked.missing, hempty]
      rfl
    have hl : l ∈ t.missingTargets := List.mem_filterMap.2 ⟨w, hw, by rw [hremark]; rfl⟩
    rw [hmissing] at hl
    simp at hl

/-- The data is declared if something is restored. -/
theorem hasData_of_restore (o : Stages p text) (hp : p.Proper) (h : p.restoreTargets ≠ []) : o.tables.hasData = true := by
  obtain ⟨label, hlabel⟩ := List.exists_mem_of_ne_nil _ h
  obtain ⟨l, hl, hmem⟩ := List.mem_flatMap.1 hlabel
  obtain ⟨t, hrun, -⟩ := o.lines_eq
  have hcall := ((Emit.lines_compiles 0 p.lines p.start).of_ok hrun).restore_called ⟨l, hl, hmem⟩
  exact o.hasData_of_mem hp ((o.mem_helperNames_iff hp "restore").2 ⟨by decide, hcall⟩) (.inr rfl)

end Stages

/-- **The data of a program** are the items of its lines, in order. -/
theorem Stages.data_eq {p : Program} {text : String} (o : Stages p text) (hp : p.Proper) :
    o.tables.data = (p.lines.flatMap Line.items).map DataItem.literal := by
  have hstock := congrArg Stock.data (o.stock_eq hp)
  rw [Stock.data_lines] at hstock
  exact hstock

/-- **Where the `RESTORE`s of a program lead**, where `after` are the tables in the end. -/
structure Stages.Lands {p : Program} {text : String} (o : Stages p text) (after : Tables) : Prop where
  /-- The data are the items of all lines, in order. -/
  data : o.tables.data = (p.lines.flatMap Line.items).map DataItem.literal
  /-- There is one entry for each label that a `RESTORE` names, with the index of its item. -/
  entries : p.restoreTargets ≠ [] → ∃ (labels : List String) (behind : String),
    labels.Nodup ∧ (∀ l, l ∈ labels ↔ l ∈ p.restoreTargets) ∧
    text = o.tables.globalText ++ "const _data = [" ++ ", ".intercalate o.tables.data ++
      "];\nconst _restoreMap = \x7b" ++
      ", ".intercalate (labels.map fun l => "\"" ++ l ++ "\": " ++ toString (p.restoreIndex l)) ++
      "\x7d;\nlet _dataPtr = 0;\n" ++ behind
  /-- A label is said to be missing exactly if it is that of no line. -/
  missing : ∀ l ∈ p.restoreTargets, (∃ w ∈ after.warnings, w.remark = .noRestoreTarget l ∧
    w.text = "RESTORE target " ++ l ++ " does not exist") ↔ l ∉ labelsOf p.lines

/-- The entries of the table. -/
theorem Stages.restoreEntries_eq {p : Program} {text : String} (o : Stages p text) (hp : p.Proper) :
    ∃ labels : List String, labels.Nodup ∧ (∀ l, l ∈ labels ↔ l ∈ p.restoreTargets) ∧ o.tables.restoreEntries =
      ", ".intercalate (labels.map fun l => "\"" ++ l ++ "\": " ++ toString (p.restoreIndex l)) := by
  obtain ⟨targets, -, -, hmem, hmap, -, -⟩ := o.restored hp
  have hlabels : ∀ l, l ∈ o.tables.restoreLabels ↔ l ∈ p.restoreTargets := by
    intro l
    rw [Tables.mem_restoreLabels, hmap, List.map_map, ← hmem]
    simp
  refine ⟨o.tables.restoreLabels, nodup_eraseDups _, hlabels, ?_⟩
  unfold Tables.restoreEntries
  refine congrArg _ (List.map_congr_left fun l hl => ?_)
  have htarget := (hlabels l).1 hl
  have hcolon : "\"" ++ ": " = "\": " := by decide
  rw [hmap, lookup_graph ((hmem l).2 htarget), Text.quoted_label (Program.isLabel_restoreTarget hp l htarget),
    Option.getD_some, ← hcolon]
  simp only [String.append_assoc]

/-- **A `RESTORE` leads to the right item** in every generated program: to the first one on the line of its
label or behind it, which is the one after all items on the lines before. -/
theorem compile_restores_land (strict : Bool) (source : List Char) :
    match (compile strict source).result with
    | .error _ => True
    | .ok text => ∃ (p : Program) (o : Stages p text), Program.parse strict (Token.scan source).tokens source = .ok p ∧
      o.Lands (compile strict source).tables := by
  rcases hresult : (compile strict source).result with why | text
  · trivial
  obtain ⟨p, ⟨o⟩, h⟩ := compile_accepted hresult
  refine ⟨p, o, h.parsed, ?_, ?_, ?_⟩
  · exact o.data_eq h.proper
  · intro hne
    obtain ⟨labels, hnodup, hmem, hentries⟩ := o.restoreEntries_eq h.proper
    obtain ⟨body, -, htext⟩ := o.exists_body h.proper
    have hsections := htext.trans (Tables.around_data (o.hasData_of_restore h.proper hne) body)
    refine ⟨labels, body ++ o.tables.helperText, hnodup, hmem, hsections.trans ?_⟩
    rw [hentries]
    simp only [String.append_assoc]
  · intro l hl
    obtain ⟨targets, warnings, -, hmem, -, hwarnings, hother⟩ := o.restored h.proper
    obtain ⟨n, hafter⟩ := o.complains h.proper h.generated
    rw [h.tables, hafter]
    dsimp only
    rw [hwarnings]
    constructor
    · rintro ⟨w, hw, hremark, -⟩
      rcases List.mem_append.1 hw with hw | hw
      · rcases List.mem_append.1 hw with hw | hw
        · exact absurd hremark (hother w hw l)
        · obtain ⟨l', hl', rfl⟩ := List.mem_map.1 hw
          obtain rfl : l' = l := by simpa [Tables.missingTarget] using hremark
          simpa using (List.mem_filter.1 hl').2
      · -- the last warnings are about subroutines
        obtain ⟨line, -, hw⟩ := List.mem_flatMap.1 hw
        obtain ⟨r, -, hw⟩ := List.mem_flatMap.1 hw
        obtain ⟨l', -, rfl⟩ := List.mem_map.1 hw
        cases hremark
    · intro hnew
      refine ⟨Tables.missingTarget l, ?_, rfl, rfl⟩
      refine List.mem_append_left _ (List.mem_append_right _ (List.mem_map_of_mem ?_))
      exact List.mem_filter.2 ⟨(hmem l).2 hl, by simpa using hnew⟩

end Locomotive
