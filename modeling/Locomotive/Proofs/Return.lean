import Locomotive.Proofs.Link
import Locomotive.Proofs.Opening

/-!
# Where a subroutine ends

A line with a `RETURN` outside of any `IF` ends the open subroutine if as many loops are open behind the line
as at the label. The depth at the `RETURN` itself is not looked at. So a loop that is opened and closed around a
`RETURN` on one line does not keep the subroutine open, and one that is opened behind a `RETURN` on its line does.

* `Program.returnsAt`: the depths at the `RETURN`s of a line.
* `Program.EndsAt`, `Program.EndsInside`: the depth of the line, and the depth at a `RETURN`.
* `compile_subroutine_ends_by_line`: which line a subroutine ends at, and where the two agree.
-/

namespace Locomotive

/-- How many loops are open at each `RETURN` outside of any `IF`, if `depth` loops are open before the statements. -/
def returnDepths (depth : Int) : List Stmt → List Int
  | [] => []
  | s :: ss => (if s.isReturn then [depth] else []) ++ returnDepths (depth + s.steps.sum) ss

theorem returnDepths_eq_nil {depth : Int} {ss : List Stmt} :
    returnDepths depth ss = [] ↔ ss.any Stmt.isReturn = false := by
  induction ss generalizing depth with
  | nil => simp [returnDepths]
  | cons s ss ih =>
    rw [returnDepths, List.append_eq_nil_iff, ih, List.any_cons, Bool.or_eq_false_iff]
    cases s.isReturn <;> simp

namespace Program

/-- The label of a line, if a `GOSUB` refers to it. -/
def targetAt (p : Program) (k : Nat) : Option String :=
  (p.lines[k]?.bind Line.label).filter fun name => (p.uses.filterMap gosubLabel?).contains name

/-- How many loops are open at each `RETURN` of a line. -/
def returnsAt (p : Program) (i : Nat) : List Int :=
  returnDepths (depthAt p.lines i) ((p.lines[i]?.map Line.stmts).getD [])

/-- The line has a `RETURN`, and as many loops are open behind it as at the line of the label. -/
def EndsAt (p : Program) (label i : Nat) : Prop :=
  p.returnsAt i ≠ [] ∧ depthAt p.lines (i + 1) = depthAt p.lines label

/-- The line has a `RETURN` at which as many loops are open as at the line of the label. -/
def EndsInside (p : Program) (label i : Nat) : Prop := depthAt p.lines label ∈ p.returnsAt i

/-- The line is that of the label, or follows it with no other target of a `GOSUB` in between. -/
def Reaches (p : Program) (label i : Nat) : Prop := label ≤ i ∧ ∀ j, label < j → j ≤ i → p.targetAt j = none

/-- **The first line from a label on**, before the next target of a `GOSUB`, with the property `R`. -/
structure First (p : Program) (label : Nat) (R : Nat → Prop) (i : Nat) : Prop where
  reaches : p.Reaches label i
  here : R i
  before : ∀ j, label ≤ j → j < i → ¬ R j

/-- Only the lines that are reached matter. -/
theorem First.congr {p : Program} {label i : Nat} {R R' : Nat → Prop} (h : ∀ j, p.Reaches label j → (R j ↔ R' j)) :
    p.First label R i ↔ p.First label R' i := by
  have hpart : ∀ {i j}, p.Reaches label i → label ≤ j → j < i → p.Reaches label j := fun hi hle hlt =>
    ⟨hle, fun m hm hmj => hi.2 m hm (by omega)⟩
  constructor
  · rintro ⟨hreach, hR, hno⟩
    exact ⟨hreach, (h i hreach).1 hR, fun j hle hlt hj => hno j hle hlt ((h j (hpart hreach hle hlt)).2 hj)⟩
  · rintro ⟨hreach, hR, hno⟩
    exact ⟨hreach, (h i hreach).2 hR, fun j hle hlt hj => hno j hle hlt ((h j (hpart hreach hle hlt)).1 hj)⟩

/-- The two agree on a line with the depth of its end at all its `RETURN`s. -/
theorem endsAt_iff_endsInside {p : Program} {i : Nat} (h : ∀ d ∈ p.returnsAt i, d = depthAt p.lines (i + 1))
    (label : Nat) : p.EndsAt label i ↔ p.EndsInside label i := by
  constructor
  · rintro ⟨hne, hdepth⟩
    obtain ⟨d, hd⟩ := List.exists_mem_of_ne_nil _ hne
    rw [EndsInside, ← hdepth, ← h d hd]
    exact hd
  · intro hmem
    exact ⟨List.ne_nil_of_mem hmem, (h _ hmem).symm⟩

theorem targetAt_eq_some {p : Program} {k : Nat} {name : String} (h : p.targetAt k = some name) :
    ∃ l, p.lines[k]? = some l ∧ l.label = some name := by
  obtain ⟨hlabel, -⟩ := Option.filter_eq_some_iff.1 h
  exact Option.bind_eq_some_iff.1 hlabel

/-- Labels are different, so a line is known by its label. -/
theorem line_unique {p : Program} (hp : p.Proper) {j k : Nat} {l l' : Line} {name : String}
    (hl : p.lines[j]? = some l) (hl' : p.lines[k]? = some l') (hname : l.label = some name)
    (hname' : l'.label = some name) : j = k := by
  have hpair := List.pairwise_iff_getElem.1 (List.pairwise_filterMap.1 hp.nodup)
  obtain ⟨hj, rfl⟩ := List.getElem?_eq_some_iff.1 hl
  obtain ⟨hk, rfl⟩ := List.getElem?_eq_some_iff.1 hl'
  rcases Nat.lt_trichotomy j k with hlt | heq | hgt
  · exact absurd rfl (hpair j k hj hk hlt name hname name hname')
  · exact heq
  · exact absurd rfl (hpair k j hk hj hgt name hname' name hname)

end Program

namespace Stages

variable {p : Program} {text : String}

theorem filter_isTarget (o : Stages p text) (hp : p.Proper) {k : Nat} {l : Line}
    (hl : p.lines[k]? = some l) : l.label.filter o.tables.isTarget = p.targetAt k := by
  have htarget : o.tables.isTarget = fun name => (p.uses.filterMap gosubLabel?).contains name := by
    funext name
    rw [Bool.eq_iff_iff, List.contains_iff_mem, ← List.count_pos_iff, ← o.count_gosubs hp]
    simp [Tables.isTarget, Tally.has, Nat.pos_iff_ne_zero]
  rw [Program.targetAt, htarget, hl, Option.bind_some]

theorem returns_iff (o : Stages p text) (hp : p.Proper) (i : Nat) :
    (∃ c, o.codes[i]? = some c ∧ c.returns = true) ↔ p.returnsAt i ≠ [] := by
  obtain ⟨t, hrun, -⟩ := o.lines_eq
  have hmap := (((Emit.lines_compiles 0 p.lines p.start).of_ok hrun).quiet hp.line).2
  have hat : o.codes[i]?.map LineCode.returns = p.lines[i]?.map fun l => l.stmts.any Stmt.isReturn := by
    rw [← List.getElem?_map, hmap, List.getElem?_map]
  rw [Program.returnsAt, Ne, returnDepths_eq_nil, Bool.not_eq_false]
  cases hl : p.lines[i]? with
  | none =>
    rw [hl, Option.map_none, Option.map_eq_none_iff] at hat
    simp [hat]
  | some l =>
    rw [hl, Option.map_some] at hat
    obtain ⟨c, hc, hret⟩ := Option.map_eq_some_iff.1 hat
    simp [hc, hret]

/-- **Which line a subroutine ends at.** As long as it has not ended, the lines that follow its label are counted
under it. -/
theorem last_eq_some_iff (o : Stages p text) (hp : p.Proper)
    {s : Span} (hs : s ∈ o.tables.spans) {k : Nat} (hk : p.targetAt k = some s.name) :
    s.first = k ∧ ∀ last, s.last = some last ↔ ∃ i : Nat, last = i ∧ p.First k (p.EndsAt k) i := by
  have hc := (o.history hp).chronicle
  have he := (o.history hp).closings
  have hkeyed : ∀ {j name}, p.targetAt j = some name → p.scopes[j]? = some name := by
    intro j name hj
    obtain ⟨l, hl, hlabel⟩ := Program.targetAt_eq_some hj
    rw [← o.filter_isTarget hp hl] at hj
    exact he.target hl hlabel (Option.filter_eq_some_iff.1 hj).2
  obtain ⟨l, hl, hlabel⟩ := Program.targetAt_eq_some hk
  obtain ⟨k', l', hfirst, hl', hlabel'⟩ := hc.placed s hs
  obtain rfl := Program.line_unique hp hl hl' hlabel hlabel'
  have hends : ∀ {j : Nat}, p.scopes[j]? = some s.name → p.EndsAt k j → s.last = some (j : Int) := by
    rintro j hkey ⟨hret, hdepth⟩
    obtain ⟨c, hcode, hret⟩ := (o.returns_iff hp j).2 hret
    refine he.ends s hs hkey hcode hret ?_
    rw [hfirst, Int.toNat_natCast, hdepth]
  have hended : ∀ last, s.last = some last → ∃ i : Nat, last = i ∧ p.First k (p.EndsAt k) i := by
    intro last hlast
    obtain ⟨hcovers, hdepth⟩ := hc.closed s hs last hlast
    have hstart := (hcovers k).1 (hkeyed hk)
    obtain ⟨i, rfl⟩ := Int.eq_ofNat_of_zero_le (show 0 ≤ last by omega)
    have hown : ∀ j, k ≤ j → j ≤ i → p.scopes[j]? = some s.name := fun j hle hlt => (hcovers j).2 (by omega)
    refine ⟨i, rfl, ⟨by omega, fun j hlt hle => ?_⟩, ⟨?_, ?_⟩, fun j hle hlt hj => ?_⟩
    · -- another target would have its own label there
      cases hj : p.targetAt j with
      | none => rfl
      | some name =>
        obtain ⟨lj, hlj, hlabelj⟩ := Program.targetAt_eq_some hj
        have hsame := (hkeyed hj).symm.trans (hown j (by omega) hle)
        rw [Option.some.inj hsame] at hlabelj
        have heq := Program.line_unique hp hlj hl hlabelj hlabel
        omega
    · exact (o.returns_iff hp i).1 (he.returned s hs i hlast)
    · rw [hfirst] at hdepth
      exact hdepth.symm
    · have hearlier := hends (hown j hle (by omega)) hj
      rw [hlast, Option.some.injEq] at hearlier
      omega
  refine ⟨hfirst, fun last => ⟨hended last, ?_⟩⟩
  rintro ⟨i, rfl, hreach, hhere, hbefore⟩
  have hlt : i < p.lines.length := by
    obtain ⟨c, hcode, -⟩ := (o.returns_iff hp i).2 hhere.1
    rw [← (o.history hp).record.length]
    exact (List.getElem?_eq_some_iff.1 hcode).1
  have hown : ∀ j, k ≤ j → j ≤ i → p.scopes[j]? = some s.name := by
    intro j hle
    induction j, hle using Nat.le_induction with
    | base => exact fun _ => hkeyed hk
    | succ j hle ih =>
      intro hji
      -- the subroutine has not ended before, so the next line is its own
      have hnot : s.last ≠ some (j : Int) := by
        intro hlast
        obtain ⟨j', hj', hfirst⟩ := hended _ hlast
        obtain rfl := Int.ofNat.inj hj'
        exact hbefore j hle (by omega) hfirst.here
      have hline : p.lines[j + 1]? = some p.lines[j + 1] := List.getElem?_eq_getElem (by omega)
      refine (he.goesOn s hs (ih (by omega)) hnot).2 _ hline ?_
      rw [o.filter_isTarget hp hline]
      exact hreach.2 _ (by omega) hji
  exact hends (hown i hreach.1 (Nat.le_refl i)) hhere

end Stages

/-- **A subroutine ends at its first line with a `RETURN`** behind which as many loops are open as at its label. This
is its first line with a `RETURN` at the depth of the label, if at the `RETURN`s of each line that is reached from
the label as many loops are open as behind the line. -/
theorem compile_subroutine_ends_by_line (strict : Bool) (source : List Char) :
    match (compile strict source).result with
    | .error _ => True
    | .ok _ => ∃ p, Program.parse strict (Token.scan source).tokens source = .ok p ∧
      (compile strict source).tables.labels.map Label.name = labelsOf p.lines ∧
      ∀ r ∈ (compile strict source).tables.labels, ∀ k, p.targetAt k = some r.name → r.first = k ∧
        (∀ last, r.last = some last ↔ ∃ i : Nat, last = i ∧ p.First k (p.EndsAt k) i) ∧
        ((∀ j, p.Reaches k j → ∀ d ∈ p.returnsAt j, d = depthAt p.lines (j + 1)) →
          ∀ last, r.last = some last ↔ ∃ i : Nat, last = i ∧ p.First k (p.EndsInside k) i) := by
  rcases hresult : (compile strict source).result with why | text
  · trivial
  · obtain ⟨p, ⟨o⟩, h⟩ := compile_accepted hresult
    have hlabels : (compile strict source).tables.labels = o.tables.labels := by
      obtain ⟨n, htables⟩ := o.complains h.proper h.generated
      rw [h.tables, htables]
    refine ⟨p, h.parsed, ?_, fun r hr k hk => ?_⟩
    · rw [hlabels, ← (o.history h.proper).chronicle.names, Tables.spans, List.map_map]
      rfl
    · rw [hlabels] at hr
      obtain ⟨hfirst, hlast⟩ := o.last_eq_some_iff h.proper (List.mem_map_of_mem hr) hk
      refine ⟨hfirst, hlast, fun hdepths last => (hlast last).trans ?_⟩
      have hagree : ∀ i, p.First k (p.EndsAt k) i ↔ p.First k (p.EndsInside k) i := fun i =>
        Program.First.congr fun j hj => Program.endsAt_iff_endsInside (hdepths j hj) k
      simp only [hagree]

/-- A loop around the `RETURN` on its line does not keep the subroutine open. -/
theorem subroutine_ends_inside_loop : ∃ p, Program.parse false
      (Token.scan "10 GOSUB 20\n20 FOR i=1 TO 2:RETURN:NEXT".toList).tokens
      "10 GOSUB 20\n20 FOR i=1 TO 2:RETURN:NEXT".toList = .ok p ∧
    ∃ r ∈ (compile false "10 GOSUB 20\n20 FOR i=1 TO 2:RETURN:NEXT".toList).tables.labels,
      p.targetAt 1 = some r.name ∧ r.last = some 1 ∧ ¬ p.First 1 (p.EndsInside 1) 1 := by
  generalize hsource : "10 GOSUB 20\n20 FOR i=1 TO 2:RETURN:NEXT".toList = source
  have hrun : (Program.parse false (Token.scan source).tokens source).toOption.any (fun p =>
      !(p.returnsAt 1).contains (depthAt p.lines 1) && (compile false source).tables.labels.any fun r =>
        p.targetAt 1 == some r.name && r.last == some 1) = true := by
    rw [← hsource]
    decide +kernel
  obtain ⟨p, hp, hrun⟩ := exists_ok_of_any hrun
  obtain ⟨hdeeper, hlabel⟩ := (Bool.and_eq_true _ _).mp hrun
  obtain ⟨r, hr, hmatch⟩ := List.any_eq_true.1 hlabel
  obtain ⟨hname, hlast⟩ := (Bool.and_eq_true _ _).mp hmatch
  refine ⟨p, hp, r, hr, eq_of_beq hname, eq_of_beq hlast, fun h => ?_⟩
  have hmem : depthAt p.lines 1 ∈ p.returnsAt 1 := h.here
  simp [hmem] at hdeeper

end Locomotive
