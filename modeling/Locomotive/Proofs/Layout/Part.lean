import Locomotive.Proofs.Emit.History
import Locomotive.Proofs.Js.Sited

/-!
# The parts of the program

The rows of the generated program are those of its parts: stretches of the main program, and between
them one function for each subroutine. Every line of the source is in one part, and the
lines come in order. So the marks in the text are those of the lines, in order.

* `partsOf`: the parts of a program.
* `bodyRows_eq`: the rows are those of the parts.
* `Stages.hasMarks`: the marks of the text.
-/

namespace Locomotive

open Js (HasMarks AllMarks Unmarked)

/-- A part of the generated program. -/
inductive Part where
  /-- Lines of the main program, from `first` up to but not with `stop`. -/
  | main (first stop : Nat)
  /-- The function of a subroutine. -/
  | function (s : Subroutine)

namespace Part

/-- The subroutine of a function. -/
def sub? : Part → Option Subroutine
  | main _ _ => none
  | function s => some s

/-- The index of the first line, and that of the first one behind the part. -/
def bounds : Part → Nat × Nat
  | main first stop => (first, stop)
  | function s => (s.first.toNat, (s.last + 1).toNat)

/-- The indices of the lines of a part. -/
def lines (q : Part) : List Nat := List.range' q.bounds.1 (q.bounds.2 - q.bounds.1)

/-- The rows of a part. A function is indented like its first line. -/
def rows (vars : List Variable) (async : List String) (all : List Subroutine) (frags : List Fragment) :
    Part → List Row
  | main first stop => (stretch frags first stop).filterMap (Fragment.row? 0)
  | function s => s.function vars all frags ((frags[s.first.toNat]?.map Fragment.indent).getD 0)
    (async.contains s.label)

end Part

/-- **The parts of a program with `n` lines** from the line with index `next` on: the functions
of the subroutines, and the main program before, between and behind them. -/
def partsOf (n : Nat) : (next : Nat) → List Subroutine → List Part
  | next, [] => [.main next n]
  | next, s :: subs => .main next s.first.toNat :: .function s :: partsOf n (s.last + 1).toNat subs

/-- Each subroutine has one function. -/
theorem subs_partsOf (n next : Nat) (subs : List Subroutine) : (partsOf n next subs).filterMap Part.sub? = subs := by
  induction subs generalizing next with
  | nil => rfl
  | cons s subs ih =>
    have hhead : Part.sub? (.function s) = some s := rfl
    rw [partsOf, List.filterMap_cons_none rfl, List.filterMap_cons_some hhead, ih]

/-- The subroutines start at `next` or later, one behind the other, and end before `n`. -/
structure InTurn (n next : Nat) (subs : List Subroutine) : Prop where
  inside : ∀ s ∈ subs, s.Inside n
  apart : subs.Pairwise fun a b => a.last < b.first
  after : ∀ s ∈ subs, next ≤ s.first

namespace InTurn

variable {n next : Nat} {s : Subroutine} {subs : List Subroutine}

theorem head (h : InTurn n next (s :: subs)) :
    next ≤ s.first.toNat ∧ s.first.toNat ≤ (s.last + 1).toNat ∧ (s.last + 1).toNat ≤ n := by
  have hinside := h.inside s (by simp)
  have hfirst := hinside.first
  have hlast := hinside.last
  have hafter := h.after s (by simp)
  omega

theorem tail (h : InTurn n next (s :: subs)) : InTurn n (s.last + 1).toNat subs where
  inside s' hs' := h.inside s' (by simp [hs'])
  apart := (List.pairwise_cons.1 h.apart).2
  after s' hs' := by
    have hbehind := (List.pairwise_cons.1 h.apart).1 s' hs'
    have hlast := (h.inside s (by simp)).last
    have hfirst := (h.inside s (by simp)).first
    omega

end InTurn

/-- **Every line is in one part**, and they come in order. -/
theorem lines_partsOf {n next : Nat} {subs : List Subroutine} (h : InTurn n next subs) :
    (partsOf n next subs).flatMap Part.lines = List.range' next (n - next) := by
  induction subs generalizing next with
  | nil => simp [partsOf, Part.lines, Part.bounds]
  | cons s subs ih =>
    obtain ⟨hnext, hstop, hend⟩ := h.head
    rw [partsOf, List.flatMap_cons, List.flatMap_cons, ih h.tail, Part.lines, Part.lines]
    simp only [Part.bounds]
    -- the three stretches follow one another
    have hfunction : List.range' s.first.toNat ((s.last + 1).toNat - s.first.toNat) ++
        List.range' (s.last + 1).toNat (n - (s.last + 1).toNat) = List.range' s.first.toNat (n - s.first.toNat) := by
      have hjoin := List.range'_append_1 (s := s.first.toNat) (m := (s.last + 1).toNat - s.first.toNat)
        (n := n - (s.last + 1).toNat)
      rw [show s.first.toNat + ((s.last + 1).toNat - s.first.toNat) = (s.last + 1).toNat by omega] at hjoin
      rw [hjoin]
      congr 1
      omega
    have hmain := List.range'_append_1 (s := next) (m := s.first.toNat - next) (n := n - s.first.toNat)
    rw [show next + (s.first.toNat - next) = s.first.toNat by omega] at hmain
    rw [hfunction, hmain]
    congr 1
    omega

/-- **The rows of the program are those of its parts.** -/
theorem bodyRows_eq (vars : List Variable) (async : List String) (all : List Subroutine) {frags : List Fragment}
    {next : Nat} {subs : List Subroutine} (h : InTurn frags.length next subs) :
    bodyRows vars async all frags next subs =
      some ((partsOf frags.length next subs).flatMap (Part.rows vars async all frags)) := by
  induction subs generalizing next with
  | nil =>
    have hall : stretch frags next frags.length = frags.drop next := by
      unfold stretch
      exact List.take_of_length_le (by simp)
    simp [bodyRows, partsOf, Part.rows, hall]
  | cons s subs ih =>
    obtain ⟨f, hf, hrows⟩ := bodyRows_cons vars async all (h.inside s (by simp)).among subs (h.after s (by simp))
    rw [hrows, ih h.tail, Option.map_some, partsOf, List.flatMap_cons, List.flatMap_cons, Part.rows, Part.rows, hf,
      List.append_assoc]
    rfl

/-! ## Marks -/

/-- A text without characters has no marks. -/
theorem eq_nil_of_hasMarks_empty {ns : List Nat} (h : HasMarks "" ns) : ns = [] := by
  unfold HasMarks at h
  generalize hcs : ("" : String).toList = cs at h
  cases h with
  | nil => rfl
  | char _ _ => simp at hcs
  | mark _ => simp [Js.siteMark] at hcs

/-- The rows of lines have the marks of their code. -/
theorem allMarks_rows {codes : List LineCode} (h : ∀ c ∈ codes, HasMarks c.fragment.text (Js.Stmt.refsOf c.code))
    (extra : Int) : AllMarks (((codes.map LineCode.fragment).filterMap (Fragment.row? extra)).map Row.text)
      (codes.flatMap fun c => Js.Stmt.refsOf c.code) := by
  induction codes with
  | nil => exact .nil
  | cons c codes ih =>
    obtain ⟨hc, hcodes⟩ := List.forall_mem_cons.1 h
    rw [List.map_cons, List.flatMap_cons]
    by_cases hempty : c.fragment.text = ""
    · -- a line without code has no row and no marks
      have hrow : Fragment.row? extra c.fragment = none := if_pos hempty
      rw [hempty] at hc
      rw [List.filterMap_cons_none hrow, eq_nil_of_hasMarks_empty hc, List.nil_append]
      exact ih hcodes
    · have hrow : Fragment.row? extra c.fragment = some ⟨c.fragment.indent + extra, c.fragment.text⟩ := if_neg hempty
      rw [List.filterMap_cons_some hrow, List.map_cons]
      exact .cons hc (ih hcodes)

theorem stretch_map (codes : List LineCode) (start stop : Nat) :
    stretch (codes.map LineCode.fragment) start stop = ((codes.drop start).take (stop - start)).map LineCode.fragment := by
  unfold stretch
  rw [← List.map_drop, ← List.map_take]

/-- The marks of the lines in the bounds of a part. -/
def Part.marks (codes : List LineCode) (q : Part) : List Nat :=
  ((codes.drop q.bounds.1).take (q.bounds.2 - q.bounds.1)).flatMap fun c => Js.Stmt.refsOf c.code

/-- **The rows of a part** have the marks of its lines. -/
theorem Part.allMarks {codes : List LineCode} (h : ∀ c ∈ codes, HasMarks c.fragment.text (Js.Stmt.refsOf c.code))
    {vars : List Variable} (hvars : ∀ v ∈ vars, Unmarked v.name) (async : List String) (all : List Subroutine) (q : Part)
    (hlabel : ∀ s ∈ q.sub?, Unmarked s.label) :
    AllMarks ((q.rows vars async all (codes.map LineCode.fragment)).map Row.text) (q.marks codes) := by
  have hlines : ∀ (extra : Int) (start stop : Nat),
      AllMarks (((stretch (codes.map LineCode.fragment) start stop).filterMap (Fragment.row? extra)).map Row.text)
        (((codes.drop start).take (stop - start)).flatMap fun c => Js.Stmt.refsOf c.code) := by
    intro extra start stop
    rw [stretch_map]
    exact allMarks_rows (fun c hc => h c (List.mem_of_mem_drop (List.mem_of_mem_take hc))) extra
  cases q with
  | main first stop => exact hlines 0 first stop
  | function s =>
    have hheader : Unmarked (s.header (async.contains s.label)) := unmarked_header (hlabel s rfl) _
    have hlocals : ∀ (indent : Int), AllMarks
        (((letText (vars.filter fun v => v.home? all == some s.label)).toList.map fun t => (⟨indent, t⟩ : Row)).map
          Row.text) [] := by
      intro indent
      refine .of_unmarked fun text htext => ?_
      obtain ⟨row, hrow, rfl⟩ := List.mem_map.1 htext
      obtain ⟨text, ht, rfl⟩ := List.mem_map.1 hrow
      exact unmarked_letText (fun v hv => hvars v (List.mem_filter.1 hv).1) (Option.mem_toList.1 ht)
    have hbrace : AllMarks ["\x7d"] [] := .of_unmarked (by decide)
    unfold Part.rows Subroutine.function Part.marks
    simp only [List.map_append, List.map_cons, List.map_nil]
    have hbody := hlines 1 s.first.toNat (s.last + 1).toNat
    generalize hindent : ((codes.map LineCode.fragment)[s.first.toNat]?.map Fragment.indent).getD 0 = indent
    have hall := ((AllMarks.cons hheader.hasMarks (hlocals (indent + 1))).append hbody).append hbrace
    rw [List.append_nil] at hall
    exact hall

/-- The marks of all parts are those of the lines, in order. -/
theorem marks_partsOf {codes : List LineCode} {next : Nat} {subs : List Subroutine}
    (h : InTurn codes.length next subs) : (partsOf codes.length next subs).flatMap (Part.marks codes) =
      (codes.drop next).flatMap fun c => Js.Stmt.refsOf c.code := by
  induction subs generalizing next with
  | nil =>
    have hall : (codes.drop next).take (codes.length - next) = codes.drop next := List.take_of_length_le (by simp)
    simp [partsOf, Part.marks, Part.bounds, hall]
  | cons s subs ih =>
    obtain ⟨hnext, hstop, -⟩ := h.head
    have hsplit : ∀ {a b : Nat}, a ≤ b → codes.drop a = (codes.drop a).take (b - a) ++ codes.drop b := by
      intro a b hab
      have := (List.take_append_drop (b - a) (codes.drop a)).symm
      rwa [List.drop_drop, show a + (b - a) = b by omega] at this
    rw [partsOf, List.flatMap_cons, List.flatMap_cons, ih h.tail, hsplit hnext, hsplit hstop, List.flatMap_append,
      List.flatMap_append]
    rfl

/-- Rows have the marks of their texts. -/
theorem allMarks_written {rows : List Row} {ns : List Nat} (h : AllMarks (rows.map Row.text) ns) :
    AllMarks (rows.map Row.written) ns := by
  induction rows generalizing ns with
  | nil => exact h
  | cons r rows ih =>
    cases h with
    | cons hr hrows => exact .cons (hr.between (unmarked_tabs _) (by decide)) (ih hrows)

/-- **The marks of the text** are those of the lines, in order: no row is written twice, and what
stands around the lines has no marks. -/
theorem Tables.hasMarks_markedText? {t : Tables} {codes : List LineCode} (hvars : t.VarsUnmarked)
    (hdata : ∀ d ∈ t.data, Unmarked d) (hcodes : ∀ c ∈ codes, HasMarks c.fragment.text (Js.Stmt.refsOf c.code))
    (hturn : InTurn codes.length 0 t.subroutines) {async : List String} {text : String}
    (h : t.markedText? (codes.map LineCode.fragment) async = some text) :
    HasMarks text (codes.flatMap fun c => Js.Stmt.refsOf c.code) := by
  have hlength : (codes.map LineCode.fragment).length = codes.length := List.length_map ..
  have hrows := bodyRows_eq t.vars async t.subroutines (hlength.symm ▸ hturn)
  rw [hlength] at hrows
  have hparts : ∀ ps : List Part, (∀ q ∈ ps, ∀ s ∈ q.sub?, Unmarked s.label) →
      AllMarks ((ps.flatMap (Part.rows t.vars async t.subroutines (codes.map LineCode.fragment))).map Row.text)
        (ps.flatMap (Part.marks codes)) := by
    intro ps hps
    induction ps with
    | nil => exact .nil
    | cons q ps ih =>
      obtain ⟨hq, hps⟩ := List.forall_mem_cons.1 hps
      rw [List.flatMap_cons, List.flatMap_cons, List.map_append]
      exact (q.allMarks hcodes hvars async t.subroutines hq).append (ih hps)
  have hlabels : ∀ q ∈ partsOf codes.length 0 t.subroutines, ∀ s ∈ q.sub?, Unmarked s.label := by
    intro q hq s hs
    have hmem : s ∈ (partsOf codes.length 0 t.subroutines).filterMap Part.sub? := List.mem_filterMap.2 ⟨q, hq, hs⟩
    rw [subs_partsOf] at hmem
    exact (hturn.inside s hmem).label
  have hall := hparts _ hlabels
  rw [marks_partsOf hturn, List.drop_zero] at hall
  unfold Tables.markedText? at h
  rw [hrows, Option.bind_eq_bind, Option.bind_some] at h
  obtain ⟨body, hbody, h⟩ := Option.bind_eq_some_iff.1 h
  obtain ⟨rfl, -⟩ := mapM_text?_eq_some_iff.1 hbody
  cases h
  have hbefore := (unmarked_globalText hvars).hasMarks.append (unmarked_dataText hdata).hasMarks
  have hmarks := (hbefore.append (allMarks_written hall).join).append t.unmarked_helperText.hasMarks
  rw [List.append_nil, List.nil_append, List.nil_append] at hmarks
  split
  · -- a text without characters has no marks, and neither has the one in its place
    rename_i hempty
    rw [hempty] at hmarks
    rw [eq_nil_of_hasMarks_empty hmarks]
    exact Unmarked.hasMarks (by decide)
  · exact hmarks

/-! ## Programs -/

namespace Stages

variable {p : Program} {text : String}

/-- The subroutines of a program follow one another. -/
theorem inTurn (o : Stages p text) (hp : p.Proper) : InTurn p.lines.length 0 o.tables.subroutines := by
  have h := o.finished hp
  have hinside := h.inside hp
  rw [List.length_map, h.placed.length_eq] at hinside
  exact ⟨hinside, (h.apart hp).lines, fun s hs => (hinside s hs).first.1⟩

/-- **The rows of a program** are those of its parts. -/
theorem rows_eq_parts (o : Stages p text) (hp : p.Proper) :
    o.rows = (partsOf p.lines.length 0 o.tables.subroutines).flatMap
      (Part.rows o.tables.vars o.async o.tables.subroutines (o.codes.map LineCode.fragment)) := by
  have hlength : (o.codes.map LineCode.fragment).length = p.lines.length := by
    rw [List.length_map, (o.finished hp).placed.length_eq]
  have hturn := o.inTurn hp
  rw [← hlength] at hturn
  have hrows := o.rows_eq.symm.trans (bodyRows_eq o.tables.vars o.async o.tables.subroutines hturn)
  rw [← hlength]
  exact Option.some.inj hrows

/-- **The marks of a program** are those of its references, each one once and in order. -/
theorem hasMarks (o : Stages p text) (hp : p.Proper) :
    HasMarks o.marked (List.range o.tables.callSites.length) := by
  have h := o.finished hp
  have hrecord := (o.history hp).record
  have hturn := o.inTurn hp
  rw [← hrecord.length] at hturn
  rw [← hrecord.refs]
  refine Tables.hasMarks_markedText? h.noMarks.vars h.noMarks.data ?_ hturn o.marked_eq
  intro c hc
  obtain ⟨_, _, hplaced⟩ := h.placed.mem hc
  obtain ⟨k, hk⟩ := List.mem_iff_getElem?.1 hc
  obtain ⟨l, -, hwritten⟩ := hrecord.line_of_code hk
  exact Js.hasMarks_lineText hwritten.sited hplaced.tidy

end Stages

end Locomotive
