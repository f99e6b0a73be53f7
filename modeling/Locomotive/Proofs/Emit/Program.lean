import Locomotive.Proofs.Emit.Line
import Locomotive.Proofs.Emit.Site
import Locomotive.Proofs.Layout
import Locomotive.Proofs.Subroutine

/-!
# The code of a program

A program with proper lines is compiled unless its blocks are not nested. `Stages` holds what
is made on the way from the lines to the text.

* `Stages`: the codes of the lines, the tables, and the text with marks.
* `Emit.program_ends`: what becomes of a program with proper lines.
-/

namespace Locomotive

/-! ## Before and after the lines -/

/-- The tables before the first line: the label references of the whole program. -/
def Program.start (p : Program) : Tables := p.uses.foldl (fun t u => t.use u.1 u.2) {}

/-- The tables after the last line. -/
def Tables.finish (t : Tables) : Tables := ({ t with lineNumber := 0 }).resolveRestores

/-- References to labels change nothing but their counts. -/
theorem foldl_use (uses : List (String × LabelUse)) (t : Tables) : ∃ gosubs restores,
    uses.foldl (fun t u => t.use u.1 u.2) t = { t with gosubs := gosubs, restores := restores } := by
  induction uses generalizing t with
  | nil => exact ⟨_, _, rfl⟩
  | cons u us ih =>
    obtain ⟨gosubs, restores, h⟩ := ih (t.use u.1 u.2)
    refine ⟨gosubs, restores, ?_⟩
    rw [List.foldl_cons, h]
    cases u.2 <;> rfl

theorem Program.start_eq (p : Program) : ∃ gosubs restores, p.start = { gosubs := gosubs, restores := restores } :=
  foldl_use p.uses {}

theorem Program.before_start (p : Program) : p.start.Before 0 ∧ p.start.indent = (0 : Nat) := by
  obtain ⟨gosubs, restores, h⟩ := p.start_eq
  rw [h]
  exact ⟨⟨⟨by simp [Tables.VarsUnmarked], by simp⟩, .nil _ _, by simp⟩, rfl⟩

/-- The data indices are noted, and nothing else but warnings about missing targets. -/
theorem Tables.finish_eq (t : Tables) : ∃ restoreMap new lineNumber,
    t.finish = { t with restoreMap := restoreMap, warnings := t.warnings ++ new, lineNumber := lineNumber } ∧
      ∀ w ∈ new, ∃ label, w.remark = .noRestoreTarget label := by
  have hstep : ∀ (u : Tables) (label : String), ∃ restoreMap new lineNumber, u.resolveRestore label =
      { u with restoreMap := restoreMap, warnings := u.warnings ++ new, lineNumber := lineNumber } ∧
        ∀ w ∈ new, ∃ label, w.remark = .noRestoreTarget label := by
    intro u label
    unfold Tables.resolveRestore
    split
    · exact ⟨_, [], u.lineNumber, by rw [List.append_nil]; rfl, by simp⟩
    · exact ⟨_, [⟨0, .noRestoreTarget label⟩], 0, rfl, by simp⟩
  have hfold : ∀ (names : List String) (u : Tables), ∃ restoreMap new lineNumber,
      names.foldl Tables.resolveRestore u =
        { u with restoreMap := restoreMap, warnings := u.warnings ++ new, lineNumber := lineNumber } ∧
        ∀ w ∈ new, ∃ label, w.remark = .noRestoreTarget label := by
    intro names
    induction names with
    | nil => exact fun u => ⟨u.restoreMap, [], u.lineNumber, by rw [List.append_nil]; rfl, by simp⟩
    | cons name names ih =>
      intro u
      obtain ⟨r, w, n, hu, hw⟩ := hstep u name
      obtain ⟨r', w', n', h, hw'⟩ := ih (u.resolveRestore name)
      refine ⟨r', w ++ w', n', ?_, List.forall_mem_append.2 ⟨hw, hw'⟩⟩
      rw [List.foldl_cons, h, hu, List.append_assoc]
  obtain ⟨r, w, n, h, hw⟩ := hfold (Text.sorted t.restores.names) { t with lineNumber := 0 }
  exact ⟨r, w, n, h, hw⟩

/-- **What holds after the last line** of a program with the given codes. -/
structure Finished (p : Program) (codes : List LineCode) (t : Tables) : Prop where
  noMarks : t.NoMarks
  spans : Spans t.isTarget p.lines.length t.openSub t.spans
  names : t.labels.map Label.name = labelsOf p.lines
  sites : ∀ s ∈ t.callSites, 0 ≤ s.line ∧ s.line < p.lines.length
  placed : PlacedAll t.callSites 0 p.lines codes

theorem Compiled.finished {p : Program} {codes : List LineCode} {t : Tables} (hb : t.Before (0 + p.lines.length))
    (hc : Compiled p.start t 0 p.lines codes) : Finished p codes t.finish := by
  obtain ⟨restoreMap, new, lineNumber, hfinish, -⟩ := t.finish_eq
  obtain ⟨gosubs, restores, hstart⟩ := p.start_eq
  obtain ⟨sites, hsites, hline⟩ := hc.sites
  rw [Nat.zero_add] at hb
  rw [hfinish]
  refine ⟨⟨hb.noMarks.vars, hb.noMarks.data⟩, hb.spans, ?_, fun s hs => ⟨?_, hb.sites s hs⟩, hc.placed⟩
  · have := hc.names
    rw [hstart] at this
    simpa using this
  · have hs' : s ∈ p.start.callSites ++ sites := hsites ▸ hs
    rw [hstart] at hs'
    exact hline s (by simpa using hs')

/-- The subroutine of a label that a `RETURN` has ended. -/
theorem span_of_subroutine {t : Tables} {l : Label} {s : Subroutine}
    (h : (match l.last with
      | some last => if 0 ≤ last ∧ t.isTarget l.name then some ⟨l.name, l.first, last⟩ else none
      | none => none) = some s) :
    l.span = ⟨s.label, s.first, some s.last⟩ ∧ t.isTarget s.label = true := by
  unfold Label.span
  cases hlast : l.last with
  | none => rw [hlast] at h; cases h
  | some last =>
    rw [hlast] at h
    dsimp only at h
    split at h
    · rename_i hcond
      cases h
      exact ⟨rfl, hcond.2⟩
    · cases h

/-- Each subroutine ends before the next one starts. -/
theorem Spans.apart_subroutines {t : Tables} {bound : Int} (h : Spans t.isTarget bound t.openSub t.spans) :
    t.subroutines.Pairwise fun a b => a.last < b.first := by
  have hlabels := List.pairwise_map.1 h.apart
  refine List.pairwise_filterMap.2 (hlabels.imp ?_)
  intro a b hab s hs s' hs'
  obtain ⟨ha, -⟩ := span_of_subroutine hs
  obtain ⟨hb, htarget⟩ := span_of_subroutine hs'
  rw [ha, hb] at hab
  exact hab htarget s.last rfl

namespace Finished

variable {p : Program} {codes : List LineCode} {t : Tables}

theorem mem_spans {t : Tables} {s : Subroutine} (hs : s ∈ t.subroutines) :
    (⟨s.label, s.first, some s.last⟩ : Span) ∈ t.spans := by
  obtain ⟨l, hl, hsub⟩ := List.mem_filterMap.1 hs
  exact List.mem_map.2 ⟨l, hl, (span_of_subroutine hsub).1⟩

/-- The labels are those of lines. -/
theorem isLabel (h : Finished p codes t) (hp : p.Proper) : ∀ s ∈ t.spans, IsLabel s.name := by
  intro s hs
  obtain ⟨label, hlabel, rfl⟩ := List.mem_map.1 hs
  have hname : label.name ∈ labelsOf p.lines := h.names ▸ List.mem_map_of_mem hlabel
  obtain ⟨l, hl, hsome⟩ := List.mem_filterMap.1 hname
  exact (hp.line l hl).label _ hsome

/-- The lines of a subroutine are lines of the program. -/
theorem inside (h : Finished p codes t) (hp : p.Proper) :
    ∀ s ∈ t.subroutines, s.Inside (codes.map LineCode.fragment).length := by
  intro s hs
  have hspan := mem_spans hs
  rw [List.length_map, h.placed.length_eq]
  exact ⟨(h.isLabel hp _ hspan).unmarked, h.spans.first _ hspan, h.spans.last _ hspan s.last rfl⟩

/-- The lines of different subroutines are apart. -/
theorem apart (h : Finished p codes t) (hp : p.Proper) : Apart t.subroutines :=
  ⟨h.spans.apart_subroutines, fun _ hs => (h.isLabel hp _ (mem_spans hs)).ne_empty⟩

/-- Subroutines have different labels, since they start at different lines. -/
theorem nodup_subroutines (h : Finished p codes t) (hp : p.Proper) :
    (t.subroutines.map Subroutine.label).Nodup := by
  have hnames : (t.labels.map Label.name).Nodup := h.names ▸ hp.nodup
  refine List.pairwise_map.2 (List.pairwise_filterMap.2 ((List.pairwise_map.1 hnames).imp ?_))
  intro a b hab s hs s' hs' hsame
  have ha : a.name = s.label := congrArg Span.name (span_of_subroutine hs).1
  have hb : b.name = s'.label := congrArg Span.name (span_of_subroutine hs').1
  exact hab (ha.trans (hsame.trans hb.symm))

/-- Every reference in the tables is one that a statement makes. -/
theorem hasShape (h : Finished p codes t) : ∀ s ∈ t.callSites, ∃ r : Reference, s.shape = r.shape := by
  intro s hs
  obtain ⟨hnonneg, hlt⟩ := h.sites s hs
  obtain ⟨l, c, -, -, hplaced⟩ := h.placed.get (show s.line.toNat < p.lines.length by omega)
  obtain ⟨r, -, hr⟩ := hplaced.mem_references hs (by omega)
  exact ⟨r, hr.symm⟩

theorem fits_fragments (h : Finished p codes t) : ∀ f ∈ codes.map LineCode.fragment, f.Fits t.callSites.length := by
  intro f hf
  obtain ⟨c, hc, rfl⟩ := List.mem_map.1 hf
  obtain ⟨k, l, hplaced⟩ := h.placed.mem hc
  refine ⟨hplaced.indent, _, Js.hasMarks_lineText hplaced.sited hplaced.tidy, fun i hi => ?_⟩
  obtain ⟨before, new, after, hsites, -, -, -, -, hrefs⟩ := hplaced.own
  rw [hrefs, List.mem_range'_1] at hi
  rw [hsites, List.length_append, List.length_append]
  omega

/-- The asynchronous functions can be found. -/
theorem async?_eq (h : Finished p codes t) (hp : p.Proper) :
    t.async? (codes.map LineCode.fragment) =
      some (asyncLabels t.subroutines (codes.map LineCode.waits) t.callSites) := by
  have hlen : (codes.map LineCode.waits).length = p.lines.length := by rw [List.length_map, h.placed.length_eq]
  have hwaits : (codes.map LineCode.fragment).map Fragment.waits = codes.map LineCode.waits := by
    rw [List.map_map]; rfl
  have hsubs : t.subroutines.all (fun s => s.fits p.lines.length) = true := by
    refine List.all_eq_true.2 fun s hs => ?_
    have hinside := h.inside hp s hs
    rw [List.length_map, h.placed.length_eq] at hinside
    simp [Subroutine.fits, hinside.first.1, hinside.last.2]
  have hsites : t.callSites.all (fun s => s.fits p.lines.length) = true := by
    refine List.all_eq_true.2 fun s hs => ?_
    obtain ⟨hnonneg, hlt⟩ := h.sites s hs
    simp [CallSite.fits, hnonneg, hlt]
  unfold Tables.async? asyncLabels?
  rw [hwaits, hlen, hsubs, hsites]
  rfl

end Finished

/-! ## The text -/

/-- The functions of the generated program. -/
def Tables.functions (t : Tables) (async : List String) : Functions := ⟨t.subroutines.map Subroutine.label, async⟩

/-- **The stages of code generation.** What is made of a program on the way to its text. -/
structure Stages (p : Program) (text : String) where
  /-- The code of each line. -/
  codes : List LineCode
  /-- The tables after the last line. -/
  tables : Tables
  /-- The labels of the asynchronous functions. -/
  async : List String
  /-- The rows of the lines and of the functions. -/
  rows : List Row
  /-- The text of the program with marks for the references. -/
  marked : String
  lines_eq : ∃ t, (Emit.lines 0 p.lines).apply p.start = (.ok codes, t) ∧ tables = t.finish
  async_eq : tables.async? (codes.map LineCode.fragment) = some async
  rows_eq : bodyRows tables.vars async tables.subroutines (codes.map LineCode.fragment) 0 tables.subroutines = some rows
  marked_eq : tables.markedText? (codes.map LineCode.fragment) async = some marked
  filled : FilledChars (siteText (tables.functions async) tables.callSites) marked.toList text.toList

namespace Emit

/-- The text can be put together from the codes of the lines. -/
theorem assemble_ends {p : Program} {codes : List LineCode} {t : Tables} (h : Finished p codes t)
    (hp : p.Proper) :
    Ends (assemble (codes.map LineCode.fragment)) t (fun text _ => ∃ async marked,
      t.async? (codes.map LineCode.fragment) = some async ∧
      t.markedText? (codes.map LineCode.fragment) async = some marked ∧
      FilledChars (siteText (t.functions async) t.callSites) marked.toList text.toList) fun _ => False := by
  have hasync := h.async?_eq hp
  obtain ⟨marked, hmarked, hmarks⟩ := Tables.markedText?_spec h.noMarks.vars h.noMarks.data h.fits_fragments
    (h.inside hp) (h.apart hp).lines (asyncLabels t.subroutines (codes.map LineCode.waits) t.callSites)
  rw [assemble, ends_bind, ends_get, hasync]
  dsimp only
  rw [hmarked]
  obtain ⟨ns, hns, hlt⟩ := hmarks
  refine (resolve_ends h.hasShape hns hlt).mono ?_ fun _ => id
  exact fun text _ hfilled => ⟨_, marked, rfl, hmarked, hfilled.1⟩

/-- **A program with proper lines** has a text if its blocks are nested, and if not, that is
why it has none. -/
theorem program_ends {p : Program} (hp : p.Proper) :
    Ends (program p) {} (fun text _ => p.Nested ∧ Nonempty (Stages p text)) fun f => f.IsNesting ∧ ¬ p.Nested := by
  obtain ⟨hstart, hzero⟩ := p.before_start
  have hlines := (lines_ends hp.line hstart hzero).and (ends_self (lines 0 p.lines) p.start)
  rw [program, ends_bind, ends_update]
  refine (hlines.mono (fun _ _ => id) ?_).bind ?_
  · rintro f ⟨⟨hf, hnone⟩, -⟩
    refine ⟨hf, fun hnested => ?_⟩
    rw [Program.Nested, hnone] at hnested
    cases hnested
  rintro codes t ⟨⟨⟨hb, hc⟩, k, hk, hindent⟩, hrun⟩
  -- the blocks that are still open after the last line decide
  rw [ends_bind, ends_update, ends_bind, ends_get]
  dsimp only
  split
  · rename_i hopen
    refine ⟨.unclosed .., fun hnested => hopen ?_⟩
    rw [Program.Nested, hk, Option.some.injEq] at hnested
    rw [hindent, hnested]
    rfl
  · rename_i hclosed
    have hnested : p.Nested := hk.trans (by rw [show k = 0 by omega])
    rw [ends_bind, ends_update]
    refine (assemble_ends (hc.finished hb) hp).mono ?_ nofun
    rintro text t' ⟨async, marked, hasync, hmarked, hfilled⟩
    obtain ⟨rows, hrows⟩ := Tables.rows_of_markedText? hmarked
    exact ⟨hnested, ⟨codes, t.finish, async, rows, marked, ⟨t, hrun, rfl⟩, hasync, hrows, hmarked, hfilled⟩⟩

end Emit

/-- The tables of the stages are those after the last line. -/
theorem Stages.finished {p : Program} {text : String} (o : Stages p text) (hp : p.Proper) :
    Finished p o.codes o.tables := by
  obtain ⟨t, hrun, htables⟩ := o.lines_eq
  obtain ⟨hstart, hzero⟩ := p.before_start
  obtain ⟨⟨hb, hc⟩, -⟩ := (Emit.lines_ends hp.line hstart hzero).of_ok hrun
  rw [htables]
  exact hc.finished hb

end Locomotive
