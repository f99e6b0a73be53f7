import Locomotive.Proofs.Emit.Program
import Locomotive.Proofs.Emit.Mention
import Locomotive.Proofs.Stmt.Balance
import Mathlib.Data.List.Nodup

/-!
# What the tables record of the lines

While the lines are compiled it is not known yet which subroutine a `RETURN` will end. The label
under which the references of a line are counted is that of the subroutine open at that moment.
When a subroutine ends, the lines counted under its label are exactly its own (`Chronicle`): a later
label would have taken its place, and labels are different.

* `scopesFrom`: the labels under which the references of lines are counted.
* `Chronicle`: the lines of labels, and how many loops are open at their ends.
* `Record`: the variables, references and warnings of the lines.
* `History`, `Stages.history`: what they say of a whole program.
-/

namespace Locomotive

/-- The number of loops that are open before the line with the given index. -/
def depthAt (ls : List Line) (i : Nat) : Int := (Stmt.stepsOf ((ls.take i).flatMap Line.stmts)).sum

theorem depthAt_append {ls : List Line} {i : Nat} (h : i ≤ ls.length) (ls' : List Line) :
    depthAt (ls ++ ls') i = depthAt ls i := by
  unfold depthAt
  rw [List.take_append_of_le_length h]

theorem depthAt_snoc (ls : List Line) (l : Line) :
    depthAt (ls ++ [l]) (ls.length + 1) = depthAt ls ls.length + (Stmt.stepsOf l.stmts).sum := by
  unfold depthAt
  rw [List.take_of_length_le (by simp), List.take_length, List.flatMap_append, Stmt.stepsOf_append, List.sum_append,
    List.flatMap_cons, List.flatMap_nil, List.append_nil]

/-! ## The lines of labels -/

/-- The lines whose references are counted under `name` are those from `first` up to but not
with `stop`. -/
def Covers (keys : List String) (name : String) (first stop : Int) : Prop :=
  ∀ k : Nat, keys[k]? = some name ↔ first ≤ k ∧ (k : Int) < stop

namespace Covers

variable {keys : List String} {key name : String} {first stop : Int}

/-- A line under another label. -/
theorem snoc_of_ne (h : Covers keys name first stop) (hstop : stop ≤ keys.length) (hne : key ≠ name) :
    Covers (keys ++ [key]) name first stop := by
  intro k
  by_cases hk : k < keys.length
  · rw [List.getElem?_append_left hk]
    exact h k
  · have hother : (keys ++ [key])[k]? ≠ some name := by
      rw [List.getElem?_append_right (by omega), List.getElem?_singleton]
      split <;> simp [hne]
    constructor
    · intro hkey
      exact absurd hkey hother
    · intro hin
      omega

/-- One more line under the same label. -/
theorem snoc (h : Covers keys name first keys.length) (hfirst : first ≤ keys.length) :
    Covers (keys ++ [name]) name first (keys.length + 1) := by
  intro k
  by_cases hk : k < keys.length
  · rw [List.getElem?_append_left hk, h k]
    omega
  · rw [List.getElem?_append_right (by omega), List.getElem?_singleton]
    split
    · simp; omega
    · simp; omega

/-- The first line under a label. -/
theorem single (hnew : name ∉ keys) : Covers (keys ++ [name]) name keys.length (keys.length + 1) := by
  have hnone : Covers keys name keys.length keys.length := by
    intro k
    constructor
    · intro hk
      exact absurd (List.mem_of_getElem? hk) hnew
    · omega
  exact hnone.snoc (Int.le_refl _)

end Covers

/-- The labels of the lines are all different, and none of them is empty. -/
structure Labelled (ls : List Line) : Prop where
  nodup : (labelsOf ls).Nodup
  named : ∀ name ∈ labelsOf ls, name ≠ ""

namespace Labelled

theorem front {ls ls' : List Line} (h : Labelled (ls ++ ls')) : Labelled ls := by
  have hsplit : labelsOf (ls ++ ls') = labelsOf ls ++ labelsOf ls' := List.filterMap_append
  obtain ⟨hnodup, hnamed⟩ := h
  rw [hsplit] at hnodup hnamed
  exact ⟨(List.nodup_append.1 hnodup).1, fun name hname => hnamed name (List.mem_append_left _ hname)⟩

/-- The label of the last line is not there before. -/
theorem fresh {ls : List Line} {l : Line} (h : Labelled (ls ++ [l])) {name : String} (hname : name ∈ l.label.toList) :
    name ∉ labelsOf ls := by
  have hnodup := h.nodup
  rw [labelsOf_snoc] at hnodup
  exact fun hold => (List.nodup_append.1 hnodup).2.2 name hold name hname rfl

end Labelled

/-- **The lines that are done, as the labels have it.** The lines counted under the label of a
subroutine that has ended are its own, and as many loops are open behind it as before it. The
same holds of the open subroutine up to now. -/
structure Chronicle (done : List Line) (keys : List String) (t : Tables) : Prop where
  labelled : Labelled done
  length : keys.length = done.length
  names : t.spans.map Span.name = labelsOf done
  placed : ∀ s ∈ t.spans, ∃ (k : Nat) (l : Line), s.first = k ∧ done[k]? = some l ∧ l.label = some s.name
  known : ∀ key ∈ keys, key = "" ∨ key ∈ labelsOf done
  nonneg : 0 ≤ t.indent
  depth : t.indent = depthAt done done.length
  closed : ∀ s ∈ t.spans, ∀ last ∈ s.last, Covers keys s.name s.first (last + 1) ∧
    depthAt done s.first.toNat = depthAt done (last + 1).toNat
  opened : ∀ o ∈ t.openSub, ∃ s, t.spans[o.index]? = some s ∧ s.name = o.label ∧ s.last = none ∧
    Covers keys o.label s.first done.length ∧ depthAt done s.first.toNat = o.indent

namespace Chronicle

variable {done : List Line} {l : Line} {keys : List String} {t t' : Tables}

/-- A label at the given index, if there is one. -/
def newSpans (label : Option String) (i : Nat) : List Span := label.toList.map fun name => ⟨name, i, none⟩

theorem first_lt (h : Chronicle done keys t) {s : Span} (hs : s ∈ t.spans) : 0 ≤ s.first ∧ s.first < done.length := by
  obtain ⟨k, l, hfirst, hl, -⟩ := h.placed s hs
  have hk := (List.getElem?_eq_some_iff.1 hl).1
  omega

/-- Labels are different, so a span is known by its label. -/
theorem unique (h : Chronicle done keys t) {s s' : Span} (hs : s ∈ t.spans)
    (hs' : s' ∈ t.spans) (hname : s.name = s'.name) : s = s' := by
  have hpair : (t.spans.map Span.name).Nodup := h.names ▸ h.labelled.nodup
  exact List.inj_on_of_nodup_map hpair hs hs' hname

/-- The open subroutine has not ended, so its label is that of no subroutine that has. -/
theorem scope_ne (h : Chronicle done keys t) {s : Span} (hs : s ∈ t.spans) {last : Int} (hlast : s.last = some last) : t.scope ≠ s.name := by
  unfold Tables.scope
  cases ho : t.openSub with
  | none =>
    have hmem : s.name ∈ labelsOf done := h.names ▸ List.mem_map_of_mem hs
    exact (h.labelled.named _ hmem).symm
  | some o =>
    obtain ⟨s', hs', hname, hopen, -⟩ := h.opened o ho
    intro hsame
    rw [h.unique (List.mem_of_getElem? hs') hs (hname.trans hsame), hlast] at hopen
    cases hopen

theorem placed_snoc (h : Chronicle done keys t) (l : Line) :
    ∀ s ∈ t.spans ++ newSpans l.label done.length,
      ∃ (k : Nat) (l' : Line), s.first = k ∧ (done ++ [l])[k]? = some l' ∧ l'.label = some s.name := by
  refine List.forall_mem_append.2 ⟨fun s hs => ?_, fun s hs => ?_⟩
  · obtain ⟨k, l', hfirst, hl', hlabel⟩ := h.placed s hs
    have hk := (List.getElem?_eq_some_iff.1 hl').1
    exact ⟨k, l', hfirst, by rw [List.getElem?_append_left hk, hl'], hlabel⟩
  · obtain ⟨name, hname, rfl⟩ := List.mem_map.1 hs
    exact ⟨done.length, l, rfl, by simp, Option.mem_toList.1 hname⟩

/-- What has ended stays as it is when a line under another label follows. -/
theorem closed_snoc (h : Chronicle done keys t) (hspans : Spans t.isTarget done.length t.openSub t.spans) (l : Line)
    {key : String} (hkey : ∀ s ∈ t.spans, ∀ last ∈ s.last, key ≠ s.name) :
    ∀ s ∈ t.spans ++ newSpans l.label done.length, ∀ last ∈ s.last,
      Covers (keys ++ [key]) s.name s.first (last + 1) ∧
      depthAt (done ++ [l]) s.first.toNat = depthAt (done ++ [l]) (last + 1).toNat := by
  refine List.forall_mem_append.2 ⟨fun s hs last hlast => ?_, fun s hs last hlast => ?_⟩
  · obtain ⟨hcovers, hdepth⟩ := h.closed s hs last hlast
    have hfirst := h.first_lt hs
    have hbound := (hspans.last s hs last hlast).2
    have hlength := h.length
    refine ⟨hcovers.snoc_of_ne (by omega) (hkey s hs last hlast), ?_⟩
    rw [depthAt_append (by omega), depthAt_append (by omega)]
    exact hdepth
  · obtain ⟨name, -, rfl⟩ := List.mem_map.1 hs
    cases hlast

/-- The label of the open subroutine is that of a line. -/
theorem scope_known (h : Chronicle done keys t) : t.scope = "" ∨ t.scope ∈ labelsOf done := by
  unfold Tables.scope
  cases ho : t.openSub with
  | none => exact .inl rfl
  | some o =>
    obtain ⟨s, hs, hname, -⟩ := h.opened o ho
    have hmem : s.name ∈ labelsOf done := h.names ▸ List.mem_map_of_mem (List.mem_of_getElem? hs)
    rw [hname] at hmem
    exact .inr hmem

theorem known_snoc (h : Chronicle done keys t) (l : Line) {key : String}
    (hkey : key = "" ∨ key ∈ labelsOf (done ++ [l])) : ∀ k ∈ keys ++ [key], k = "" ∨ k ∈ labelsOf (done ++ [l]) := by
  refine List.forall_mem_append.2 ⟨fun k hk => ?_, List.forall_mem_singleton.2 hkey⟩
  rw [labelsOf_snoc]
  exact (h.known k hk).imp_right (List.mem_append_left _)

/-- The open subroutine stays open, with one more line. -/
theorem opened_snoc (h : Chronicle done keys t) (l : Line) {o : OpenSub} (ho : t.openSub = some o) :
    ∃ s, (t.spans ++ newSpans l.label done.length)[o.index]? = some s ∧ s.name = o.label ∧ s.last = none ∧
      Covers (keys ++ [o.label]) o.label s.first (done ++ [l]).length ∧
      depthAt (done ++ [l]) s.first.toNat = o.indent := by
  have hlength := h.length
  obtain ⟨s, hs, hname, hlast, hcovers, hstart⟩ := h.opened o ho
  have hfirst := h.first_lt (List.mem_of_getElem? hs)
  have hlt := (List.getElem?_eq_some_iff.1 hs).1
  refine ⟨s, by rw [List.getElem?_append_left hlt, hs], hname, hlast, ?_, ?_⟩
  · rw [List.length_append, List.length_singleton, ← hlength]
    rw [← hlength] at hcovers
    exact hcovers.snoc (by omega)
  · rw [depthAt_append (by omega)]
    exact hstart

/-- A new subroutine starts with the line that has its label. -/
theorem opened_new (h : Chronicle done keys t) {name : String} (hlabel : l.label = some name)
    (hfresh : name ∉ labelsOf done) (hnamed : name ≠ "") :
    ∃ s, (t.spans ++ newSpans l.label done.length)[t.spans.length]? = some s ∧ s.name = name ∧ s.last = none ∧
      Covers (keys ++ [name]) name s.first (done ++ [l]).length ∧ depthAt (done ++ [l]) s.first.toNat = t.indent := by
  have hkeys : name ∉ keys := by
    intro hmem
    rcases h.known name hmem with hempty | hknown
    · exact hnamed hempty
    · exact hfresh hknown
  refine ⟨⟨name, done.length, none⟩, ?_, rfl, rfl, ?_, ?_⟩
  · rw [hlabel, List.getElem?_append_right (Nat.le_refl _), Nat.sub_self]
    rfl
  · rw [List.length_append, List.length_singleton, ← h.length]
    exact .single hkeys
  · rw [Int.toNat_natCast, depthAt_append (Nat.le_refl _), ← h.depth]

/-- **One more line.** Its label, if it is a target of a `GOSUB`, takes the place of the open
subroutine. -/
theorem line (h : Chronicle done keys t) {l : Line} (hspans : Spans t.isTarget done.length t.openSub t.spans)
    (hu : Labelled (done ++ [l])) (hnew : t'.spans = t.spans ++ newSpans l.label done.length)
    (hopen : t'.openSub = ((l.label.filter t.isTarget).map fun name => ⟨t.spans.length, name, t.indent⟩).or t.openSub)
    (hindent : t'.indent = t.indent + (Stmt.stepsOf l.stmts).sum) (hnonneg : 0 ≤ t'.indent) :
    Chronicle (done ++ [l]) (keys ++ [t'.scope]) t' := by
  have hlength : (keys ++ [t'.scope]).length = (done ++ [l]).length := by simp [h.length]
  have hlabels := labelsOf_snoc done l
  have hnames : t'.spans.map Span.name = labelsOf (done ++ [l]) := by
    rw [hnew, List.map_append, h.names, hlabels]
    unfold newSpans
    rw [List.map_map]
    simp [Function.comp_def]
  have hdepth : t'.indent = depthAt (done ++ [l]) (done ++ [l]).length := by
    rw [List.length_append, List.length_singleton, depthAt_snoc, ← h.depth]
    exact hindent
  have hplaced := hnew ▸ h.placed_snoc l
  -- whether the line opens a subroutine decides under which label it is counted
  cases htarget : l.label.filter t.isTarget with
  | none =>
    rw [htarget, Option.map_none, Option.none_or] at hopen
    have hscope : t'.scope = t.scope := by unfold Tables.scope; rw [hopen]
    have hclosed := h.closed_snoc hspans l fun s hs last hlast => h.scope_ne hs hlast
    have hknown := h.known_snoc l (h.scope_known.imp_right fun hmem => by rw [hlabels]; exact List.mem_append_left _ hmem)
    rw [← hscope] at hclosed hknown
    refine ⟨hu, hlength, hnames, hplaced, hknown, hnonneg, hdepth, hnew ▸ hclosed, fun o ho => ?_⟩
    rw [hopen] at ho
    have hkey : t'.scope = o.label := by
      rw [hscope]
      unfold Tables.scope
      rw [Option.mem_def.1 ho]
      rfl
    rw [hkey, hnew]
    exact h.opened_snoc l ho
  | some name =>
    obtain ⟨hlabel, -⟩ := Option.filter_eq_some_iff.1 htarget
    rw [htarget, Option.map_some, Option.some_or] at hopen
    have hscope : t'.scope = name := by unfold Tables.scope; rw [hopen]; rfl
    have hmem : name ∈ l.label.toList := by simp [hlabel]
    have hfresh := hu.fresh hmem
    have hclosed := h.closed_snoc hspans l fun s hs last _ (hsame : name = s.name) =>
      hfresh (hsame ▸ h.names ▸ List.mem_map_of_mem hs)
    have hkey : name ∈ labelsOf (done ++ [l]) := by rw [hlabels]; exact List.mem_append_right _ hmem
    have hknown := h.known_snoc l (.inr hkey)
    rw [← hscope] at hclosed hknown
    refine ⟨hu, hlength, hnames, hplaced, hknown, hnonneg, hdepth, hnew ▸ hclosed, fun o ho => ?_⟩
    rw [hopen, Option.mem_some_iff] at ho
    subst ho
    rw [hscope, hnew]
    exact h.opened_new hlabel hfresh (hu.named name hkey)

/-- The span of the open subroutine has no end yet, and as many loops were open at its label as the subroutine keeps. -/
theorem of_open (h : Chronicle done keys t) {o : OpenSub} (ho : t.openSub = some o)
    {s : Span} (hs : s ∈ t.spans) (hname : s.name = o.label) : s.last = none ∧ depthAt done s.first.toNat = o.indent := by
  obtain ⟨s', hs', hname', hlast, -, hdepth⟩ := h.opened o ho
  obtain rfl := h.unique (List.mem_of_getElem? hs') hs (hname'.trans hname.symm)
  exact ⟨hlast, hdepth⟩

/-- A `RETURN` outside of loops gives the open subroutine its end. -/
theorem spans_close {o : OpenSub} (ho : t.openSub = some o) (hback : t.indent = o.indent) (i : Int) :
    (t.close i).spans = t.spans.modify o.index fun s => { s with last := some i } := by
  rw [← Tables.spans_end]
  simp [Tables.close, ho, hback, Tables.spans]

/-- It ends the subroutine with the label `o.label` and changes no other. -/
theorem mem_close (h : Chronicle done keys t) {o : OpenSub} (ho : t.openSub = some o)
    (hback : t.indent = o.indent) (i : Int) {s : Span} (hs : s ∈ (t.close i).spans) : ∃ s₂ ∈ t.spans,
      s = { s₂ with last := if s₂.name = o.label then some i else s₂.last } := by
  obtain ⟨so, hso, hname, -⟩ := h.opened o ho
  rw [spans_close ho hback] at hs
  obtain ⟨j, hj⟩ := List.mem_iff_getElem?.1 hs
  rw [List.getElem?_modify, Option.map_eq_map, Option.map_eq_some_iff] at hj
  obtain ⟨s₂, hs₂, rfl⟩ := hj
  have hmem := List.mem_of_getElem? hs₂
  by_cases hindex : o.index = j
  · subst hindex
    cases hso.symm.trans hs₂
    exact ⟨so, hmem, by simp [hname]⟩
  · -- another place has another label
    have hother : s₂.name ≠ o.label := by
      intro hsame
      have hpair : (t.spans.map Span.name).Nodup := h.names ▸ h.labelled.nodup
      have hplace : (t.spans.map Span.name)[o.index]? = (t.spans.map Span.name)[j]? := by
        rw [List.getElem?_map, List.getElem?_map, hso, hs₂, Option.map_some, Option.map_some, hname, hsame]
      have hlt : o.index < (t.spans.map Span.name).length := by
        rw [List.length_map]
        exact (List.getElem?_eq_some_iff.1 hso).1
      exact hindex ((List.getElem?_inj hlt hpair).1 hplace)
    exact ⟨s₂, hmem, by simp [hindex, hother]⟩

/-- **A `RETURN`** ends the open subroutine if as many loops are open as at its label. -/
theorem close (h : Chronicle (done ++ [l]) keys t) :
    Chronicle (done ++ [l]) keys (t.close done.length) := by
  cases ho : t.openSub with
  | none =>
    rw [Tables.close, ho]
    exact h
  | some o =>
    by_cases hback : t.indent = o.indent
    · have hmem := fun s => h.mem_close ho hback done.length (s := s)
      have hnames : (t.close done.length).spans.map Span.name = t.spans.map Span.name := by
        have hsame := Tables.map_modify Span.name (fun s => { s with last := some (done.length : Int) }) id (fun _ => rfl)
          t.spans o.index
        rwa [List.modify_id, ← spans_close ho hback] at hsame
      have hrest : (t.close done.length).indent = t.indent ∧ (t.close done.length).openSub = none := by
        rw [Tables.close, ho]
        simp [hback]
      refine ⟨h.labelled, h.length, hnames.trans h.names, fun s hs => ?_, h.known, hrest.1 ▸ h.nonneg, hrest.1 ▸ h.depth,
        fun s hs last hlast => ?_, by simp [hrest.2]⟩
      · obtain ⟨s₂, hs₂, rfl⟩ := hmem s hs
        exact h.placed s₂ hs₂
      · obtain ⟨s₂, hs₂, rfl⟩ := hmem s hs
        by_cases hname : s₂.name = o.label
        · obtain ⟨so, hso, hso', -, hcovers, hstart⟩ := h.opened o ho
          obtain rfl := h.unique (List.mem_of_getElem? hso) hs₂ (hso'.trans hname.symm)
          obtain rfl : (done.length : Int) = last := by simpa [hname] using hlast
          rw [List.length_append, List.length_singleton] at hcovers
          refine ⟨hname ▸ hcovers, ?_⟩
          show depthAt (done ++ [l]) so.first.toNat = _
          rw [hstart, ← hback, h.depth, List.length_append, List.length_singleton]
          rfl
        · rw [if_neg hname] at hlast
          exact h.closed s₂ hs₂ last hlast
    · rw [Tables.close, ho]
      simp only [ne_eq, hback, not_false_eq_true, if_true]
      exact ⟨h.labelled, h.length, h.names, h.placed, h.known, h.nonneg, h.depth, h.closed, h.opened⟩

/-- What was counted under a label before the next line is known of it already. -/
theorem mem_of_counted (h : Chronicle done keys t) (hu : Labelled (done ++ [l])) {s : Span}
    (hs : s ∈ t.spans ++ newSpans l.label done.length) {k : Nat} (hkey : keys[k]? = some s.name) : s ∈ t.spans := by
  rcases List.mem_append.1 hs with hs | hs
  · exact hs
  · obtain ⟨name, hname, rfl⟩ := List.mem_map.1 hs
    rcases h.known name (List.mem_of_getElem? hkey) with hempty | hold
    · exact absurd hempty (hu.named name (labelsOf_snoc done l ▸ List.mem_append_right _ hname))
    · exact absurd hold (hu.fresh hname)

end Chronicle

/-! ## Where subroutines end -/

/-- **The lines that are done, as `RETURN`s have it.** A line with a target of a `GOSUB` is counted under its own
label. A subroutine ends at a line of its own with a `RETURN` if as many loops are open behind the line as at the
label. Until it ends, the next line is one of its own as well, unless it has a target of a `GOSUB`. -/
structure Closings (done : List Line) (codes : List LineCode) (keys : List String) (t : Tables) : Prop where
  target : ∀ {k : Nat} {l : Line} {name : String}, done[k]? = some l → l.label = some name → t.isTarget name = true →
    keys[k]? = some name
  returned : ∀ s ∈ t.spans, ∀ last ∈ s.last, ∃ c, codes[last.toNat]? = some c ∧ c.returns = true
  ends : ∀ s ∈ t.spans, ∀ {k : Nat} {c : LineCode}, keys[k]? = some s.name → codes[k]? = some c → c.returns = true →
    depthAt done (k + 1) = depthAt done s.first.toNat → s.last = some (k : Int)
  goesOn : ∀ s ∈ t.spans, ∀ {k : Nat}, keys[k]? = some s.name → s.last ≠ some (k : Int) →
    (k + 1 = done.length → t.scope = s.name) ∧
      ∀ l, done[k + 1]? = some l → l.label.filter t.isTarget = none → keys[k + 1]? = some s.name

/-- An element of a longer list is one of the list or the last. -/
theorem getElem?_snoc_cases {α : Type} {as : List α} {a b : α} {k : Nat} (h : (as ++ [a])[k]? = some b) :
    as[k]? = some b ∧ k < as.length ∨ k = as.length ∧ b = a := by
  by_cases hk : k < as.length
  · rw [List.getElem?_append_left hk] at h
    exact .inl ⟨h, hk⟩
  · have hlt := (List.getElem?_eq_some_iff.1 h).1
    rw [List.length_append, List.length_singleton] at hlt
    obtain rfl : k = as.length := by omega
    exact .inr ⟨rfl, by simpa using h.symm⟩

namespace Closings

variable {done : List Line} {l : Line} {codes : List LineCode} {c : LineCode} {keys : List String} {t t' : Tables}

/-- **A line starts.** It is counted under its own label if that is a target of a `GOSUB`, and otherwise as the line
before it. -/
theorem enter (h : Closings done codes keys t) (hc : Chronicle done keys t) (hcodes : codes.length = done.length)
    (hu : Labelled (done ++ [l])) (hnew : t'.spans = t.spans ++ Chronicle.newSpans l.label done.length)
    (hopen : t'.openSub = ((l.label.filter t.isTarget).map fun name => ⟨t.spans.length, name, t.indent⟩).or t.openSub)
    (htarget : t'.isTarget = t.isTarget) : Closings (done ++ [l]) codes (keys ++ [t'.scope]) t' := by
  have hlength := hc.length
  have hhere : (keys ++ [t'.scope])[done.length]? = some t'.scope := by simp [← hlength]
  have hbefore : ∀ {k : Nat}, k < done.length → (keys ++ [t'.scope])[k]? = keys[k]? := fun hk =>
    List.getElem?_append_left (by omega)
  refine ⟨?_, ?_, ?_, ?_⟩
  · intro k l' name hl' hlabel hname
    rw [htarget] at hname
    rcases getElem?_snoc_cases hl' with ⟨hl', hk⟩ | ⟨rfl, rfl⟩
    · rw [hbefore hk]
      exact h.target hl' hlabel hname
    · rw [hhere, Tables.scope, hopen, hlabel, Option.filter_some_pos hname]
      rfl
  · intro s hs last hlast
    rcases List.mem_append.1 (hnew ▸ hs) with hs | hs
    · exact h.returned s hs last hlast
    · obtain ⟨name, -, rfl⟩ := List.mem_map.1 hs
      cases hlast
  · intro s hs k c hkey hcode hret hdepth
    have hk : k < done.length := hcodes ▸ (List.getElem?_eq_some_iff.1 hcode).1
    rw [hbefore hk] at hkey
    have hs := hc.mem_of_counted hu (hnew ▸ hs) hkey
    have hfirst := hc.first_lt hs
    rw [depthAt_append (by omega), depthAt_append (by omega)] at hdepth
    exact h.ends s hs hkey hcode hret hdepth
  · intro s hs k hkey hlast
    rw [htarget]
    rcases getElem?_snoc_cases hkey with ⟨hkey, hk⟩ | ⟨rfl, hscope⟩
    · have hs := hc.mem_of_counted hu (hnew ▸ hs) hkey
      obtain ⟨hscope, hnext⟩ := h.goesOn s hs hkey hlast
      refine ⟨fun hk' => ?_, fun l' hl' hnone => ?_⟩
      · rw [List.length_append, List.length_singleton] at hk'
        omega
      · rcases getElem?_snoc_cases hl' with ⟨hl', hk'⟩ | ⟨hk', rfl⟩
        · rw [hbefore hk']
          exact hnext l' hl' hnone
        · rw [hk', hhere, ← hscope hk', Tables.scope, Tables.scope, hopen, hnone]
          rfl
    · refine ⟨fun _ => hscope.symm, fun l' hl' => ?_⟩
      rw [hlength] at hl'
      simp at hl'

/-- **A line is done that ends no subroutine.** -/
theorem code (h : Closings done codes keys t) (hnot : c.returns = true → ∀ s ∈ t.spans, keys[codes.length]? = some s.name →
    depthAt done (codes.length + 1) ≠ depthAt done s.first.toNat) : Closings done (codes ++ [c]) keys t := by
  refine ⟨h.target, fun s hs last hlast => ?_, fun s hs k c' hkey hcode hret hdepth => ?_, h.goesOn⟩
  · obtain ⟨c', hcode, hret⟩ := h.returned s hs last hlast
    exact ⟨c', by rw [List.getElem?_append_left (List.getElem?_eq_some_iff.1 hcode).1, hcode], hret⟩
  · rcases getElem?_snoc_cases hcode with ⟨hcode, -⟩ | ⟨rfl, rfl⟩
    · exact h.ends s hs hkey hcode hret hdepth
    · exact absurd hdepth (hnot hret s hs hkey)

/-- **A line is done that ends the open subroutine.** -/
theorem finish (h : Closings (done ++ [l]) codes keys t) (hc : Chronicle (done ++ [l]) keys t)
    (hcodes : codes.length = done.length) (hhere : keys[done.length]? = some t.scope)
    (hret : c.returns = true) {o : OpenSub} (ho : t.openSub = some o)
    (hback : t.indent = o.indent) : Closings (done ++ [l]) (codes ++ [c]) keys (t.close done.length) := by
  have hscope : t.scope = o.label := by rw [Tables.scope, ho]; rfl
  have htarget : (t.close done.length).isTarget = t.isTarget := by
    rw [Tables.close, ho]
    simp only [hback, ne_eq, not_true_eq_false, if_false]
    rfl
  have hmem := fun s => hc.mem_close ho hback done.length (s := s)
  have hopen : ∀ s ∈ t.spans, ∀ {last : Int}, s.last = some last → s.name ≠ o.label := by
    intro s hs last hlast hname
    rw [(hc.of_open ho hs hname).1] at hlast
    cases hlast
  refine ⟨htarget ▸ h.target, fun s hs last hlast => ?_, fun s hs k c' hkey hcode hret hdepth => ?_,
    fun s hs k hkey hlast => ?_⟩
  · obtain ⟨s₂, hs₂, rfl⟩ := hmem s hs
    by_cases hname : s₂.name = o.label
    · obtain rfl : (done.length : Int) = last := by simpa [hname] using hlast
      exact ⟨c, by simp [← hcodes], hret⟩
    · obtain ⟨c', hcode, hret⟩ := h.returned s₂ hs₂ last (by simpa [hname] using hlast)
      exact ⟨c', by rw [List.getElem?_append_left (List.getElem?_eq_some_iff.1 hcode).1, hcode], hret⟩
  · obtain ⟨s₂, hs₂, rfl⟩ := hmem s hs
    rcases getElem?_snoc_cases hcode with ⟨hcode, -⟩ | ⟨rfl, rfl⟩
    · have hlast := h.ends s₂ hs₂ hkey hcode hret hdepth
      exact (if_neg (hopen s₂ hs₂ hlast)).trans hlast
    · rw [hcodes, hhere, hscope] at hkey
      exact (if_pos (Option.some.inj hkey).symm).trans (by rw [hcodes])
  · obtain ⟨s₂, hs₂, rfl⟩ := hmem s hs
    have hlast₂ : s₂.last ≠ some (k : Int) := fun hlast₂ =>
      hlast ((if_neg (hopen s₂ hs₂ hlast₂)).trans hlast₂)
    obtain ⟨-, hnext⟩ := h.goesOn s₂ hs₂ hkey hlast₂
    refine ⟨fun hk => ?_, htarget ▸ hnext⟩
    obtain rfl : k = done.length := by simpa using hk
    rw [hhere, hscope] at hkey
    exact absurd (if_pos (Option.some.inj hkey).symm) hlast

/-- **A line is done that has a `RETURN`.** -/
theorem close (h : Closings (done ++ [l]) codes keys t) (hc : Chronicle (done ++ [l]) keys t)
    (hcodes : codes.length = done.length) (hhere : keys[done.length]? = some t.scope)
    (hret : c.returns = true) : Closings (done ++ [l]) (codes ++ [c]) keys (t.close done.length) := by
  cases ho : t.openSub with
  | none =>
    rw [Tables.close, ho]
    refine h.code fun _ s hs hkey => ?_
    -- the empty label is that of no line
    rw [hcodes, hhere, Tables.scope, ho] at hkey
    exact absurd (Option.some.inj hkey).symm (hc.labelled.named _ (hc.names ▸ List.mem_map_of_mem hs))
  | some o =>
    by_cases hback : t.indent = o.indent
    · exact h.finish hc hcodes hhere hret ho hback
    · rw [Tables.close, ho]
      simp only [ne_eq, hback, not_false_eq_true, if_true]
      have hcode : Closings (done ++ [l]) (codes ++ [c]) keys t := by
        refine h.code fun _ s hs hkey hdepth => hback ?_
        rw [hcodes, hhere, Tables.scope, ho] at hkey
        rw [hc.depth, ← (hc.of_open ho hs (Option.some.inj hkey).symm).2, ← hdepth, hcodes, List.length_append,
          List.length_singleton]
      exact ⟨hcode.target, hcode.returned, hcode.ends, hcode.goesOn⟩

end Closings

/-! ## References of the lines -/

/-- The variables that the lines under a label refer to. -/
def mentionsUnder (ls : List Line) (keys : List String) (label : String) : List String :=
  (ls.zip keys).flatMap fun x => if x.2 = label then Stmt.mentionsOf x.1.stmts else []

theorem mentionsUnder_snoc {ls : List Line} {keys : List String} (h : keys.length = ls.length) (l : Line)
    (key label : String) : mentionsUnder (ls ++ [l]) (keys ++ [key]) label =
      mentionsUnder ls keys label ++ if key = label then Stmt.mentionsOf l.stmts else [] := by
  unfold mentionsUnder
  rw [List.zip_append h.symm, List.flatMap_append]
  simp

/-- The references to subroutines that the lines make, each with its kind, its labels and the
number of its line. -/
def sitesOf (ls : List Line) : List ((CallKind × List String) × Int) :=
  ls.flatMap fun l => (Stmt.referencesOf l.stmts).map fun r => (r.shape, l.number)

/-- **The lines that are done, as variables and references have it.** Each reference to a variable is
counted under the label of its line, the code is made of the variables that its line refers
to, and its marks are those of the references to subroutines in order. -/
structure Record (done : List Line) (codes : List LineCode) (keys : List String) (t : Tables) : Prop where
  binding : t.binding = .outside
  counted : t.Counted
  uses : ∀ id label, t.uses id label = (mentionsUnder done keys label).count id
  sites : t.callSites.map (fun s => (s.shape, s.lineNumber)) = sitesOf done
  refs : codes.flatMap (fun c => Js.Stmt.refsOf c.code) = List.range t.callSites.length
  remarks : ∀ w ∈ t.warnings, ∀ label, w.remark ≠ .notSubroutine label
  length : codes.length = done.length
  written : ∀ x ∈ done.zip codes, Written (Stmt.mentionsOf x.1.stmts) x.2.code

namespace Record

variable {done : List Line} {l : Line} {codes : List LineCode} {c : LineCode} {keys : List String} {t t₁ t₂ : Tables}

/-- Every code is that of a line. -/
theorem line_of_code (h : Record done codes keys t) {k : Nat} (hc : codes[k]? = some c) :
    ∃ l, done[k]? = some l ∧ Written (Stmt.mentionsOf l.stmts) c.code := by
  have hlt : k < done.length := h.length ▸ (List.getElem?_eq_some_iff.1 hc).1
  have hl : done[k]? = some done[k] := List.getElem?_eq_getElem hlt
  have hmem : (done[k], c) ∈ done.zip codes := List.mem_iff_getElem?.2 ⟨k, List.getElem?_zip_eq_some.2 ⟨hl, hc⟩⟩
  exact ⟨done[k], hl, h.written _ hmem⟩

/-- **One more line.** -/
theorem line (h : Record done codes keys t) (hlength : keys.length = done.length) (hl : l.Proper) {t' : Tables}
    (hc : Emit.Compiles done.length l t t₁ t₂ c t') : Record (done ++ [l]) (codes ++ [c]) (keys ++ [t₁.scope]) t' := by
  obtain ⟨new₁, ⟨hvars, hbinding, hsites₁, hnumber, hwarnings⟩, hplain₁⟩ : ∃ new₁, (t₁.vars = t.vars ∧
      t₁.binding = t.binding ∧ t₁.callSites = t.callSites ∧ t₁.lineNumber = l.number ∧ t₁.warnings = t.warnings ++ new₁) ∧
      ∀ w ∈ new₁, w.remark.isPlain = true := by
    obtain ⟨new₁, rfl, hplain₁⟩ := hc.entered
    exact ⟨new₁, ⟨rfl, rfl, rfl, rfl, rfl⟩, hplain₁⟩
  have hcounted : t₁.Counted := h.counted.congr hvars
  have houtside : t₁.binding = .outside := hbinding.trans h.binding
  have hrefers := Stmt.refers_deeds hl.stmts houtside
  rw [← hc.performed] at hrefers
  have hcode : c.code = Stmt.codeOf t₁ l.stmts := congrArg LineCode.code hc.code
  have hwritten := Stmt.written_code hl.stmts t₁
  have hrefs := (Stmt.emitted_code l.stmts t₁).refs
  rw [← hcode] at hwritten hrefs
  obtain ⟨new₂, hws₂, hplain₂⟩ := hc.does.warnings
  -- the references that the code adds are those with the number of the line
  have hnew : ((Stmt.deedsOf t₁ l.stmts).filterMap (Deed.site? t₁.lineIndex t₁.lineNumber)).map
      (fun s => (s.shape, s.lineNumber)) = (Stmt.referencesOf l.stmts).map fun r => (r.shape, l.number) := by
    rw [← Stmt.references_deeds l.stmts t₁, List.map_filterMap, List.map_filterMap, ← hnumber]
    congr 1
    funext d
    cases d <;> rfl
  have hcount := congrArg List.length hnew
  rw [List.length_map, List.length_map] at hcount
  have hsites := hc.sites
  generalize (Stmt.deedsOf t₁ l.stmts).filterMap (Deed.site? t₁.lineIndex t₁.lineNumber) = new at hnew hcount hsites
  obtain ⟨labels, openSub, new₃, rfl, -, hplain₃, -⟩ := hc.ended
  have hcounted₂ := hrefers.counted hcounted
  refine ⟨hrefers.binding.trans houtside, ⟨hcounted₂.nodup, hcounted₂.valid, hcounted₂.used⟩, ?_, ?_, ?_, ?_,
    by simp [h.length], ?_⟩
  · intro id label
    have huses : t₁.uses id label = t.uses id label := by unfold Tables.uses; rw [hvars]
    have hfilter : (Stmt.mentionsOf l.stmts).filter (fun x => !t₁.binding.params.contains x) =
        Stmt.mentionsOf l.stmts := by
      rw [houtside]
      simp [Binding.params]
    refine (hrefers.uses id label).trans ?_
    rw [huses, hfilter, h.uses, mentionsUnder_snoc hlength, List.count_append]
    by_cases hlabel : label = t₁.scope
    · rw [if_pos hlabel, if_pos hlabel.symm]
    · rw [if_neg hlabel, if_neg (Ne.symm hlabel), List.count_nil]
  · rw [hsites]
    unfold sitesOf
    rw [List.map_append, h.sites, hnew, List.flatMap_append]
    simp [sitesOf]
  · rw [hsites, List.flatMap_append, h.refs, List.length_append, hcount]
    simp only [List.flatMap_cons, List.flatMap_nil, List.append_nil, hrefs, hsites₁]
    rw [List.range_eq_range', List.range_eq_range', ← List.range'_append_1, Nat.zero_add]
  · have hne : ∀ w : Warning, w.remark.isPlain = true → ∀ label, w.remark ≠ .notSubroutine label := by
      intro w hw label hremark
      rw [hremark] at hw
      cases hw
    dsimp only
    rw [hws₂, hwarnings]
    simp only [List.forall_mem_append]
    exact ⟨⟨⟨h.remarks, fun w hw => hne w (hplain₁ w hw)⟩, fun w hw => hne w (hplain₂ w hw)⟩, fun w hw => hne w (hplain₃ w hw)⟩
  · rw [List.zip_append h.length.symm]
    exact List.forall_mem_append.2 ⟨h.written, by simpa using hwritten⟩

end Record

/-! ## Compiling the lines -/

/-- **What the lines that are done have left behind.** -/
structure History (done : List Line) (codes : List LineCode) (keys : List String) (t : Tables) : Prop where
  chronicle : Chronicle done keys t
  record : Record done codes keys t
  closings : Closings done codes keys t

namespace Emit

/-- **The labels under which the references of lines are counted**, from the line with index `i` on:
for each line that of the subroutine open when its statements are compiled. -/
def scopesFrom : (i : Nat) → List Line → Tables → List String
  | _, [], _ => []
  | i, l :: ls, t => ((start i l).apply t).2.scope :: scopesFrom (i + 1) ls ((line i l).apply t).2

/-- **One line** carries the history on. -/
theorem Compiles.history {done : List Line} {l : Line} {codes : List LineCode} {c : LineCode} {keys : List String}
    {t t₁ t₂ t' : Tables} (h : Compiles done.length l t t₁ t₂ c t') (hl : l.Proper) (hb : t.Before done.length)
    (hu : Labelled (done ++ [l])) (hdone : History done codes keys t) :
    History (done ++ [l]) (codes ++ [c]) (keys ++ [t₁.scope]) t' := by
  obtain ⟨hc, hr, he⟩ := hdone
  -- statements leave the labels alone
  have hframe := h.does.frame
  have hscope : t₂.scope = t₁.scope := by
    rw [Tables.scope, show t₂.openSub = t₁.openSub from congrArg Frame.openSub hframe]
    rfl
  obtain ⟨hspans, hopen, hgosubs⟩ : t₁.spans = t.spans ++ Chronicle.newSpans l.label done.length ∧
      t₁.openSub = ((l.label.filter t.isTarget).map fun name => ⟨t.spans.length, name, t.indent⟩).or t.openSub ∧
      t₁.gosubs = t.gosubs := by
    obtain ⟨new, rfl, -⟩ := h.entered
    refine ⟨?_, ?_, rfl⟩
    · unfold Tables.spans Chronicle.newSpans
      rw [List.map_append, List.map_map]
      rfl
    · unfold Tables.spans
      rw [List.length_map]
  have hspans : t₂.spans = _ := (congrArg Frame.spans hframe).trans hspans
  have hopen : t₂.openSub = _ := (congrArg Frame.openSub hframe).trans hopen
  have htarget : t₂.isTarget = t.isTarget := by
    funext name
    rw [Tables.isTarget, show t₂.gosubs = t.gosubs from (congrArg Frame.gosubs hframe).trans hgosubs]
    rfl
  have hchronicle : Chronicle (done ++ [l]) (keys ++ [t₂.scope]) t₂ := by
    obtain ⟨k, hk, hindent⟩ := h.depth t.indent.toNat (Int.toNat_of_nonneg hc.nonneg).symm
    refine hc.line hb.spans hu hspans hopen ?_ (by omega)
    rw [hindent, Stmt.sum_stepsOf hk, Int.toNat_of_nonneg hc.nonneg]
  have hclosings := he.enter hc hr.length hu hspans hopen htarget
  have hhere : (keys ++ [t₂.scope])[done.length]? = some t₂.scope := by simp [← hc.length]
  have hrecord := hr.line hc.length hl h
  rw [← hscope] at hrecord ⊢
  rw [h.after] at hrecord ⊢
  split
  · rename_i hret
    rw [if_pos hret] at hrecord
    exact ⟨hchronicle.close, hrecord, hclosings.close hchronicle hr.length hhere hret⟩
  · rename_i hret
    rw [if_neg hret] at hrecord
    exact ⟨hchronicle, hrecord, hclosings.code fun h => absurd h hret⟩

/-- **All lines** carry the history on, by induction over them. -/
theorem CompilesAll.history {ls done : List Line} {cs codes : List LineCode} {keys : List String} {t t' : Tables}
    (h : CompilesAll done.length ls t cs t') (hls : ∀ l ∈ ls, l.Proper) (hb : t.Before done.length)
    (hu : Labelled (done ++ ls)) (hdone : History done codes keys t) :
    History (done ++ ls) (codes ++ cs) (keys ++ scopesFrom done.length ls t) t' := by
  induction ls generalizing done codes cs keys t with
  | nil =>
    cases h
    simpa [scopesFrom] using hdone
  | cons l ls ih =>
    cases h with
    | @cons _ _ _ _ t₁ t₂ t₃ _ c cs hran hline hlines =>
      obtain ⟨hl, hls⟩ := List.forall_mem_cons.1 hls
      have happend : done ++ l :: ls = (done ++ [l]) ++ ls := by simp
      rw [happend] at hu ⊢
      have hnow := hline.history hl hb hu.front hdone
      have hb₁ := (hline.compiled hl hb hdone.chronicle.nonneg).1
      have hlength : done.length + 1 = (done ++ [l]).length := by simp
      rw [hlength] at hb₁ hlines
      have hrest := ih hlines hls hb₁ hu hnow
      rw [← hlength] at hrest
      rw [scopesFrom, hran, hline.started]
      simpa using hrest

end Emit

/-! ## The history of a program -/

/-- **The labels under which the references of each line are counted.** -/
def Program.scopes (p : Program) : List String := Emit.scopesFrom 0 p.lines p.start

theorem History.start (p : Program) : History [] [] [] p.start := by
  obtain ⟨gosubs, restores, hstart⟩ := p.start_eq
  rw [hstart]
  refine ⟨⟨⟨.nil, by simp [labelsOf]⟩, rfl, rfl, by simp [Tables.spans], by simp, Int.le_refl 0, rfl, ?_, by simp⟩, ?_, ?_⟩
  · simp [Tables.spans]
  · exact ⟨rfl, ⟨.nil, by simp, by simp⟩, fun _ _ => rfl, rfl, rfl, by simp, rfl, by simp⟩
  · exact ⟨by simp, by simp [Tables.spans], by simp [Tables.spans], by simp [Tables.spans]⟩

namespace Stages

variable {p : Program} {text : String}

/-- **The history of a program**, with what is done behind its lines. -/
theorem history (o : Stages p text) (hp : p.Proper) : History p.lines o.codes p.scopes o.tables := by
  obtain ⟨t, hrun, htables⟩ := o.lines_eq
  have hlabelled : Labelled p.lines := by
    refine ⟨hp.nodup, fun name hname => ?_⟩
    obtain ⟨l, hl, hlabel⟩ := List.mem_filterMap.1 hname
    exact ((hp.line l hl).label name hlabel).ne_empty
  have hbefore : p.start.Before ([] : List Line).length := p.before_start.1
  have hcompiles : Emit.CompilesAll ([] : List Line).length p.lines p.start o.codes t :=
    (Emit.lines_compiles 0 p.lines p.start).of_ok hrun
  obtain ⟨hc, hr, he⟩ := hcompiles.history hp.line hbefore hlabelled (.start p)
  obtain ⟨restoreMap, new, lineNumber, hfinish, hnew⟩ := t.finish_eq
  rw [htables, hfinish]
  refine ⟨⟨hc.labelled, hc.length, hc.names, hc.placed, hc.known, hc.nonneg, hc.depth, hc.closed, hc.opened⟩,
    ⟨hr.binding, hr.counted.congr rfl, hr.uses, hr.sites, hr.refs, ?_, hr.length, hr.written⟩,
    ⟨he.target, he.returned, he.ends, he.goesOn⟩⟩
  refine List.forall_mem_append.2 ⟨hr.remarks, fun w hw label hremark => ?_⟩
  obtain ⟨target, htarget⟩ := hnew w hw
  rw [htarget] at hremark
  cases hremark

end Stages

end Locomotive
