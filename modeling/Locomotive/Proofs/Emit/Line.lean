import Locomotive.Emit.Program
import Locomotive.Proofs.Emit.Stmt

/-!
# The code of the lines of a program

The lines are compiled one after the other. Between two lines the labels met so far have
their places in order (`Spans`): a subroutine ends before the next target of a `GOSUB`, so
the lines of different subroutines are apart. Each line's code holds the marks of its own
references and no others (`Placed`).

* `Emit.Compiles`, `Emit.line_compiles`: a line as a step of the tables.
* `Emit.line_ends`, `Emit.lines_ends`: what one line and all lines do.
-/

namespace Locomotive

/-! ## Where labels stand -/

/-- **Labels in order.** All labels met so far stand below `bound`, those of subroutines end
there, and a target of a `GOSUB` stands after the end of each subroutine before it. The open
subroutine is that of the last target. -/
structure Spans (isTarget : String → Bool) (bound : Int) (openSub : Option OpenSub) (spans : List Span) : Prop where
  first : ∀ s ∈ spans, 0 ≤ s.first ∧ s.first < bound
  last : ∀ s ∈ spans, ∀ k ∈ s.last, s.first ≤ k ∧ k < bound
  apart : spans.Pairwise fun a b => isTarget b.name = true → ∀ k ∈ a.last, k < b.first
  opened : ∀ o ∈ openSub, ∃ s, spans[o.index]? = some s ∧ ∀ b ∈ spans.drop (o.index + 1), isTarget b.name = false

namespace Spans

variable {isTarget : String → Bool} {bound : Int} {openSub : Option OpenSub} {spans : List Span}

theorem nil (isTarget : String → Bool) (bound : Int) : Spans isTarget bound none [] :=
  ⟨by simp, by simp, .nil, by simp⟩

theorem mono (h : Spans isTarget bound openSub spans) : Spans isTarget (bound + 1) openSub spans where
  first s hs := ⟨(h.first s hs).1, by have := (h.first s hs).2; omega⟩
  last s hs k hk := ⟨(h.last s hs k hk).1, by have := (h.last s hs k hk).2; omega⟩
  apart := h.apart
  opened := h.opened

/-- A label is added after the others. -/
theorem define (h : Spans isTarget bound openSub spans) (hb : 0 ≤ bound) (label : String) {openSub' : Option OpenSub}
    (ho : if isTarget label then openSub'.map OpenSub.index = some spans.length else openSub' = openSub) :
    Spans isTarget (bound + 1) openSub' (spans ++ [⟨label, bound, none⟩]) where
  first := List.forall_mem_append.2 ⟨h.mono.first, by simp; omega⟩
  last := List.forall_mem_append.2 ⟨h.mono.last, by simp⟩
  apart := by
    refine List.pairwise_append.2 ⟨h.apart, List.pairwise_singleton .., fun a ha b hb _ k hk => ?_⟩
    obtain rfl := List.mem_singleton.1 hb
    exact (h.last a ha k hk).2
  opened := by
    rintro o rfl
    cases ht : isTarget label with
    | true =>
      rw [ht, if_pos rfl, Option.map_some, Option.some.injEq] at ho
      exact ⟨⟨label, bound, none⟩, by simp [ho], by simp [ho, List.drop_eq_nil_of_le]⟩
    | false =>
      rw [ht, if_neg (by decide)] at ho
      obtain ⟨s, hs, hlater⟩ := h.opened o ho.symm
      have hlt := (List.getElem?_eq_some_iff.1 hs).1
      refine ⟨s, by rw [List.getElem?_append_left hlt, hs], ?_⟩
      rw [List.drop_append_of_le_length hlt]
      exact List.forall_mem_append.2 ⟨hlater, by simp [ht]⟩

/-- The open subroutine ends. -/
theorem close {o : OpenSub} (h : Spans isTarget (bound + 1) (some o) spans) :
    Spans isTarget (bound + 1) none (spans.modify o.index fun s => { s with last := some bound }) := by
  obtain ⟨s, hs, hlater⟩ := h.opened o rfl
  obtain ⟨hlt, hget⟩ := List.getElem?_eq_some_iff.1 hs
  have hdrop : spans.drop o.index = s :: spans.drop (o.index + 1) := by
    rw [List.drop_eq_getElem_cons hlt, hget]
  have hsplit : spans = spans.take o.index ++ s :: spans.drop (o.index + 1) := by
    rw [← hdrop, List.take_append_drop]
  have hmodify : spans.modify o.index (fun s => { s with last := some bound }) =
      spans.take o.index ++ { s with last := some bound } :: spans.drop (o.index + 1) := by
    rw [List.modify_eq_take_drop, hdrop]; rfl
  rw [hmodify]
  generalize spans.take o.index = before at hsplit
  generalize spans.drop (o.index + 1) = after at hsplit hlater
  subst hsplit
  obtain ⟨hfirst, hlast, hapart, -⟩ := h
  obtain ⟨hfbefore, hfirst⟩ := List.forall_mem_append.1 hfirst
  obtain ⟨hfs, hfafter⟩ := List.forall_mem_cons.1 hfirst
  obtain ⟨hlbefore, hlast⟩ := List.forall_mem_append.1 hlast
  obtain ⟨-, hlafter⟩ := List.forall_mem_cons.1 hlast
  obtain ⟨hbefore, hafter, hcross⟩ := List.pairwise_append.1 hapart
  refine ⟨?_, ?_, ?_, by simp⟩
  · exact List.forall_mem_append.2 ⟨hfbefore, List.forall_mem_cons.2 ⟨hfs, hfafter⟩⟩
  · refine List.forall_mem_append.2 ⟨hlbefore, List.forall_mem_cons.2 ⟨?_, hlafter⟩⟩
    rintro k ⟨rfl⟩
    exact ⟨Int.lt_add_one_iff.1 hfs.2, Int.lt_succ _⟩
  · -- no target follows the open subroutine, so its end is not after one
    have hrest := (List.pairwise_cons.1 hafter).2
    refine List.pairwise_append.2 ⟨hbefore, List.pairwise_cons.2 ⟨fun b hb ht => ?_, hrest⟩, ?_⟩
    · rw [hlater b hb] at ht; cases ht
    · intro a ha b hb
      rcases List.mem_cons.1 hb with rfl | hb
      · exact hcross a ha s (by simp)
      · exact hcross a ha b (by simp [hb])

end Spans

namespace Tables

/-- The names and lines of the labels. -/
def spans (t : Tables) : List Span := t.labels.map Label.span

/-- What holds of the tables before the line with index `i` is compiled. -/
structure Before (i : Nat) (t : Tables) : Prop where
  noMarks : t.NoMarks
  spans : Spans t.isTarget i t.openSub t.spans
  sites : ∀ s ∈ t.callSites, s.line < i

/-- A label can be defined unless another one stands behind it. A target of a `GOSUB` takes the place of the
subroutine that was open. -/
theorem define_eq (t : Tables) (label : String) (line : Int) :
    (∃ f, t.define label line = .error f ∧ ∃ x ∈ t.labels, line ≤ x.first) ∨ ∃ new, t.define label line = .ok { t with
        labels := t.labels ++ [⟨label, line, none, none⟩],
        openSub := if t.isTarget label then some ⟨t.labels.length, label, t.indent⟩ else t.openSub,
        warnings := t.warnings ++ new } ∧ ∀ w ∈ new, w.remark.isPlain = true := by
  unfold define
  cases horder : t.labels.getLast?.any fun l => decide (l.first ≥ line) with
  | true =>
    obtain ⟨x, hx, hfirst⟩ := (Option.any_eq_true ..).1 horder
    exact .inl ⟨_, rfl, x, List.mem_of_getLast? hx, of_decide_eq_true hfirst⟩
  | false =>
    refine .inr ?_
    rw [if_neg (by decide)]
    cases ht : t.isTarget label with
    | false => exact ⟨[], by simp, by simp⟩
    | true =>
      cases t.openSub with
      | none => exact ⟨[], by simp, by simp⟩
      | some o => exact ⟨[⟨t.lineNumber, .unfinishedSubroutine o.label label⟩], rfl, by simp [Remark.isPlain]⟩

/-- The end of a label is the end of its span. -/
theorem spans_end (t : Tables) (index : Nat) (line : Int) :
    (t.labels.modify index fun l => { l with last := some line }).map Label.span =
      t.spans.modify index fun s => { s with last := some line } :=
  map_modify Label.span (fun l => { l with last := some line }) (fun s => { s with last := some line }) (fun _ => rfl)
    t.labels index

/-- A `RETURN` changes where labels end, which keeps them in order, and the open subroutine. -/
theorem close_eq (t : Tables) (line : Int) : ∃ labels openSub new,
    t.close line = { t with labels := labels, openSub := openSub, warnings := t.warnings ++ new } ∧
      (labels.map fun l => (l.name, l.dataIndex)) = (t.labels.map fun l => (l.name, l.dataIndex)) ∧
      (∀ w ∈ new, w.remark.isPlain = true) ∧
      (Spans t.isTarget (line + 1) t.openSub t.spans → Spans t.isTarget (line + 1) openSub (labels.map Label.span)) := by
  unfold close
  cases ho : t.openSub with
  | none => exact ⟨t.labels, none, [], by simp [← ho], rfl, by simp, id⟩
  | some o =>
    dsimp only
    split
    · exact ⟨t.labels, some o, [⟨t.lineNumber, .returnInBlock o.label⟩], by simp [warn, ← ho], rfl, by simp [Remark.isPlain], id⟩
    · refine ⟨_, none, [], by simp; rfl, ?_, by simp, fun h => ?_⟩
      · have hnames := map_modify (fun l => (l.name, l.dataIndex)) (fun l => { l with last := some line }) id (fun _ => rfl)
          t.labels o.index
        rwa [List.modify_id] at hnames
      · rw [spans_end]
        exact h.close

end Tables

/-! ## The code of a line -/

/-- **The code of the line with index `i`** in a program with the given references. Those of
the line stand together, and the marks in the code are theirs. -/
structure Placed (sites : List CallSite) (i : Nat) (l : Line) (c : LineCode) : Prop where
  indent : 0 ≤ c.indent
  waits : c.waits = Js.Stmt.anyAwaits (fun _ => false) c.code
  arrows : Js.Stmt.AllArrowsAgree c.code
  tidy : Js.Tidy c.code
  sited : Js.Stmt.AllSited c.code
  own : ∃ before new after, sites = before ++ new ++ after ∧ (∀ s ∈ before, s.line < i) ∧
    (∀ s ∈ new, s.line = i) ∧ (∀ s ∈ after, i < s.line) ∧
    new.map CallSite.shape = (Stmt.referencesOf l.stmts).map Reference.shape ∧
    Js.Stmt.refsOf c.code = List.range' before.length new.length

/-- References of later lines may follow. -/
theorem Placed.append {sites : List CallSite} {i : Nat} {l : Line} {c : LineCode} (h : Placed sites i l c)
    {more : List CallSite} (hmore : ∀ s ∈ more, i < s.line) : Placed (sites ++ more) i l c := by
  obtain ⟨before, new, after, hsites, hb, hn, ha, hshape, hrefs⟩ := h.own
  refine ⟨h.indent, h.waits, h.arrows, h.tidy, h.sited, before, new, after ++ more, ?_, hb, hn, ?_, hshape, hrefs⟩
  · rw [hsites, List.append_assoc]
  · exact List.forall_mem_append.2 ⟨ha, hmore⟩

/-- The codes of lines from index `i` on. -/
inductive PlacedAll (sites : List CallSite) : Nat → List Line → List LineCode → Prop
  | nil (i : Nat) : PlacedAll sites i [] []
  | cons {i : Nat} {l : Line} {ls : List Line} {c : LineCode} {cs : List LineCode} :
    Placed sites i l c → PlacedAll sites (i + 1) ls cs → PlacedAll sites i (l :: ls) (c :: cs)

namespace PlacedAll

variable {sites : List CallSite} {i : Nat} {ls : List Line} {cs : List LineCode}

theorem length_eq (h : PlacedAll sites i ls cs) : cs.length = ls.length := by
  induction h with
  | nil => rfl
  | cons _ _ ih => rw [List.length_cons, List.length_cons, ih]

/-- The line with a given index, and its code. -/
theorem get (h : PlacedAll sites i ls cs) {k : Nat} (hk : k < ls.length) :
    ∃ l c, ls[k]? = some l ∧ cs[k]? = some c ∧ Placed sites (i + k) l c := by
  induction h generalizing k with
  | nil => exact absurd hk (Nat.not_lt_zero k)
  | @cons i l ls c cs hc _ ih =>
    cases k with
    | zero => exact ⟨l, c, rfl, rfl, hc⟩
    | succ k =>
      obtain ⟨l', c', hl', hc', hplaced⟩ := ih (Nat.lt_of_succ_lt_succ hk)
      refine ⟨l', c', hl', hc', ?_⟩
      rwa [Nat.add_assoc, Nat.add_comm 1 k] at hplaced

theorem mem (h : PlacedAll sites i ls cs) {c : LineCode} (hc : c ∈ cs) : ∃ k l, Placed sites k l c := by
  induction h with
  | nil => simp at hc
  | cons hplaced _ ih =>
    rcases List.mem_cons.1 hc with rfl | hc
    · exact ⟨_, _, hplaced⟩
    · exact ih hc

end PlacedAll

/-- A reference of the line is one that its statements make. -/
theorem Placed.mem_references {sites : List CallSite} {i : Nat} {l : Line} {c : LineCode} (h : Placed sites i l c)
    {s : CallSite} (hs : s ∈ sites) (hline : s.line = i) :
    ∃ r ∈ Stmt.referencesOf l.stmts, r.shape = s.shape := by
  obtain ⟨before, new, after, rfl, hb, -, ha, hshape, -⟩ := h.own
  have hnew : s ∈ new := by
    rcases List.mem_append.1 hs with hs | hs
    · rcases List.mem_append.1 hs with hs | hs
      · have := hb s hs; omega
      · exact hs
    · have := ha s hs; omega
  have hmem : s.shape ∈ (Stmt.referencesOf l.stmts).map Reference.shape := hshape ▸ List.mem_map_of_mem hnew
  exact List.mem_map.1 hmem

/-- The marks in the code and the references of the statements, taken in order, belong
together. -/
theorem Placed.length_refs {sites : List CallSite} {i : Nat} {l : Line} {c : LineCode} (h : Placed sites i l c) :
    (Js.Stmt.refsOf c.code).length = (Stmt.referencesOf l.stmts).length := by
  obtain ⟨before, new, after, -, -, -, -, hshape, hrefs⟩ := h.own
  have hlen := congrArg List.length hshape
  rw [List.length_map, List.length_map] at hlen
  rw [hrefs, List.length_range', hlen]

theorem Placed.site_of_mem_zip {sites : List CallSite} {i : Nat} {l : Line} {c : LineCode} (h : Placed sites i l c)
    {x : Nat × Reference} (hx : x ∈ (Js.Stmt.refsOf c.code).zip (Stmt.referencesOf l.stmts)) :
    ∃ s, sites[x.1]? = some s ∧ s.shape = x.2.shape := by
  obtain ⟨before, new, after, rfl, -, -, -, hshape, hrefs⟩ := h.own
  obtain ⟨j, hj⟩ := List.mem_iff_getElem?.1 hx
  rw [List.getElem?_zip_eq_some, hrefs] at hj
  obtain ⟨hnumber, href⟩ := hj
  obtain ⟨hlt, hnumber⟩ := List.getElem?_eq_some_iff.1 hnumber
  rw [List.getElem_range', Nat.one_mul] at hnumber
  rw [List.length_range'] at hlt
  -- the reference with that number is the `j`-th one of the line
  have hsite : (before ++ new ++ after)[x.1]? = some new[j] := by
    rw [← hnumber, List.append_assoc, List.getElem?_append_right (Nat.le_add_right ..), Nat.add_sub_cancel_left,
      List.getElem?_append_left hlt, List.getElem?_eq_getElem hlt]
  have hshapes := congrArg (fun shapes => shapes[j]?) hshape
  simp only [List.getElem?_map, href, List.getElem?_eq_getElem hlt, Option.map_some, Option.some.injEq] at hshapes
  exact ⟨new[j], hsite, hshapes⟩

/-- What compiling lines from index `i` on does. -/
structure Compiled (t t' : Tables) (i : Nat) (ls : List Line) (cs : List LineCode) : Prop where
  names : t'.labels.map Label.name = t.labels.map Label.name ++ labelsOf ls
  gosubs : t'.gosubs = t.gosubs
  restores : t'.restores = t.restores
  restoreMap : t'.restoreMap = t.restoreMap
  sites : ∃ new, t'.callSites = t.callSites ++ new ∧ ∀ s ∈ new, (i : Int) ≤ s.line
  placed : PlacedAll t'.callSites i ls cs

/-- Lines one after the other. -/
theorem Compiled.cons {t t' t'' : Tables} {i : Nat} {l : Line} {ls : List Line} {c : LineCode} {cs : List LineCode}
    (h : Compiled t t' i [l] [c]) (hs : Compiled t' t'' (i + 1) ls cs) : Compiled t t'' i (l :: ls) (c :: cs) := by
  obtain ⟨new, hnew, hline⟩ := h.sites
  obtain ⟨more, hmore, hlater⟩ := hs.sites
  refine ⟨?_, hs.gosubs.trans h.gosubs, hs.restores.trans h.restores, hs.restoreMap.trans h.restoreMap,
    ⟨new ++ more, ?_, ?_⟩, ?_⟩
  · rw [hs.names, h.names, List.append_assoc]
    congr 1
    unfold labelsOf
    rw [← List.filterMap_append, List.singleton_append]
  · rw [hmore, hnew, List.append_assoc]
  · refine List.forall_mem_append.2 ⟨hline, fun s hs => ?_⟩
    have := hlater s hs; omega
  · -- the references of the later lines come after those of this one
    cases h.placed with
    | cons hplaced _ =>
      refine .cons ?_ hs.placed
      rw [hmore]
      exact hplaced.append fun s hs => by have := hlater s hs; omega

/-- A `RETURN` stands in the code outside of any `IF`. -/
def LineCode.returns (c : LineCode) : Bool := c.code.any Js.Stmt.isRet

namespace Emit

/-! ## A line as a step of the tables -/

/-- The line begins, and its label is noted. -/
def start (i : Nat) (l : Line) : Emit Unit := do
  update fun t => t.beginLine i l.number
  match l.label with
  | some label => define label i
  | none => pure ()

/-- **The tables between the label of a line and its statements.** A target of a `GOSUB` takes the place of the
subroutine that was open. -/
def Entered (i : Nat) (l : Line) (t t₁ : Tables) : Prop :=
  ∃ new, t₁ = { t with
      lineIndex := i, lineNumber := l.number, waits := false,
      labels := t.labels ++ l.label.toList.map fun name => ⟨name, i, none, none⟩,
      openSub := ((l.label.filter t.isTarget).map fun name => ⟨t.labels.length, name, t.indent⟩).or t.openSub,
      warnings := t.warnings ++ new } ∧ ∀ w ∈ new, w.remark.isPlain = true

theorem start_ends (i : Nat) (l : Line) (t : Tables) :
    Ends (start i l) t (fun _ t₁ => Entered i l t t₁) fun _ => ∃ x ∈ t.labels, (i : Int) ≤ x.first := by
  rw [start, ends_bind, ends_update]
  cases hl : l.label with
  | none => exact ⟨[], by simp [hl, Tables.beginLine], by simp⟩
  | some label =>
    dsimp only
    rw [ends_define]
    rcases (t.beginLine i l.number).define_eq label i with ⟨f, hdefine, hlate⟩ | ⟨new, hdefine, hnew⟩
    · rw [hdefine]
      exact hlate
    · rw [hdefine]
      refine ⟨new, ?_, hnew⟩
      have htarget : (t.beginLine i l.number).isTarget label = t.isTarget label := rfl
      rw [hl, htarget]
      cases ht : t.isTarget label <;> simp [Option.filter, ht, Tables.beginLine]

/-- **What compiling a line does**, where `t₁` are the tables between its label and its statements, and `t₂` those
before a `RETURN` ends the subroutine. -/
structure Compiles (i : Nat) (l : Line) (t t₁ t₂ : Tables) (c : LineCode) (t' : Tables) : Prop where
  started : ((start i l).apply t).2 = t₁
  entered : Entered i l t t₁
  performed : t₂ = t₁.perform (Stmt.deedsOf t₁ l.stmts)
  code : c = ⟨min t.indent t₂.indent, Stmt.codeOf t₁ l.stmts, t₂.waits⟩
  after : t' = if c.returns then t₂.close i else t₂
  depth : ∀ n : Nat, t.indent = n → ∃ k : Nat, Stmt.depthOf? l.stmts n = some k ∧ t₂.indent = k

/-- **What compiling lines does**, one after the other. -/
inductive CompilesAll : Nat → List Line → Tables → List LineCode → Tables → Prop
  | nil {i : Nat} {t : Tables} : CompilesAll i [] t [] t
  | cons {i : Nat} {l : Line} {ls : List Line} {t t₁ t₂ t' t'' : Tables} {c : LineCode} {cs : List LineCode} :
    (line i l).apply t = (.ok c, t') → Compiles i l t t₁ t₂ c t' → CompilesAll (i + 1) ls t' cs t'' →
    CompilesAll i (l :: ls) t (c :: cs) t''

theorem line_eq (i : Nat) (l : Line) : line i l = (start i l >>= fun _ => do
      let before := (← get).indent
      let code ← atLine l.number (stmts l.stmts)
      let t ← get
      if code.any Js.Stmt.isRet then update fun t => t.close i
      pure ⟨min before t.indent, code, t.waits⟩) := by
  rw [line, start, bind_assoc]
  cases l.label <;> simp

/-- **One line.** With proper statements it fails only where a label stands behind its own, or for the nesting of
blocks. -/
theorem line_compiles (i : Nat) (l : Line) (t : Tables) :
    Ends (line i l) t (fun c t' => ∃ t₁ t₂, Compiles i l t t₁ t₂ c t') fun f =>
      (∃ x ∈ t.labels, (i : Int) ≤ x.first) ∨
        (Stmt.AllProper l.stmts → ∀ n : Nat, t.indent = n → f.IsNesting ∧ Stmt.depthOf? l.stmts n = none) := by
  rw [line_eq]
  refine (((start_ends i l t).and (ends_self (start i l) t)).mono (fun _ _ => id) fun f hf => .inl hf.1).bind ?_
  rintro _ t₁ ⟨hentered, hstarted⟩
  have hindent : t₁.indent = t.indent := by
    obtain ⟨new, rfl, -⟩ := hentered
    rfl
  rw [ends_bind, ends_get, ends_bind, ends_atLine]
  refine Ends.mono (stmts_does l.stmts t₁) ?_ ?_
  · rintro _ t₂ ⟨rfl, ht₂, hdepth⟩
    rw [hindent] at hdepth
    rw [ends_bind, ends_get, hindent]
    have hstarted := congrArg Prod.snd hstarted
    by_cases hret : (Stmt.codeOf t₁ l.stmts).any Js.Stmt.isRet = true
    · rw [if_pos hret]
      exact ⟨t₁, t₂, hstarted, hentered, ht₂, rfl, (if_pos hret).symm, hdepth⟩
    · rw [if_neg hret]
      exact ⟨t₁, t₂, hstarted, hentered, ht₂, rfl, (if_neg hret).symm, hdepth⟩
  · intro f hf
    refine .inr fun hp n hn => ?_
    obtain ⟨hnest, hnone⟩ := hf hp n (hindent.trans hn)
    exact ⟨hnest.atLine l.number, hnone⟩

theorem Entered.spans {i : Nat} {l : Line} {t t₁ : Tables} (h : Entered i l t t₁)
    (hs : Spans t.isTarget i t.openSub t.spans) : Spans t₁.isTarget (i + 1) t₁.openSub t₁.spans := by
  obtain ⟨new, rfl, -⟩ := h
  unfold Tables.spans at hs ⊢
  cases l.label with
  | none =>
    rw [Option.toList_none, List.map_nil, List.append_nil]
    exact hs.mono
  | some label =>
    rw [List.map_append]
    refine hs.define (Int.natCast_nonneg i) label ?_
    cases ht : t.isTarget label <;> simp [Option.filter, ht]

theorem names_spans (t : Tables) : t.labels.map Label.name = t.spans.map Span.name := by
  unfold Tables.spans
  rw [List.map_map]
  rfl

namespace Compiles

variable {i : Nat} {l : Line} {t t₁ t₂ t' : Tables} {c : LineCode}

/-- What the statements of the line do to the tables. -/
theorem does (h : Compiles i l t t₁ t₂ c t') : Performed t₁ (Stmt.deedsOf t₁ l.stmts) t₂ :=
  h.performed ▸ t₁.performed _

/-- After the statements, only the end of a subroutine may be noted. -/
theorem ended (h : Compiles i l t t₁ t₂ c t') : ∃ labels openSub new,
    t' = { t₂ with labels := labels, openSub := openSub, warnings := t₂.warnings ++ new } ∧
      (labels.map fun l => (l.name, l.dataIndex)) = (t₂.labels.map fun l => (l.name, l.dataIndex)) ∧
      (∀ w ∈ new, w.remark.isPlain = true) ∧
      (Spans t₂.isTarget (i + 1) t₂.openSub t₂.spans → Spans t₂.isTarget (i + 1) openSub (labels.map Label.span)) := by
  rw [h.after]
  split
  · exact t₂.close_eq i
  · exact ⟨t₂.labels, t₂.openSub, [], by simp, rfl, by simp, id⟩

theorem indent_eq (h : Compiles i l t t₁ t₂ c t') : t'.indent = t₂.indent := by
  obtain ⟨labels, openSub, new, rfl, -⟩ := h.ended
  rfl

theorem sites (h : Compiles i l t t₁ t₂ c t') : t'.callSites =
    t.callSites ++ (Stmt.deedsOf t₁ l.stmts).filterMap (Deed.site? t₁.lineIndex t₁.lineNumber) := by
  have hsites := h.does.sites
  obtain ⟨labels, openSub, new, rfl, -⟩ := h.ended
  obtain ⟨new₁, rfl, -⟩ := h.entered
  exact hsites

theorem nonneg (h : Compiles i l t t₁ t₂ c t') (ht : 0 ≤ t.indent) : 0 ≤ c.indent ∧ 0 ≤ t'.indent := by
  obtain ⟨k, -, hk⟩ := h.depth t.indent.toNat (Int.toNat_of_nonneg ht).symm
  rw [h.indent_eq, h.code]
  dsimp only
  omega

/-- **A line keeps the labels in order.** -/
theorem spans (h : Compiles i l t t₁ t₂ c t') (hs : Spans t.isTarget i t.openSub t.spans) :
    Spans t'.isTarget (i + 1) t'.openSub t'.spans := by
  have hframe := h.does.frame
  have hspans : t₂.spans = t₁.spans := congrArg Frame.spans hframe
  have hopen : t₂.openSub = t₁.openSub := congrArg Frame.openSub hframe
  have htarget : t₂.isTarget = t₁.isTarget := by
    funext label
    unfold Tables.isTarget
    rw [show t₂.gosubs = t₁.gosubs from congrArg Frame.gosubs hframe]
  obtain ⟨labels, openSub, new, rfl, -, -, hkeep⟩ := h.ended
  refine hkeep ?_
  rw [htarget, hopen, hspans]
  exact h.entered.spans hs

theorem names (h : Compiles i l t t₁ t₂ c t') :
    t'.labels.map Label.name = t.labels.map Label.name ++ labelsOf [l] := by
  have hspans : t₂.spans = t₁.spans := congrArg Frame.spans h.does.frame
  obtain ⟨labels, openSub, new, rfl, hnames, -⟩ := h.ended
  have hnames := congrArg (List.map Prod.fst) hnames
  rw [List.map_map, List.map_map] at hnames
  obtain ⟨new₁, rfl, -⟩ := h.entered
  refine hnames.trans ((names_spans t₂).trans ?_)
  rw [hspans, ← names_spans, List.map_append]
  cases hl : l.label <;> simp [labelsOf, hl]

/-- **A line with proper statements** keeps the tables in order, and its code has its place among the others. -/
theorem compiled (h : Compiles i l t t₁ t₂ c t') (hl : l.Proper) (hb : t.Before i) (ht : 0 ≤ t.indent) :
    t'.Before (i + 1) ∧ Compiled t t' i [l] [c] := by
  have hdoes := h.does
  obtain ⟨hindent, -⟩ := h.nonneg ht
  have hspans := h.spans hb.spans
  have hnames := h.names
  have hmarks := fun hm => hdoes.noMarks (Stmt.clear_deeds hl.stmts hl.words t₁) hm
  have hwaits := hdoes.waits
  rw [← Stmt.anyAwaits_code hl.stmts] at hwaits
  -- the references that are added are those of the statements
  have hshape := Deed.shapes (Stmt.deedsOf t₁ l.stmts) t₁.lineIndex t₁.lineNumber
  rw [Stmt.references_deeds] at hshape
  have hline : ∀ s ∈ (Stmt.deedsOf t₁ l.stmts).filterMap (Deed.site? t₁.lineIndex t₁.lineNumber), s.line = t₁.lineIndex := by
    intro s hs
    obtain ⟨d, -, hd⟩ := List.mem_filterMap.1 hs
    cases d <;> cases hd
    rfl
  obtain ⟨hrefs, hsited, harrows⟩ := Stmt.emitted_code l.stmts t₁
  rw [← List.length_map (f := Reference.shape), ← hshape, List.length_map] at hrefs
  have hsites := hdoes.sites
  generalize (Stmt.deedsOf t₁ l.stmts).filterMap (Deed.site? t₁.lineIndex t₁.lineNumber) = new at hshape hline hrefs hsites
  have htidy := Stmt.tidy_code hl.words t₁
  obtain ⟨labels, openSub, warnings, rfl, -⟩ := h.ended
  obtain rfl := h.code
  obtain ⟨new₁, rfl, -⟩ := h.entered
  have hmarks := hmarks ⟨hb.noMarks.vars, hb.noMarks.data⟩
  refine ⟨⟨⟨hmarks.vars, hmarks.data⟩, hspans, ?_⟩, hnames, congrArg Frame.gosubs hdoes.frame,
    congrArg Frame.restores hdoes.frame, congrArg Frame.restoreMap hdoes.frame,
    ⟨new, hsites, fun s hs => Int.le_of_eq (hline s hs).symm⟩, .cons ⟨hindent, hwaits, harrows, htidy, hsited, ?_⟩ (.nil _)⟩
  · rw [show ({ t₂ with labels, openSub, warnings := t₂.warnings ++ warnings } : Tables).callSites = _ from hsites]
    refine List.forall_mem_append.2 ⟨fun s hs => ?_, fun s hs => ?_⟩
    · have := hb.sites s hs; omega
    · have : s.line = i := hline s hs
      omega
  · exact ⟨t.callSites, new, [], by rw [List.append_nil]; exact hsites, hb.sites, hline, by simp, hshape, hrefs⟩

end Compiles

theorem lines_compiles (i : Nat) (ls : List Line) (t : Tables) :
    Ends (lines i ls) t (fun cs t' => CompilesAll i ls t cs t') fun _ => True := by
  induction ls generalizing i t with
  | nil => exact .nil
  | cons l ls ih =>
    rw [lines]
    refine (((line_compiles i l t).and (ends_self (line i l) t)).mono (fun _ _ => id) fun _ _ => trivial).bind ?_
    rintro c t' ⟨⟨t₁, t₂, hc⟩, hran⟩
    exact (ih (i + 1) t').bind fun cs t'' hcs => .cons hran hc hcs

/-- **One line.** It leads from `n` open blocks to as many as its statements leave open. -/
theorem line_ends {i n : Nat} {l : Line} {t : Tables} (hl : l.Proper) (h : t.Before i) (hn : t.indent = n) :
    Ends (line i l) t (fun c t' => (t'.Before (i + 1) ∧ Compiled t t' i [l] [c]) ∧
        ∃ k : Nat, Stmt.depthOf? l.stmts n = some k ∧ t'.indent = k)
      fun f => f.IsNesting ∧ Stmt.depthOf? l.stmts n = none := by
  refine (line_compiles i l t).mono ?_ ?_
  · rintro c t' ⟨t₁, t₂, hc⟩
    obtain ⟨k, hk, hindent⟩ := hc.depth n hn
    exact ⟨hc.compiled hl h (by omega), k, hk, hc.indent_eq.trans hindent⟩
  · rintro f (⟨x, hx, hlate⟩ | hf)
    · have := (h.spans.first x.span (List.mem_map_of_mem hx)).2
      exact absurd hlate (Int.not_le.2 this)
    · exact hf hl.stmts n hn

/-- **All lines**, by induction over them. -/
theorem lines_ends {ls : List Line} (hls : ∀ l ∈ ls, l.Proper) {i n : Nat} {t : Tables} (h : t.Before i)
    (hn : t.indent = n) :
    Ends (lines i ls) t (fun cs t' => (t'.Before (i + ls.length) ∧ Compiled t t' i ls cs) ∧
        ∃ k : Nat, Stmt.depthOf? (ls.flatMap Line.stmts) n = some k ∧ t'.indent = k)
      fun f => f.IsNesting ∧ Stmt.depthOf? (ls.flatMap Line.stmts) n = none := by
  induction ls generalizing i n t with
  | nil => exact ⟨⟨h, by simp [labelsOf], rfl, rfl, rfl, ⟨[], by simp, by simp⟩, .nil i⟩, n, rfl, hn⟩
  | cons l ls ih =>
    obtain ⟨hl, hls⟩ := List.forall_mem_cons.1 hls
    rw [lines, List.flatMap_cons, Stmt.depthOf?_append]
    refine ((line_ends hl h hn).mono (fun _ _ => id) ?_).bind ?_
    · rintro f ⟨hf, hnone⟩
      exact ⟨hf, by rw [hnone]; rfl⟩
    rintro c t₁ ⟨⟨hb, hc⟩, k, hk, hindent⟩
    -- the blocks that the line leaves open are those that the other lines find
    rw [hk, Option.bind_some]
    refine (ih hls hb hindent).bind ?_
    rintro cs t₂ ⟨⟨hbs, hcs⟩, hdepth⟩
    refine ⟨⟨?_, hc.cons hcs⟩, hdepth⟩
    rw [List.length_cons, Nat.add_comm ls.length, ← Nat.add_assoc]
    exact hbs

end Emit

end Locomotive
