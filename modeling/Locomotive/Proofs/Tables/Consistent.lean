import Locomotive.Proofs.Emit.Outcome
import Locomotive.Proofs.Tables.Count
import Locomotive.Tables.Books

/-!
# Books that stay consistent

Whatever is entered into the books, in whatever order, and going on after every refusal: they agree with each
other. So nothing is ever missing where one book relies on another, and the tables that the books show are those
that the same actions give.

* `Books.Consistent`: what holds at all times.
* `Books.Mirrors`: entries into the books, and the same done to the tables.
* `Books.Consistent.mirrors`: every action.
* `Session.run_consistent`: every session, and which labels are refused.
-/

namespace Locomotive

theorem Tally.total_add (t : Tally) (name : String) : (t.add name).total = t.total + 1 := by
  have hgo : ∀ es : List (String × Nat),
      (add.go name es).foldr (fun e n => e.2 + n) 0 = es.foldr (fun e n => e.2 + n) 0 + 1 := by
    intro es
    induction es with
    | nil => rfl
    | cons e es ih =>
      obtain ⟨m, k⟩ := e
      unfold add.go
      split
      · simp only [List.foldr_cons]
        omega
      · simp only [List.foldr_cons, ih]
        omega
  exact hgo t.entries

namespace Emit

theorem apply_get (t : Tables) : (get : Emit Tables).apply t = (.ok t, t) := rfl

/-- The new depth stays, also if it is refused. -/
theorem apply_indentBy (delta : Int) (t : Tables) :
    (indentBy delta).apply t = ((t.indentBy delta).1.mapError .broken, (t.indentBy delta).2) := by
  unfold indentBy
  rw [apply_bind, apply_get]
  dsimp only
  generalize t.indentBy delta = r
  rcases r with ⟨_ | _, u⟩ <;> rfl

/-- A label that is refused leaves the tables as they are. -/
theorem apply_define (label : String) (line : Int) (t : Tables) :
    (define label line).apply t =
      match t.define label line with
      | .ok t' => (.ok (), t')
      | .error fault => (.error (.broken fault), t) := by
  unfold define
  rw [apply_bind, apply_get]
  dsimp only
  generalize t.define label line = r
  cases r <;> rfl

end Emit

/-- The references after an action. -/
def Action.sites (b : Books) : Action → List CallSite
  | reset => []
  | addSite kind labels selector => b.callSites ++ [⟨kind, labels, selector, b.lineIndex, b.lineNumber⟩]
  | _ => b.callSites

namespace Books

/-- **Books that agree with each other.** -/
structure Consistent (b : Books) : Prop where
  /-- Each variable stands in the order once, and has its entry and its uses. -/
  nodup : b.order.Nodup
  entries : ∀ name, name ∈ b.order ↔ (b.entries name).isSome = true
  scopes : ∀ name, name ∈ b.order ↔ (b.scopes name).isSome = true
  /-- A variable is used as often as in all subroutines together, and at least once. -/
  counts : ∀ name e uses, b.entries name = some e → b.scopes name = some uses → e.count = uses.total ∧ 1 ≤ e.count
  /-- The labels stand in the order of their lines. -/
  ordered : (b.labels.map Label.first).Pairwise (· < ·)
  /-- Each label is found at its place. -/
  places : ∀ label, b.places label = b.tables.labelIndex? label
  /-- The label that was defined last is the last one. -/
  lastPlace : b.lastPlace = if b.labels = [] then none else some (b.labels.length - 1)
  /-- Outside of subroutines variables are counted for none. -/
  idle : b.openPlace = none → b.scope = ""
  /-- The open subroutine is the one that variables are counted for, a target that no `RETURN` has ended. -/
  opened : ∀ place ∈ b.openPlace, ∃ l, b.labels[place]? = some l ∧ l.name = b.scope ∧
    b.gosubs.has l.name = true ∧ l.last = none
  /-- The data indices of the labels ascend, and none lies behind the data. -/
  ascending : (b.labels.filterMap Label.dataIndex).Pairwise (· ≤ ·)
  inData : ∀ i ∈ b.labels.filterMap Label.dataIndex, i ≤ b.data.length
  /-- Each `RESTORE` leads into the data. -/
  restores : ∀ e ∈ b.restoreMap, e.2 ≤ b.data.length
  /-- Outside of function definitions there are no parameters. -/
  bare : b.status = .outside → b.params = []

theorem Consistent.empty : Consistent {} where
  nodup := .nil
  entries := by simp
  scopes := by simp
  counts := fun name e uses h => by cases h
  ordered := .nil
  places := fun _ => rfl
  lastPlace := rfl
  idle := fun _ => rfl
  opened := by simp
  ascending := .nil
  inData := by simp
  restores := by simp
  bare := fun _ => rfl

/-! ## Entries -/

variable {α β : Type} {b : Books}

namespace Keep

theorem apply_bind (m : Keep α) (f : α → Keep β) (b : Books) : (m >>= f).apply b =
    match m.apply b with
    | (.ok a, b') => (f a).apply b'
    | (.error e, b') => (.error e, b') := by
  simp only [apply, ExceptT.run, bind, ExceptT.bind, ExceptT.mk, StateT.bind, ExceptT.bindCont]
  rcases m b with ⟨_ | _, _⟩ <;> rfl

theorem apply_pure (a : α) (b : Books) : (pure a : Keep α).apply b = (.ok a, b) := rfl

theorem apply_get (b : Books) : (get : Keep Books).apply b = (.ok b, b) := rfl

theorem apply_modify (f : Books → Books) (b : Books) : (modify f : Keep PUnit).apply b = (.ok ⟨⟩, f b) := rfl

theorem apply_throw (e : Fault) (b : Books) : (throw e : Keep α).apply b = (.error e, b) := rfl

theorem apply_warn (r : Remark) (b : Books) :
    (warn r).apply b = (.ok (), { b with warnings := b.warnings ++ [⟨b.lineNumber, r⟩] }) := rfl

theorem apply_look (f : Books → Option α) (b : Books) : (look f).apply b =
    match f b with
    | some a => (.ok a, b)
    | none => (.error .outOfRange, b) := by
  unfold look
  rw [apply_bind, apply_get]
  dsimp only
  cases f b <;> rfl

theorem apply_indentBy (delta : Int) (b : Books) : (indentBy delta).apply b =
    (if b.indent + delta < 0 then .error (.nesting b.lineNumber (b.indent + delta)) else .ok (b.indent + delta),
      { b with indent := b.indent + delta }) := by
  simp only [indentBy, apply_bind, apply_modify, apply_get]
  split <;> rfl

end Keep

open Keep

/-- **The entries mirror an action on the tables**: they keep the books consistent, with the given references, and
the action gives the tables that the books show then, with the same answer or the same fault. -/
structure Mirrors (m : Keep α) (m' : Emit α) (b : Books) (sites : List CallSite) : Prop where
  consistent : (m.apply b).2.Consistent
  sites : (m.apply b).2.callSites = sites
  tables : m'.apply b.tables = ((m.apply b).1.mapError .broken, (m.apply b).2.tables)

/-- Entries that are made. -/
theorem Mirrors.of_ok {m : Keep α} {m' : Emit α} {a : α} {b' : Books} (hm : m.apply b = (.ok a, b')) (hb' : b'.Consistent)
    (hm' : m'.apply b.tables = (.ok a, b'.tables)) : Mirrors m m' b b'.callSites := by
  refine ⟨?_, ?_, ?_⟩ <;> rw [hm]
  · exact hb'
  · exact hm'

/-- The answer, put in another form. -/
theorem Mirrors.map {m : Keep α} {m' : Emit α} {sites : List CallSite} (h : Mirrors m m' b sites) (g : α → β) :
    Mirrors (do pure (g (← m))) (do pure (g (← m'))) b sites := by
  have hkeep : (do pure (g (← m)) : Keep β).apply b = ((m.apply b).1.map g, (m.apply b).2) := by
    rw [apply_bind]
    rcases m.apply b with ⟨_ | _, _⟩ <;> rfl
  refine ⟨hkeep ▸ h.consistent, hkeep ▸ h.sites, ?_⟩
  rw [hkeep, Emit.apply_bind, h.tables]
  cases (m.apply b).1 <;> rfl

/-- **The entries are made**, keep the books consistent and leave the references alone; the tables change as the
books show. -/
def Makes (m : Keep Unit) (g : Tables → Tables) (b : Books) : Prop :=
  ∃ b', m.apply b = (.ok (), b') ∧ b'.Consistent ∧ b'.callSites = b.callSites ∧ g b.tables = b'.tables

theorem Makes.mirrors {m : Keep Unit} {g : Tables → Tables} (h : Makes m g b) :
    Mirrors m (Emit.update g) b b.callSites := by
  obtain ⟨b', hm, hb, hsites, hg⟩ := h
  exact hsites ▸ .of_ok hm hb (congrArg (Prod.mk (Except.ok ())) hg)

/-! ## Labels -/

theorem labelIndex?_eq (t : Tables) (label : String) : t.labelIndex? label =
    ((t.labels.map Label.name).reverse.findIdx? (· == label)).map fun i => t.labels.length - 1 - i := by
  rw [Tables.labelIndex?, ← List.map_reverse, List.findIdx?_map]
  rfl

/-- The place of a label is found by the names alone. -/
theorem labelIndex?_congr {t t' : Tables} (h : t'.labels.map Label.name = t.labels.map Label.name) (label : String) :
    t'.labelIndex? label = t.labelIndex? label := by
  have hlength := congrArg List.length h
  rw [List.length_map, List.length_map] at hlength
  rw [labelIndex?_eq, labelIndex?_eq, h, hlength]

/-- The place of a label that comes last. -/
theorem labelIndex?_append {t t' : Tables} {l : Label} (h : t'.labels = t.labels ++ [l]) (label : String) :
    t'.labelIndex? label = if label = l.name then some t.labels.length else t.labelIndex? label := by
  rw [labelIndex?_eq, labelIndex?_eq, h, List.map_append, List.reverse_append, List.length_append]
  simp only [List.map_singleton, List.reverse_singleton, List.singleton_append, List.findIdx?_cons, List.length_singleton]
  by_cases hname : label = l.name
  · simp [hname]
  · rw [if_neg (by simpa using Ne.symm hname), if_neg hname, Option.map_map]
    congr 1
    funext i
    simp only [Function.comp_apply]
    omega

theorem map_modify_of_eq {g : Label → β} {f : Label → Label} (h : ∀ l, g (f l) = g l) (ls : List Label) (i : Nat) :
    (ls.modify i f).map g = ls.map g :=
  (Tables.map_modify g f id h ls i).trans (List.modify_id ..)

theorem filterMap_modify_of_eq {g : Label → Option β} {f : Label → Label} (h : ∀ l, g (f l) = g l) (ls : List Label)
    (i : Nat) : (ls.modify i f).filterMap g = ls.filterMap g := by
  have hmap := congrArg (List.filterMap id) (map_modify_of_eq h ls i)
  rwa [List.filterMap_map, List.filterMap_map] at hmap

theorem modify_last (front : List Label) (l : Label) (f : Label → Label) :
    (front ++ [l]).modify ((front ++ [l]).length - 1) f = front ++ [f l] := by
  rw [List.length_append, List.length_singleton, Nat.add_sub_cancel, List.modify_eq_take_cons_drop (by simp)]
  simp

/-- A place in the data, given to the last label, comes last, unless that label has one already. -/
theorem dataIndices_atEnd (ls : List Label) (n : Nat) :
    (ls.modify (ls.length - 1) fun l => { l with dataIndex := l.dataIndex.or (some n) }).filterMap Label.dataIndex =
        ls.filterMap Label.dataIndex ∨
      (ls.modify (ls.length - 1) fun l => { l with dataIndex := l.dataIndex.or (some n) }).filterMap Label.dataIndex =
        ls.filterMap Label.dataIndex ++ [n] := by
  rcases List.eq_nil_or_concat ls with rfl | ⟨front, l, rfl⟩
  · exact .inl rfl
  rw [List.concat_eq_append, modify_last, List.filterMap_append, List.filterMap_append]
  cases hplace : l.dataIndex <;> simp [hplace]

/-- In labels that stand in order, the last one is the one to compare with. -/
theorem any_getLast_iff {ls : List Label} (h : (ls.map Label.first).Pairwise (· < ·)) (line : Int) :
    (ls.getLast?.any fun l => l.first ≥ line) = true ↔ ∃ l ∈ ls, line ≤ l.first := by
  rcases List.eq_nil_or_concat ls with rfl | ⟨front, last, rfl⟩
  · simp
  rw [List.concat_eq_append] at h ⊢
  rw [List.map_append] at h
  rw [List.getLast?_concat, Option.any_some, decide_eq_true_eq]
  constructor
  · exact fun hline => ⟨last, by simp, hline⟩
  · rintro ⟨l, hl, hline⟩
    rcases List.mem_append.1 hl with hfront | hlast
    · have := (List.pairwise_append.1 h).2.2 l.first (List.mem_map_of_mem hfront) last.first (by simp)
      omega
    · rw [← List.mem_singleton.1 hlast]
      exact hline

/-- The books with a label behind the others. -/
def entered (b : Books) (label : String) (line : Int) : Books :=
  { b with
    labels := b.labels ++ [⟨label, line, none, none⟩]
    places := set b.places label b.labels.length
    lastPlace := some b.labels.length }

/-- The books with a label behind the others that is the open subroutine, and more warnings. -/
def opening (b : Books) (label : String) (line : Int) (warnings : List Warning) : Books :=
  { b.entered label line with
    openPlace := some b.labels.length
    openIndent := b.indent
    scope := label
    warnings := b.warnings ++ warnings }

namespace Consistent

/-- **A label comes last**, behind all others. -/
theorem enter (h : b.Consistent) (label : String) {line : Int}
    (hline : ¬ (b.labels.getLast?.any fun l => l.first ≥ line) = true) : (b.entered label line).Consistent := by
  rw [any_getLast_iff h.ordered] at hline
  have hdata : (b.entered label line).labels.filterMap Label.dataIndex = b.labels.filterMap Label.dataIndex :=
    (List.filterMap_append ..).trans (List.append_nil _)
  refine { h with ordered := ?_, places := fun l => ?_, lastPlace := ?_, opened := ?_, ascending := ?_, inData := ?_ }
  · show ((b.labels ++ [_]).map Label.first).Pairwise (· < ·)
    rw [List.map_append]
    refine List.pairwise_append.2 ⟨h.ordered, by simp, fun i hi j hj => ?_⟩
    obtain ⟨l, hl, rfl⟩ := List.mem_map.1 hi
    obtain rfl : j = line := by simpa using hj
    exact Int.not_le.1 fun hle => hline ⟨l, hl, hle⟩
  · rw [labelIndex?_append (t := b.tables) rfl, ← h.places]
    rfl
  · simp [entered]
  · intro place hplace
    obtain ⟨l, hl, hopen⟩ := h.opened place hplace
    obtain ⟨hindex, -⟩ := List.getElem?_eq_some_iff.1 hl
    exact ⟨l, (List.getElem?_append_left hindex).trans hl, hopen⟩
  · exact hdata ▸ h.ascending
  · exact hdata ▸ h.inData

/-- **The label is opened**, if it is a target. -/
theorem openLast {label : String} {line : Int} (h : (b.entered label line).Consistent)
    (htarget : b.gosubs.has label = true) {warnings : List Warning} :
    (b.opening label line warnings).Consistent := by
  refine { h with idle := fun hnone => (by cases hnone), opened := fun place hplace => ?_ }
  obtain rfl := Option.some.inj hplace
  exact ⟨⟨label, line, none, none⟩, by simp [entered, opening], rfl, htarget, rfl⟩

/-- A label that does not stand behind the others is refused, before anything has been entered. -/
theorem define_refused {label : String} {line : Int}
    (hline : (b.labels.getLast?.any fun l => l.first ≥ line) = true) :
    (Books.define label line).apply b = (.error (.labelOrder label), b) := by
  simp only [Books.define, apply_bind, apply_get, hline, if_true, apply_throw]

/-- **A label is defined**, and opened if it is a target. -/
theorem define_accepted (h : b.Consistent) (label : String) {line : Int}
    (hline : ¬ (b.labels.getLast?.any fun l => l.first ≥ line) = true) :
    ∃ b', (Books.define label line).apply b = (.ok (), b') ∧ b'.Consistent ∧
      b'.callSites = b.callSites ∧ b.tables.define label line = .ok b'.tables := by
  have hentered := h.enter label hline
  have hbooks : (b.labels.getLast?.any fun l => l.first ≥ line) = false := eq_false_of_ne_true hline
  have htables : (b.tables.labels.getLast?.any fun l => l.first ≥ line) = false := hbooks
  have hlength : (b.labels ++ [(⟨label, line, none, none⟩ : Label)]).length - 1 = b.labels.length := by simp
  by_cases htarget : b.gosubs.has label = true
  · cases hopen : b.openPlace with
    | none =>
      have hsub : b.tables.openSub = none := congrArg (Option.map _) hopen
      refine ⟨b.opening label line [], ?_, hentered.openLast htarget, rfl, ?_⟩
      · simp only [Books.define, apply_bind, apply_get, hbooks, Bool.false_eq_true, if_false, apply_modify, htarget,
          if_true, hlength, hopen, entered, opening, List.append_nil]
      · simp only [Tables.define, htables, Bool.false_eq_true, if_false, hsub]
        refine (if_pos htarget).trans ?_
        rw [opening, List.append_nil]
        rfl
    | some place =>
      -- the subroutine that has been open till now stays without an end
      obtain ⟨l, hl, hname, -⟩ := hentered.opened place hopen
      have hl' : (b.labels ++ [(⟨label, line, none, none⟩ : Label)])[place]? = some l := hl
      have hname' : l.name = b.scope := hname
      have hsub : b.tables.openSub = some ⟨place, b.scope, b.openIndent⟩ := congrArg (Option.map _) hopen
      refine ⟨b.opening label line [⟨b.lineNumber, .unfinishedSubroutine b.scope label⟩], ?_,
        hentered.openLast htarget, rfl, ?_⟩
      · simp only [Books.define, apply_bind, apply_get, hbooks, Bool.false_eq_true, if_false, apply_modify, htarget,
          if_true, hlength, hopen, apply_look, hl', apply_warn, hname', entered, opening]
      · simp only [Tables.define, htables, Bool.false_eq_true, if_false, hsub]
        exact if_pos htarget
  · refine ⟨b.entered label line, ?_, hentered, rfl, ?_⟩
    · simp only [Books.define, apply_bind, apply_get, hbooks, Bool.false_eq_true, if_false, apply_modify, apply_pure,
        htarget, hlength, entered]
    · simp only [Tables.define, htables, Bool.false_eq_true, if_false]
      exact if_neg htarget

theorem define (h : b.Consistent) (label : String) (line : Int) :
    Mirrors (Books.define label line) (Emit.define label line) b b.callSites := by
  by_cases hline : (b.labels.getLast?.any fun l => l.first ≥ line) = true
  · have htables : b.tables.define label line = .error (.labelOrder label) := if_pos hline
    refine ⟨?_, ?_, ?_⟩ <;> rw [define_refused hline]
    · exact h
    · rw [Emit.apply_define, htables]
      rfl
  · obtain ⟨b', hbooks, hcons, hsites, htables⟩ := h.define_accepted label hline
    refine hsites ▸ .of_ok hbooks hcons ?_
    rw [Emit.apply_define, htables]

/-- A label changes, but not its name and its line. -/
theorem relabel (h : b.Consistent) (i : Nat) (f : Label → Label) (hname : ∀ l, (f l).name = l.name)
    (hfirst : ∀ l, (f l).first = l.first) (hlast : ∀ place ∈ b.openPlace, ∀ l, (f l).last = l.last)
    (hascending : ((b.labels.modify i f).filterMap Label.dataIndex).Pairwise (· ≤ ·))
    (hinData : ∀ k ∈ (b.labels.modify i f).filterMap Label.dataIndex, k ≤ b.data.length) :
    ({ b with labels := b.labels.modify i f } : Books).Consistent := by
  refine { h with ordered := ?_, places := fun label => ?_, lastPlace := ?_, opened := fun place hplace => ?_,
                  ascending := hascending, inData := hinData }
  · exact map_modify_of_eq hfirst b.labels i ▸ h.ordered
  · rw [h.places]
    exact (labelIndex?_congr (t := b.tables) (map_modify_of_eq hname b.labels i) label).symm
  · have hcursor := h.lastPlace
    simp only [← List.length_eq_zero_iff, List.length_modify] at hcursor ⊢
    exact hcursor
  · obtain ⟨l, hl, hopen⟩ := h.opened place hplace
    refine ⟨if i = place then f l else l, ?_, ?_⟩
    · simp only [List.getElem?_modify, hl]
      rfl
    · split
      · rw [hname, hlast place hplace]
        exact hopen
      · exact hopen

/-- **A `RETURN`** ends the open subroutine and leaves none open, or changes nothing. -/
theorem close (h : b.Consistent) (line : Int) : Makes (Books.close line) (fun t => t.close line) b := by
  cases hopen : b.openPlace with
  | none =>
    have hsub : b.tables.openSub = none := congrArg (Option.map _) hopen
    have hbooks : (Books.close line).apply b = (.ok (), b) := by
      simp only [Books.close, apply_bind, apply_get, hopen, apply_pure]
    exact ⟨b, hbooks, h, rfl, by simp only [Tables.close, hsub]⟩
  | some place =>
    have hsub : b.tables.openSub = some ⟨place, b.scope, b.openIndent⟩ := congrArg (Option.map _) hopen
    obtain ⟨l, hl, hname, -⟩ := h.opened place hopen
    by_cases hindent : b.indent = b.openIndent
    · have hbooks : (Books.close line).apply b = (.ok (), { b with
          labels := b.labels.modify place fun l => { l with last := some line }
          openPlace := none
          scope := "" }) := by
        simp only [Books.close, apply_bind, apply_get, hopen, apply_look, hl, ne_eq, hindent, not_true_eq_false, if_false,
          apply_modify]
      have hidle : ({ b with openPlace := none, scope := "" } : Books).Consistent :=
        { h with idle := fun _ => rfl, opened := fun place hplace => (by cases hplace) }
      have hdata := filterMap_modify_of_eq (g := Label.dataIndex) (f := fun l => { l with last := some line })
        (fun _ => rfl) b.labels place
      refine ⟨_, hbooks, hidle.relabel place _ (fun _ => rfl) (fun _ => rfl) (fun place hplace => (by cases hplace))
        (hdata ▸ h.ascending) (hdata ▸ h.inData), rfl, ?_⟩
      simp only [Tables.close, hsub]
      exact if_neg (not_not_intro hindent)
    · have hbooks : (Books.close line).apply b =
          (.ok (), { b with warnings := b.warnings ++ [⟨b.lineNumber, .returnInBlock b.scope⟩] }) := by
        simp only [Books.close, apply_bind, apply_get, hopen, apply_look, hl, ne_eq, hindent, not_false_eq_true, if_true,
          apply_warn, hname]
      refine ⟨_, hbooks, { h with }, rfl, ?_⟩
      simp only [Tables.close, hsub]
      exact if_pos hindent

/-! ## Data -/

/-- The last label gets the end of the data, which no label before it has passed. -/
theorem atEnd (h : b.Consistent) : ({ b with labels := b.labels.modify (b.labels.length - 1) fun l =>
    { l with dataIndex := l.dataIndex.or (some b.data.length) } } : Books).Consistent := by
  refine h.relabel _ _ (fun _ => rfl) (fun _ => rfl) (fun _ _ _ => rfl) ?_ ?_
  · rcases dataIndices_atEnd b.labels b.data.length with hsame | hmore
    · exact hsame ▸ h.ascending
    · rw [hmore]
      refine List.pairwise_append.2 ⟨h.ascending, by simp, fun i hi j hj => ?_⟩
      rw [List.mem_singleton.1 hj]
      exact h.inData i hi
  · rcases dataIndices_atEnd b.labels b.data.length with hsame | hmore
    · exact hsame ▸ h.inData
    · rw [hmore]
      intro i hi
      rcases List.mem_append.1 hi with hi | hi
      · exact h.inData i hi
      · exact Nat.le_of_eq (List.mem_singleton.1 hi)

/-- **Data items follow.** -/
theorem addData (h : b.Consistent) (literals : List String) :
    Makes (Books.addData literals) (fun t => t.addData literals) b := by
  have hgrow : b.data.length ≤ (b.data ++ literals).length := by simp
  have hfinal : ({ b with
      labels := b.labels.modify (b.labels.length - 1) fun l =>
        { l with dataIndex := l.dataIndex.or (some b.data.length) }
      data := b.data ++ literals } : Books).Consistent :=
    { h.atEnd with
      inData := fun i hi => Nat.le_trans (h.atEnd.inData i hi) hgrow
      restores := fun e he => Nat.le_trans (h.atEnd.restores e he) hgrow }
  refine ⟨_, ?_, hfinal, rfl, rfl⟩
  rcases List.eq_nil_or_concat b.labels with hnil | ⟨front, l, hlabels⟩
  · have hlast : b.lastPlace = none := h.lastPlace.trans (if_pos hnil)
    simp only [Books.addData, apply_bind, apply_get, hlast, apply_modify, hnil, List.modify_nil]
  · rw [List.concat_eq_append] at hlabels
    have hlast : b.lastPlace = some (b.labels.length - 1) := h.lastPlace.trans (by simp [hlabels])
    have hl : b.labels[b.labels.length - 1]? = some l := by simp [hlabels]
    have hmodify : ∀ f, b.labels.modify (b.labels.length - 1) f = front ++ [f l] := fun f => hlabels ▸ modify_last front l f
    cases hplace : l.dataIndex with
    | some i =>
      have hsame : front ++ [{ l with dataIndex := (some i).or (some b.data.length) }] = b.labels := by
        rw [hlabels, Option.some_or, ← hplace]
      simp only [Books.addData, apply_bind, apply_get, hlast, apply_look, hl, hplace, apply_modify, Option.isNone_some,
        Bool.false_eq_true, if_false, hmodify, hsame]
    | none =>
      simp only [Books.addData, apply_bind, apply_get, hlast, apply_look, hl, hplace, apply_modify, Option.isNone_none,
        if_true, hmodify, Option.none_or]

/-- The first place in the data, at a label or behind it, is none behind the data. -/
theorem dataFrom_le (h : b.Consistent) (place : Nat) : b.tables.dataFrom place ≤ b.data.length := by
  unfold Tables.dataFrom
  cases hfind : (b.tables.labels.drop place).findSome? Label.dataIndex with
  | none => exact Nat.zero_le _
  | some i =>
    obtain ⟨l, hl, hi⟩ := List.exists_of_findSome?_eq_some hfind
    exact h.inData i (List.mem_filterMap.2 ⟨l, (List.drop_suffix _ _).mem hl, hi⟩)

/-- One more `RESTORE` leads into the data. -/
theorem setRestore (h : b.Consistent) {index : Nat} (hindex : index ≤ b.data.length) (label : String) :
    ({ b with restoreMap := b.restoreMap.filter (fun e => e.1 != label) ++ [(label, index)] } : Books).Consistent := by
  refine { h with restores := fun e he => ?_ }
  rcases List.mem_append.1 he with he | he
  · exact h.restores e (List.mem_of_mem_filter he)
  · rw [List.mem_singleton.1 he]
    exact hindex

/-- The target of a `RESTORE` is looked up by its place. -/
theorem resolveRestore (h : b.Consistent) (label : String) :
    Makes (Books.resolveRestore label) (fun t => t.resolveRestore label) b := by
  have hplace := h.places label
  cases hindex : b.places label with
  | some place =>
    rw [hindex] at hplace
    have hbooks : (Books.resolveRestore label).apply b = (.ok (), { b with
        restoreMap := b.restoreMap.filter (fun e => e.1 != label) ++ [(label, b.tables.dataFrom place)] }) := by
      simp only [Books.resolveRestore, apply_bind, apply_get, hindex, Books.setRestore, apply_modify]
      rfl
    exact ⟨_, hbooks, h.setRestore (h.dataFrom_le place) label, rfl, by simp only [Tables.resolveRestore, ← hplace]; rfl⟩
  | none =>
    rw [hindex] at hplace
    have hwarned : ({ b with
        lineNumber := 0
        warnings := b.warnings ++ [⟨0, .noRestoreTarget label⟩] } : Books).Consistent := { h with }
    have hbooks : (Books.resolveRestore label).apply b = (.ok (), { b with
        lineNumber := 0
        warnings := b.warnings ++ [⟨0, .noRestoreTarget label⟩]
        restoreMap := b.restoreMap.filter (fun e => e.1 != label) ++ [(label, 0)] }) := by
      simp only [Books.resolveRestore, apply_bind, apply_get, hindex, Books.setRestore, apply_modify, apply_warn]
    exact ⟨_, hbooks, hwarned.setRestore (Nat.zero_le _) label, rfl, by simp only [Tables.resolveRestore, ← hplace]; rfl⟩

/-- All targets, one after the other. -/
theorem resolveRestores (h : b.Consistent) : Makes Books.resolveRestores Tables.resolveRestores b := by
  have hall : ∀ (labels : List String) (b : Books), b.Consistent →
      Makes (labels.forM Books.resolveRestore) (fun t => labels.foldl Tables.resolveRestore t) b := by
    intro labels
    induction labels with
    | nil => exact fun b h => ⟨b, rfl, h, rfl, rfl⟩
    | cons label labels ih =>
      intro b h
      obtain ⟨b', hfirst, hb', hsites, htables⟩ := h.resolveRestore label
      obtain ⟨b'', hrest, hb'', hsites', htables'⟩ := ih b' hb'
      have hbooks : ((label :: labels).forM Books.resolveRestore).apply b = (.ok (), b'') := by
        show (Books.resolveRestore label >>= fun _ => labels.forM Books.resolveRestore).apply b = _
        rw [apply_bind, hfirst]
        exact hrest
      exact ⟨b'', hbooks, hb'', hsites'.trans hsites,
        (congrArg (fun t => labels.foldl Tables.resolveRestore t) htables).trans htables'⟩
  exact hall _ b h

end Consistent

/-! ## Variables -/

theorem set_self {α : Type} (m : String → Option α) (key : String) (value : α) : set m key value key = some value :=
  if_pos rfl

theorem set_set {α : Type} (m : String → Option α) (key : String) (value value' : α) :
    set (set m key value) key value' = set m key value' := by
  funext k
  unfold set
  split <;> rfl

/-- The books with another entry and other uses of a variable. -/
def recounted (b : Books) (name : String) (e : Entry) (uses : Tally) : Books :=
  { b with entries := set b.entries name e, scopes := set b.scopes name uses }

theorem variableOf_recounted (b : Books) (name : String) (e : Entry) (uses : Tally) (n : String) :
    (b.recounted name e uses).variableOf n = if n = name then ⟨n, e.storage, e.count, uses⟩ else b.variableOf n := by
  by_cases hname : n = name
  · simp only [variableOf, recounted, set, hname, if_true, Option.map_some, Option.getD_some]
  · simp only [variableOf, recounted, set, hname, if_false]

namespace Consistent

/-- The subroutine that variables are counted for is the open one. -/
theorem tables_scope (h : b.Consistent) : b.tables.scope = b.scope := by
  cases hopen : b.openPlace with
  | none =>
    rw [h.idle hopen]
    simp only [Tables.scope, Books.tables, hopen]
    rfl
  | some place =>
    simp only [Tables.scope, Books.tables, hopen]
    rfl

/-- A variable is found by its entry. -/
theorem find?_vars (h : b.Consistent) (name : String) : (b.tables.vars.find? fun v => v.name == name) =
    (b.entries name).map fun _ => b.variableOf name := by
  show (b.order.map b.variableOf).find? _ = _
  rw [List.find?_map]
  cases hfind : b.order.find? ((fun v => v.name == name) ∘ b.variableOf) with
  | none =>
    have hnot : name ∉ b.order := fun hmem => by simpa [variableOf] using List.find?_eq_none.1 hfind name hmem
    rw [h.entries, Option.not_isSome_iff_eq_none] at hnot
    rw [hnot]
    rfl
  | some n =>
    obtain rfl : n = name := by simpa [variableOf] using List.find?_some hfind
    obtain ⟨e, he⟩ := Option.isSome_iff_exists.1 ((h.entries n).1 (List.mem_of_find?_eq_some hfind))
    rw [he]
    rfl

theorem storageBefore?_tables (h : b.Consistent) (name : String) (storage : Storage) :
    b.tables.storageBefore? name storage = ((b.entries name).map Entry.storage).filter (· ≠ storage) := by
  rw [Tables.storageBefore?, h.find?_vars]
  cases he : b.entries name <;> simp only [variableOf, he, Option.map_none, Option.map_some, Option.getD_some]

theorem any_vars (h : b.Consistent) (name : String) :
    (b.tables.vars.any fun v => v.name == name) = (b.entries name).isSome := by
  rw [← List.isSome_find?, h.find?_vars, Option.isSome_map]

/-- **A variable is counted**, whether it stands in the order already or comes last. -/
theorem recount (h : b.Consistent) {name : String} (e : Entry) (uses : Tally) {order : List String}
    (hcount : e.count = uses.total ∧ 1 ≤ e.count) (hnodup : order.Nodup)
    (horder : ∀ n, n ∈ order ↔ n = name ∨ n ∈ b.order) :
    ({ b.recounted name e uses with order := order } : Books).Consistent := by
  have hset : ∀ {α : Type} (m : String → Option α) (value : α), (∀ n, n ∈ b.order ↔ (m n).isSome = true) →
      ∀ n, n ∈ order ↔ (set m name value n).isSome = true := by
    intro α m value hm n
    rw [horder, hm, set]
    split <;> simp [*]
  refine { h with nodup := hnodup, entries := hset _ _ h.entries, scopes := hset _ _ h.scopes, counts := ?_ }
  intro n e' uses' he huses
  simp only [recounted, set] at he huses
  split at he
  · rename_i hname
    rw [if_pos hname] at huses
    rw [← Option.some.inj he, ← Option.some.inj huses]
    exact hcount
  · rename_i hname
    rw [if_neg hname] at huses
    exact h.counts n e' uses' he huses

/-- **A variable is used.** -/
theorem count (h : b.Consistent) (name : String) (storage : Storage) :
    Makes (Books.count name storage) (fun t => t.mention name storage) b := by
  have hscope := h.tables_scope
  cases he : b.entries name with
  | none =>
    have hnew : name ∉ b.order := fun hmem => by simpa [he] using (h.entries name).1 hmem
    have hbooks : (Books.count name storage).apply b = (.ok (), { b.recounted name ⟨storage, 1⟩ (Tally.add {} b.scope) with
        order := b.order ++ [name] }) := by
      simp only [Books.count, apply_bind, apply_get, he, apply_modify, apply_look, set_self, set_set, recounted]
    refine ⟨_, hbooks, h.recount _ _ ⟨(Tally.total_add {} b.scope).symm, Nat.le_refl 1⟩ ?_ ?_, rfl, ?_⟩
    · exact List.nodup_append.2 ⟨h.nodup, by simp, by simpa using fun n hn => ne_of_mem_of_not_mem hn hnew⟩
    · simp [or_comm]
    · have hany : (b.tables.vars.any fun v => v.name == name) = false := by rw [h.any_vars, he]; rfl
      have hbefore : b.tables.storageBefore? name storage = none := by rw [h.storageBefore?_tables, he]; rfl
      have hvars : b.tables.vars ++ [⟨name, storage, 1, Tally.add {} b.scope⟩] =
          (b.order ++ [name]).map (b.recounted name ⟨storage, 1⟩ (Tally.add {} b.scope)).variableOf := by
        rw [List.map_append, List.map_singleton, variableOf_recounted, if_pos rfl]
        congr 1
        refine List.map_congr_left fun n hn => ?_
        rw [variableOf_recounted, if_neg (ne_of_mem_of_not_mem hn hnew)]
      simp only [Tables.mention, hbefore, hany, Bool.false_eq_true, if_false, hscope, hvars]
      rfl
  | some e =>
    have hmem : name ∈ b.order := (h.entries name).2 (by rw [he]; rfl)
    obtain ⟨uses, huses⟩ := Option.isSome_iff_exists.1 ((h.scopes name).1 hmem)
    obtain ⟨htotal, -⟩ := h.counts name e uses he huses
    have hany : (b.tables.vars.any fun v => v.name == name) = true := by rw [h.any_vars, he]; rfl
    have hcons : ∀ warnings, ({ b.recounted name ⟨storage, e.count + 1⟩ (uses.add b.scope) with
        warnings := warnings } : Books).Consistent := by
      intro warnings
      have hcount := h.recount ⟨storage, e.count + 1⟩ (uses.add b.scope)
        ⟨by rw [Tally.total_add, htotal], Nat.le_add_left 1 _⟩ h.nodup fun n =>
          ⟨.inr, fun hn => hn.elim (fun hname => hname ▸ hmem) id⟩
      exact { hcount with }
    have hvars : (b.tables.vars.map fun v => if v.name = name then v.mention storage b.scope else v) =
        (b.recounted name ⟨storage, e.count + 1⟩ (uses.add b.scope)).tables.vars := by
      show (b.order.map b.variableOf).map _ = b.order.map (b.recounted _ _ _).variableOf
      rw [List.map_map]
      refine List.map_congr_left fun n _ => ?_
      rw [variableOf_recounted]
      by_cases hname : n = name
      · simp only [Function.comp_apply, variableOf, Variable.mention, hname, if_true, he, huses, Option.map_some,
          Option.getD_some]
      · simp only [Function.comp_apply, variableOf, hname, if_false]
    have hbefore := h.storageBefore?_tables name storage
    rw [he] at hbefore
    by_cases hstorage : e.storage = storage
    · refine ⟨_, ?_, hcons b.warnings, rfl, ?_⟩
      · simp only [Books.count, apply_bind, apply_get, he, ne_eq, hstorage, not_true_eq_false, if_false, apply_look,
          apply_modify, huses, recounted]
      · have hnone : b.tables.storageBefore? name storage = none := by simpa [hstorage, Option.filter] using hbefore
        simp only [Tables.mention, hnone, hany, if_true, hscope, hvars]
        rfl
    · refine ⟨_, ?_, hcons (b.warnings ++ [⟨b.lineNumber, .mixedStorage name e.storage storage⟩]), rfl, ?_⟩
      · simp only [Books.count, apply_bind, apply_get, he, ne_eq, hstorage, not_false_eq_true, if_true, apply_warn,
          apply_look, apply_modify, set_self, set_set, huses, recounted]
      · have hsome : b.tables.storageBefore? name storage = some e.storage := by simpa [hstorage, Option.filter] using hbefore
        simp only [Tables.mention, hsome, hany, if_true, hscope, hvars]
        rfl

/-- A name of the source is used, which may be that of a parameter. -/
theorem mention (h : b.Consistent) (name : String) (storage : Storage) :
    Mirrors (Books.mention name storage) (Emit.mention name storage) b b.callSites := by
  have hmirrors : ∀ {b'}, (Books.mention name storage).apply b = (.ok (Js.identifier name), b') → b'.Consistent →
      b'.callSites = b.callSites → b.tables.reference name storage = (Js.identifier name, b'.tables) →
      Mirrors (Books.mention name storage) (Emit.mention name storage) b b.callSites := by
    intro b' hm hb' hsites ht
    refine hsites ▸ .of_ok hm hb' ?_
    show (Except.ok (b.tables.reference name storage).1, (b.tables.reference name storage).2) = _
    rw [ht]
  obtain ⟨counted, hcount, hcons, hsites, hmention⟩ := h.count (Js.identifier name) storage
  cases hstatus : b.status with
  | outside =>
    have hbinding : b.tables.binding = .outside := by simp only [Books.tables, hstatus]
    refine hmirrors ?_ hcons hsites ?_
    · simp only [Books.mention, apply_bind, apply_get, hstatus, hcount, apply_pure]
    · simp only [Tables.reference, hbinding]
      exact congrArg _ hmention
  | collecting =>
    have hcollected : ({ b with params := b.params ++ [Js.identifier name] } : Books).Consistent :=
      { h with bare := fun houtside => (by rw [hstatus] at houtside; cases houtside) }
    refine hmirrors ?_ hcollected rfl ?_
    · simp only [Books.mention, apply_bind, apply_get, hstatus, apply_modify, apply_pure]
    · simp only [Tables.reference, Books.tables, hstatus]
      rfl
  | body =>
    have hbinding : b.tables.binding = .body b.params := by simp only [Books.tables, hstatus]
    by_cases hparam : b.params.contains (Js.identifier name) = true
    · refine hmirrors ?_ h rfl ?_
      · simp only [Books.mention, apply_bind, apply_get, hstatus, hparam, Bool.not_true, Bool.false_eq_true, if_false,
          apply_pure]
      · simp only [Tables.reference, hbinding, hparam, if_true]
    · rw [Bool.not_eq_true] at hparam
      refine hmirrors ?_ hcons hsites ?_
      · simp only [Books.mention, apply_bind, apply_get, hstatus, hparam, Bool.not_false, if_true, hcount, apply_pure]
      · simp only [Tables.reference, hbinding, hparam, Bool.false_eq_true, if_false]
        exact congrArg _ hmention

/-! ## Actions -/

theorem indentBy (h : b.Consistent) (delta : Int) :
    Mirrors (Books.indentBy delta) (Emit.indentBy delta) b b.callSites := by
  refine ⟨?_, ?_, ?_⟩ <;> rw [apply_indentBy]
  · exact { h with }
  · rw [Emit.apply_indentBy]
    rfl

/-- **Every action** is mirrored. -/
theorem mirrors (h : b.Consistent) (a : Action) : Mirrors a.keep a.emit b (a.sites b) := by
  have quiet : ∀ {m : Keep Unit} {m' : Emit Unit}, Mirrors m m' b b.callSites →
      Mirrors (do m; pure Answer.nothing) (do m'; pure Answer.nothing) b b.callSites :=
    fun hm => hm.map fun _ => Answer.nothing
  cases a with
  | reset => exact ⟨.empty, rfl, rfl⟩
  | indentBy delta => exact (h.indentBy delta).map Answer.number
  | define label line => exact quiet (h.define label line)
  | use label how =>
    cases how with
    | restore => exact ⟨{ h with }, rfl, rfl⟩
    | gosub =>
      -- a target stays a target
      refine ⟨{ h with opened := fun place hplace => ?_ }, rfl, rfl⟩
      obtain ⟨l, hl, hname, htarget, hlast⟩ := h.opened place hplace
      have hstays : (b.gosubs.add label).has l.name = true := by
        simp only [Tally.has, Tally.count_add, bne_iff_ne] at htarget ⊢
        omega
      exact ⟨l, hl, hname, hstays, hlast⟩
  | close line => exact quiet (h.close line).mirrors
  | mention name storage => exact (h.mention name storage).map Answer.text
  | beginParams => exact ⟨{ h with bare := fun houtside => (by cases houtside) }, rfl, rfl⟩
  | beginBody =>
    have hparams : b.tables.binding.params = b.params := by
      cases hstatus : b.status with
      | outside => rw [h.bare hstatus, Books.tables, hstatus]; rfl
      | collecting => rw [Books.tables, hstatus]; rfl
      | body => rw [Books.tables, hstatus]; rfl
    refine ⟨{ h with bare := fun houtside => (by cases houtside) }, rfl, ?_⟩
    show (Except.ok Answer.nothing, b.tables.beginBody) = _
    rw [Tables.beginBody, hparams]
    rfl
  | endDefinition => exact ⟨{ h with bare := fun _ => rfl }, rfl, rfl⟩
  | addData literals => exact quiet (h.addData literals).mirrors
  | resolveRestores => exact quiet h.resolveRestores.mirrors
  | addSite kind labels selector =>
    have hnumber : (b.callSites ++ [(⟨kind, labels, selector, b.lineIndex, b.lineNumber⟩ : CallSite)]).length - 1 =
        b.callSites.length := by simp
    refine ⟨{ h with }, rfl, ?_⟩
    show (Except.ok (Answer.text (Js.siteMark b.callSites.length)), _) = _
    rw [← hnumber]
    rfl
  | _ => exact ⟨{ h with }, rfl, rfl⟩

/-- Nothing that is looked up is ever missing: only labels out of order and loops without a beginning are refused. -/
theorem fault (h : b.Consistent) {a : Action} {fault : Fault} (hfault : (a.keep.apply b).1 = .error fault) :
    (∃ label line, a = .define label line ∧ fault = .labelOrder label ∧ ∃ l ∈ b.labels, line ≤ l.first) ∨
      ∃ delta, a = .indentBy delta ∧ fault = .nesting b.lineNumber (b.indent + delta) ∧ b.indent + delta < 0 := by
  have hemit := congrArg Prod.fst (h.mirrors a).tables
  rw [hfault] at hemit
  cases a with
  | define label line =>
    have hkeep : ((Action.define label line).keep.apply b).1 = _ := congrArg Prod.fst (apply_bind _ _ b)
    rw [hfault] at hkeep
    by_cases hline : (b.labels.getLast?.any fun l => l.first ≥ line) = true
    · rw [define_refused hline] at hkeep
      exact .inl ⟨label, line, rfl, Except.error.inj hkeep, (any_getLast_iff h.ordered line).1 hline⟩
    · obtain ⟨b', hbooks, -⟩ := h.define_accepted label hline
      rw [hbooks] at hkeep
      cases hkeep
  | indentBy delta =>
    have hkeep : ((Action.indentBy delta).keep.apply b).1 = _ := congrArg Prod.fst (apply_bind _ _ b)
    rw [hfault] at hkeep
    by_cases hdepth : b.indent + delta < 0
    · rw [apply_indentBy, if_pos hdepth] at hkeep
      exact .inr ⟨delta, rfl, Except.error.inj hkeep, hdepth⟩
    · rw [apply_indentBy, if_neg hdepth] at hkeep
      cases hkeep
  | use label how => cases how <;> cases hemit
  | _ => cases hemit

end Consistent

end Books

/-! ## Sessions -/

/-- The text of an answer. -/
def Answer.text? : Answer → Option String
  | text s => some s
  | _ => none

/-- The books, and the marks that references have got. -/
structure Session where
  books : Books := {}
  /-- In order. -/
  marks : List String := []

namespace Session

/-- One action. The session goes on with what it leaves behind, also if it is refused. -/
def step (s : Session) (a : Action) : Session where
  books := (a.keep.apply s.books).2
  marks :=
    match a with
    | .reset => []
    | .addSite .. => s.marks ++ (a.keep.apply s.books).1.toOption.toList.filterMap Answer.text?
    | _ => s.marks

/-- Actions one after the other, from empty books on. -/
def run (actions : List Action) : Session := actions.foldl step {}

/-- The session has kept its books consistent, and they show the given tables. -/
structure Sound (s : Session) (t : Tables) : Prop where
  books : s.books.Consistent
  marks : s.marks = (List.range s.books.callSites.length).map Js.siteMark
  tables : s.books.tables = t

/-- One action, done to the books and to the tables. -/
theorem Sound.step {s : Session} {t : Tables} (h : s.Sound t) (a : Action) : (s.step a).Sound (a.emit.apply t).2 := by
  obtain ⟨hcons, hsites, htables⟩ := h.books.mirrors a
  refine ⟨hcons, ?_, by rw [← h.tables, htables]; rfl⟩
  show (s.step a).marks = (List.range (a.keep.apply s.books).2.callSites.length).map Js.siteMark
  rw [hsites]
  cases a with
  | reset => rfl
  | addSite kind labels selector =>
    have hmarks : (s.step (.addSite kind labels selector)).marks = s.marks ++ [Js.siteMark
        ((Action.sites s.books (.addSite kind labels selector)).length - 1)] := rfl
    rw [hmarks, h.marks, Action.sites, List.length_append, List.length_singleton, Nat.add_sub_cancel, List.range_succ,
      List.map_append, List.map_singleton]
  | _ => exact h.marks

/-- **Every session keeps the books consistent.** The mark of a reference holds its number; the tables that the
books show are those that the same actions give; the next action is answered by the books as by the tables, and
refused only if it is a label out of order, which changes nothing, or the end of a loop that has not begun. -/
theorem run_consistent (actions : List Action) :
    (run actions).books.Consistent ∧
      (run actions).marks = (List.range (run actions).books.callSites.length).map Js.siteMark ∧
      (run actions).books.tables = actions.foldl (fun t a => (a.emit.apply t).2) {} ∧
      (∀ a : Action, a.emit.apply (run actions).books.tables =
        ((a.keep.apply (run actions).books).1.mapError .broken, (a.keep.apply (run actions).books).2.tables)) ∧
      (∀ label line, (Action.define label line).keep.apply (run actions).books =
          (.error (.labelOrder label), (run actions).books) ↔
        ∃ l ∈ (run actions).books.labels, line ≤ l.first) ∧
      ∀ (a : Action) fault, (a.keep.apply (run actions).books).1 = .error fault →
        (∃ label line, a = .define label line ∧ fault = .labelOrder label ∧
          ∃ l ∈ (run actions).books.labels, line ≤ l.first) ∨
        ∃ delta, a = .indentBy delta ∧
          fault = .nesting (run actions).books.lineNumber ((run actions).books.indent + delta) ∧
          (run actions).books.indent + delta < 0 := by
  -- from empty books, action by action
  have hrun : ∀ (s : Session) (t : Tables), s.Sound t →
      (actions.foldl step s).Sound (actions.foldl (fun t a => (a.emit.apply t).2) t) := by
    induction actions with
    | nil => exact fun s t hs => hs
    | cons a actions ih => exact fun s t hs => ih _ _ (hs.step a)
  obtain ⟨hcons, hmarks, htables⟩ : (run actions).Sound _ := hrun {} {} ⟨.empty, rfl, rfl⟩
  refine ⟨hcons, hmarks, htables, fun a => (hcons.mirrors a).tables, fun label line => ?_, fun a fault => hcons.fault⟩
  constructor
  · intro hrefused
    rcases hcons.fault (congrArg Prod.fst hrefused) with ⟨label', line', ha, -, hlate⟩ | ⟨delta, ha, -⟩
    · cases ha
      exact hlate
    · cases ha
  · intro hlate
    refine (Books.Keep.apply_bind _ _ _).trans ?_
    rw [Books.Consistent.define_refused ((Books.any_getLast_iff hcons.ordered line).2 hlate)]

end Session

end Locomotive
