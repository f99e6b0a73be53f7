import Locomotive.Proofs.Emit.Draft

/-!
# The rows of the lines

The rows of the generated program come line by line. Each line of the source whose code is not empty
has one row, which is indented by one more inside of a function. In front of the first line
of a subroutine stand the header of its function and the variables that only it uses, behind its
last line stands the brace that closes it. Nothing else stands between the declarations
at the start and the helpers at the end.

* `rowsAt`: the rows that belong to a line.
* `bodyRows_lines`: the rows of the program are those of its lines, in order.
* `generate_assembles_lines`: the text of any program that is generated.
-/

namespace Locomotive

/-! ## Rows of a line -/

/-- The indentation of a function, which is that of its first line. -/
def Subroutine.depth (frags : List Fragment) (s : Subroutine) : Int :=
  (frags[s.first.toNat]?.map Fragment.indent).getD 0

/-- The rows in front of the first line of a subroutine: the header, and the declaration of the variables
that only it uses. -/
def Subroutine.opening (vars : List Variable) (async : List String) (all : List Subroutine) (frags : List Fragment)
    (s : Subroutine) : List Row :=
  ⟨s.depth frags, s.header (async.contains s.label)⟩ ::
    (letText (vars.filter fun v => v.home? all == some s.label)).toList.map fun t => ⟨s.depth frags + 1, t⟩

/-- The row behind the last line of a subroutine. -/
def Subroutine.closing (frags : List Fragment) (s : Subroutine) : Row := ⟨s.depth frags, "\x7d"⟩

/-- The row of the line with index `k`, if it has code. -/
def lineRow (subs : List Subroutine) (frags : List Fragment) (k : Nat) : List Row :=
  (frags[k]?.bind (Fragment.row? (if subs.any fun s => s.holds k then 1 else 0))).toList

/-- **The rows that belong to the line with index `k`**, if the functions are those of `subs`. -/
def rowsAt (vars : List Variable) (async : List String) (all : List Subroutine) (frags : List Fragment)
    (subs : List Subroutine) (k : Nat) : List Row :=
  (subs.filter fun s => s.first == (k : Int)).flatMap (Subroutine.opening vars async all frags) ++
    lineRow subs frags k ++
    (subs.filter fun s => s.last == (k : Int)).map (Subroutine.closing frags)

/-! ## Stretches of lines -/

/-- The rows of a stretch of lines, by their indices. -/
theorem rows_stretch (frags : List Fragment) (row? : Fragment → Option Row) (start stop : Nat) :
    (stretch frags start stop).filterMap row? =
      (List.range' start (stop - start)).flatMap fun k => (frags[k]?.bind row?).toList := by
  unfold stretch
  generalize stop - start = n
  induction n generalizing start with
  | zero => simp
  | succ n ih =>
    rw [List.range'_succ, List.flatMap_cons, ← ih (start + 1)]
    by_cases hlt : start < frags.length
    · rw [List.drop_eq_getElem_cons hlt, List.take_succ_cons, List.getElem?_eq_getElem hlt]
      cases hrow : row? frags[start] with
      | none => simp [hrow]
      | some r => simp [hrow]
    · -- behind the last line there is nothing
      have hnone : frags[start]? = none := List.getElem?_eq_none (by omega)
      have hdrop : frags.drop start = [] := List.drop_eq_nil_of_le (by omega)
      have hdrop' : frags.drop (start + 1) = [] := List.drop_eq_nil_of_le (by omega)
      rw [hnone, hdrop, hdrop']
      simp

theorem flatMap_congr_range' {start n : Nat} {f g : Nat → List Row} (h : ∀ k, start ≤ k → k < start + n → f k = g k) :
    (List.range' start n).flatMap f = (List.range' start n).flatMap g := by
  rw [List.flatMap_def, List.flatMap_def, List.map_congr_left]
  intro k hk
  have := List.mem_range'_1.1 hk
  exact h k this.1 this.2

/-- Rows in front of the first of some lines and behind the last of them. -/
theorem flatMap_around (start n : Nat) (before after : List Row) (rows : Nat → List Row) :
    (List.range' start (n + 1)).flatMap (fun k =>
        (if k = start then before else []) ++ rows k ++ (if k = start + n then after else [])) =
      before ++ (List.range' start (n + 1)).flatMap rows ++ after := by
  have hfront : ∀ g : Nat → List Row,
      (List.range' start (n + 1)).flatMap (fun k => (if k = start then before else []) ++ g k) =
        before ++ (List.range' start (n + 1)).flatMap g := by
    intro g
    have hrest : (List.range' (start + 1) n).flatMap (fun k => (if k = start then before else []) ++ g k) =
        (List.range' (start + 1) n).flatMap g := by
      refine flatMap_congr_range' fun k hk _ => ?_
      rw [if_neg (by omega), List.nil_append]
    rw [List.range'_succ, List.flatMap_cons, List.flatMap_cons, hrest, if_pos rfl, List.append_assoc]
  have hback : (List.range' start (n + 1)).flatMap (fun k => rows k ++ (if k = start + n then after else [])) =
      (List.range' start (n + 1)).flatMap rows ++ after := by
    have hrest : (List.range' start n).flatMap (fun k => rows k ++ (if k = start + n then after else [])) =
        (List.range' start n).flatMap rows := by
      refine flatMap_congr_range' fun k _ hk => ?_
      rw [if_neg (by omega), List.append_nil]
    rw [List.range'_concat, List.flatMap_append, List.flatMap_append, hrest]
    simp
  have hassoc : ∀ k, (if k = start then before else []) ++ rows k ++ (if k = start + n then after else []) =
      (if k = start then before else []) ++ (rows k ++ (if k = start + n then after else [])) := fun k =>
    List.append_assoc ..
  simp only [hassoc]
  rw [hfront, hback, List.append_assoc]

/-! ## Subroutines in order -/

/-- The subroutines start at `next` or later, one behind the other, and end before `n`. Their labels may
be any texts. -/
structure Ordered (n next : Nat) (subs : List Subroutine) : Prop where
  among : ∀ s ∈ subs, s.Among n
  apart : subs.Pairwise fun a b => a.last < b.first
  after : ∀ s ∈ subs, next ≤ s.first

namespace Ordered

variable {n next k : Nat} {s : Subroutine} {subs : List Subroutine}

theorem tail (h : Ordered n next (s :: subs)) : Ordered n (s.last + 1).toNat subs where
  among s' hs' := h.among s' (by simp [hs'])
  apart := (List.pairwise_cons.1 h.apart).2
  after s' hs' := by
    have hbehind := (List.pairwise_cons.1 h.apart).1 s' hs'
    have hhead := h.among s (by simp)
    have hnonneg := hhead.nonneg
    have hle := hhead.nonempty
    omega

/-- Before `next` there is no subroutine. -/
theorem none_before (h : Ordered n next subs) (hk : k < next) :
    subs.filter (fun s => s.first == (k : Int)) = [] ∧ subs.filter (fun s => s.last == (k : Int)) = [] ∧
      subs.any (fun s => s.holds k) = false := by
  have hfirst : ∀ s ∈ subs, (k : Int) < s.first ∧ (k : Int) < s.last := by
    intro s hs
    have hafter := h.after s hs
    have hle := (h.among s hs).nonempty
    omega
  refine ⟨List.filter_eq_nil_iff.2 fun s hs => ?_, List.filter_eq_nil_iff.2 fun s hs => ?_,
    List.any_eq_false.2 fun s hs => ?_⟩
  · have := hfirst s hs
    simp only [beq_iff_eq]
    omega
  · have := hfirst s hs
    simp only [beq_iff_eq]
    omega
  · have := hfirst s hs
    rw [Subroutine.holds_iff]
    omega

end Ordered

section Rows

variable {vars : List Variable} {async : List String} {all : List Subroutine} {frags : List Fragment}
  {n next k : Nat} {s : Subroutine} {subs : List Subroutine}

/-- In front of all subroutines there are rows of lines only. -/
theorem rowsAt_before (h : Ordered n next subs) (hk : k < next) :
    rowsAt vars async all frags subs k = (frags[k]?.bind (Fragment.row? 0)).toList := by
  obtain ⟨hfirst, hlast, hany⟩ := h.none_before hk
  unfold rowsAt lineRow
  rw [hfirst, hlast, hany]
  simp

/-- The rows of a line of the first subroutine. -/
theorem rowsAt_inside (h : Ordered n next (s :: subs)) (hfirst : s.first.toNat ≤ k) (hlast : k < (s.last + 1).toNat) :
    rowsAt vars async all frags (s :: subs) k =
      (if k = s.first.toNat then s.opening vars async all frags else []) ++
        (frags[k]?.bind (Fragment.row? 1)).toList ++
        (if k = s.first.toNat + (s.last - s.first).toNat then [s.closing frags] else []) := by
  have hnonneg := (h.among s (by simp)).nonneg
  have hle := (h.among s (by simp)).nonempty
  obtain ⟨hothers, hothers', -⟩ := h.tail.none_before hlast
  have hholds : s.holds k = true := Subroutine.holds_iff.2 (by omega)
  have hopen : (s.first == (k : Int)) = decide (k = s.first.toNat) := by
    rw [Bool.eq_iff_iff, beq_iff_eq, decide_eq_true_eq]
    omega
  have hclose : (s.last == (k : Int)) = decide (k = s.first.toNat + (s.last - s.first).toNat) := by
    rw [Bool.eq_iff_iff, beq_iff_eq, decide_eq_true_eq]
    omega
  unfold rowsAt lineRow
  rw [List.filter_cons, List.filter_cons, hothers, hothers', List.any_cons, hholds, hopen, hclose]
  congr 1
  · congr 1
    by_cases hk : k = s.first.toNat <;> simp [hk]
  · by_cases hk : k = s.first.toNat + (s.last - s.first).toNat <;> simp [hk]

/-- Behind a subroutine its rows play no part. -/
theorem rowsAt_behind (h : Ordered n next (s :: subs)) (hk : (s.last + 1).toNat ≤ k) :
    rowsAt vars async all frags (s :: subs) k = rowsAt vars async all frags subs k := by
  have hnonneg := (h.among s (by simp)).nonneg
  have hle := (h.among s (by simp)).nonempty
  have hopen : ¬ (s.first == (k : Int)) = true := by rw [beq_iff_eq]; omega
  have hclose : ¬ (s.last == (k : Int)) = true := by rw [beq_iff_eq]; omega
  have hholds : s.holds k = false := by
    rw [← Bool.not_eq_true, Subroutine.holds_iff]
    omega
  unfold rowsAt lineRow
  rw [List.filter_cons, List.filter_cons, if_neg hopen, if_neg hclose, List.any_cons, hholds, Bool.false_or]

/-- **The rows of the program** are those of its lines, in order. -/
theorem bodyRows_lines (vars : List Variable) (async : List String) (all : List Subroutine) {frags : List Fragment}
    {next : Nat} {subs : List Subroutine} (h : Ordered frags.length next subs) :
    bodyRows vars async all frags next subs =
      some ((List.range' next (frags.length - next)).flatMap (rowsAt vars async all frags subs)) := by
  induction subs generalizing next with
  | nil =>
    have hall : frags.drop next = stretch frags next frags.length := by
      unfold stretch
      exact (List.take_of_length_le (by simp)).symm
    have hline : rowsAt vars async all frags [] = fun k => (frags[k]?.bind (Fragment.row? 0)).toList := by
      funext k
      simp [rowsAt, lineRow]
    rw [bodyRows, hall, rows_stretch, hline]
  | cons s subs ih =>
    have hhead := h.among s (by simp)
    have hnonneg := hhead.nonneg
    have hle := hhead.nonempty
    have hbelow := hhead.below
    have hafter := h.after s (by simp)
    obtain ⟨f, hf, hrows⟩ := bodyRows_cons vars async all hhead subs hafter
    -- the lines in front of the subroutine, its own, and those behind it
    have hsplit : List.range' next (frags.length - next) =
        List.range' next (s.first.toNat - next) ++
          List.range' s.first.toNat ((s.last - s.first).toNat + 1) ++
          List.range' (s.last + 1).toNat (frags.length - (s.last + 1).toNat) := by
      have hstart := List.range'_append_1 (s := next) (m := s.first.toNat - next) (n := (s.last - s.first).toNat + 1)
      rw [show next + (s.first.toNat - next) = s.first.toNat by omega] at hstart
      have hend := List.range'_append_1 (s := next) (m := s.first.toNat - next + ((s.last - s.first).toNat + 1))
        (n := frags.length - (s.last + 1).toNat)
      rw [show next + (s.first.toNat - next + ((s.last - s.first).toNat + 1)) = (s.last + 1).toNat by omega] at hend
      rw [hstart, hend]
      congr 1
      omega
    have hbefore : (stretch frags next s.first.toNat).filterMap (Fragment.row? 0) =
        (List.range' next (s.first.toNat - next)).flatMap (rowsAt vars async all frags (s :: subs)) := by
      have hordered : Ordered frags.length s.first.toNat (s :: subs) := by
        refine ⟨h.among, h.apart, List.forall_mem_cons.2 ⟨by omega, fun s' hs' => ?_⟩⟩
        have := (List.pairwise_cons.1 h.apart).1 s' hs'
        omega
      rw [rows_stretch]
      exact flatMap_congr_range' fun k _ hk => (rowsAt_before hordered (by omega)).symm
    have hfunction : s.function vars all frags f.indent (async.contains s.label) =
        (List.range' s.first.toNat ((s.last - s.first).toNat + 1)).flatMap
          (rowsAt vars async all frags (s :: subs)) := by
      have hdepth : f.indent = s.depth frags := by
        unfold Subroutine.depth
        rw [hf]
        rfl
      have hlines : (s.last + 1).toNat - s.first.toNat = (s.last - s.first).toNat + 1 := by omega
      have haround := flatMap_around s.first.toNat (s.last - s.first).toNat (s.opening vars async all frags)
        [s.closing frags] fun k => (frags[k]?.bind (Fragment.row? 1)).toList
      unfold Subroutine.function
      rw [hdepth, rows_stretch, hlines]
      refine Eq.trans haround.symm (flatMap_congr_range' fun k hk hk' => ?_)
      exact (rowsAt_inside h hk (by omega)).symm
    have hbehind : (List.range' (s.last + 1).toNat (frags.length - (s.last + 1).toNat)).flatMap
        (rowsAt vars async all frags subs) =
        (List.range' (s.last + 1).toNat (frags.length - (s.last + 1).toNat)).flatMap
          (rowsAt vars async all frags (s :: subs)) :=
      flatMap_congr_range' fun k hk _ => (rowsAt_behind h hk).symm
    rw [hrows, ih h.tail, Option.map_some, hbefore, hfunction, hbehind, hsplit, List.flatMap_append,
      List.flatMap_append]

end Rows

/-! ## The text -/

/-- **How the text of a program is assembled** from the code of its lines. -/
structure Draft.Assembled {p : Program} {text : String} {after : Tables} (o : Draft p text after) : Prop where
  /-- Each line has one fragment. -/
  count : (o.codes.map LineCode.fragment).length = p.lines.length
  /-- The subroutines are stretches of the lines. -/
  among : ∀ s ∈ after.subroutines, 0 ≤ s.first ∧ s.first ≤ s.last ∧ s.last < p.lines.length
  /-- They follow one another. -/
  apart : after.subroutines.Pairwise fun a b => a.last < b.first
  /-- No row is indented by less than nothing. -/
  indented : ∀ k < p.lines.length, ∀ r ∈ rowsAt o.tables.vars o.async after.subroutines
    (o.codes.map LineCode.fragment) after.subroutines k, 0 ≤ r.indent
  /-- Between the declarations and the helpers stand the rows of the lines. -/
  body : o.marked = (fun whole => if whole = "" then "\n" else whole)
    (o.tables.globalText ++ o.tables.dataText ++
      String.join (((List.range p.lines.length).flatMap (rowsAt o.tables.vars o.async after.subroutines
        (o.codes.map LineCode.fragment) after.subroutines)).map Row.written) ++ o.tables.helperText)

theorem Draft.assembled {p : Program} {text : String} {after : Tables} (o : Draft p text after) : o.Assembled := by
  have hsubs := o.subroutines_eq
  have hlength : (o.codes.map LineCode.fragment).length = p.lines.length := by
    rw [List.length_map, o.length_codes]
  have hordered : Ordered (o.codes.map LineCode.fragment).length 0 o.tables.subroutines := by
    rw [hlength]
    exact ⟨o.among, o.apart, fun s hs => (o.among s hs).nonneg⟩
  have hrows := bodyRows_lines o.tables.vars o.async o.tables.subroutines hordered
  rw [Nat.sub_zero, ← List.range_eq_range', hlength] at hrows
  have hmarked := o.marked_eq
  unfold Tables.markedText? at hmarked
  rw [hrows, Option.bind_eq_bind, Option.bind_some] at hmarked
  obtain ⟨texts, htexts, hmarked⟩ := Option.bind_eq_some_iff.1 hmarked
  obtain ⟨rfl, hindent⟩ := mapM_text?_eq_some_iff.1 htexts
  refine ⟨hlength, ?_, ?_, ?_, ?_⟩
  · intro s hs
    rw [hsubs] at hs
    exact ⟨(o.among s hs).nonneg, (o.among s hs).nonempty, (o.among s hs).below⟩
  · rw [hsubs]
    exact o.apart
  · intro k hk r hr
    rw [hsubs] at hr
    exact hindent r (List.mem_flatMap.2 ⟨k, List.mem_range.2 hk, hr⟩)
  · rw [hsubs]
    exact (Option.some.inj hmarked).symm

/-- **No line is lost, repeated or moved.** Whatever the program, if it has a text, then the subroutines are
stretches of its lines that follow one another, and the rows of the text are those of the lines in
order, with the header of a function right in front of the first line of its subroutine and the
closing brace right behind the last. -/
theorem generate_assembles_lines (p : Program) :
    match p.generate with
    | (.error _, _) => True
    | (.ok text, after) => ∃ o : Draft p text after, o.Assembled := by
  split
  · trivial
  · rename_i text after h
    obtain ⟨o⟩ := Program.exists_draft h
    exact ⟨o, o.assembled⟩

end Locomotive
