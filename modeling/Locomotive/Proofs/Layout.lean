import Locomotive.Layout
import Locomotive.Js.Helper
import Locomotive.Proofs.Emit.Change
import Locomotive.Proofs.Js.Marked

/-!
# Laying out the program

The rows of the generated program can always be laid out: the lines of each subroutine are
lines of the program, and no row is indented by less than nothing. The text has no marks but
those of the fragments.

* `bodyRows_spec`: the rows of the fragments and the functions around them.
* `Tables.markedText?_spec`: the text of the program, with marks.
-/

namespace Locomotive

open Js (Unmarked Marked)

/-! ## Texts without marks -/

namespace Text

/-- Quoted text has no marks, since they are not printable. -/
theorem unmarked_quoted (s : String) : Unmarked (quoted s) := by
  rw [quoted, Js.unmarked_ofList]
  refine List.forall_mem_append.2 ⟨List.forall_mem_cons.2 ⟨by decide, fun c hc => ?_⟩, by decide⟩
  obtain ⟨d, -, hd⟩ := List.mem_flatMap.1 hc
  have hescape : ∀ cs : List Char, (∀ c ∈ cs, Js.Clean c) → ∀ c ∈ '\\' :: cs, Js.Clean c := fun cs h =>
    List.forall_mem_cons.2 ⟨by decide, h⟩
  have hhex : ∀ letter width, Js.Clean letter → ∀ c ∈ '\\' :: letter :: hexDigits width d.toNat, Js.Clean c :=
    fun letter width hl => hescape _ (List.forall_mem_cons.2 ⟨hl, fun c hc => (Js.plain_hexDigits _ _ c hc).clean⟩)
  unfold quoteChar at hd
  split at hd
  · rename_i hq
    simp only [Bool.or_eq_true, beq_iff_eq] at hq
    refine hescape [d] ?_ c hd
    rcases hq with rfl | rfl <;> decide
  split at hd
  · rename_i hprint
    obtain rfl := List.mem_singleton.1 hd
    constructor <;> rintro rfl <;> exact absurd hprint (by decide +kernel)
  split at hd
  · rename_i e he
    refine hescape [e] ?_ c hd
    have hletter : ∀ n, shortEscape? n = some e → Js.Clean e := by
      intro n hn
      unfold shortEscape? at hn
      split at hn <;> cases hn <;> decide
    simpa using hletter _ he
  split at hd
  · exact hhex 'x' 2 (by decide) c hd
  split at hd
  · exact hhex 'u' 4 (by decide) c hd
  · exact hhex 'U' 8 (by decide) c hd

end Text

theorem unmarked_helpers : ∀ h ∈ Js.helpers, Unmarked h.2 := by
  have hbytes : ∀ h ∈ Js.helpers, (0xEE : UInt8) ∉ h.2.toByteArray.data.toList := by decide +kernel
  exact fun h hh => Js.unmarked_of_bytes (hbytes h hh)

/-- What is found in a table has a property of all its texts. -/
theorem lookup_getD {P : String → Prop} {entries : List (String × String)} (h : ∀ e ∈ entries, P e.2) (hnone : P "")
    (name : String) : P ((entries.lookup name).getD "") := by
  induction entries with
  | nil => exact hnone
  | cons e es ih =>
    obtain ⟨he, hes⟩ := List.forall_mem_cons.1 h
    rw [List.lookup_cons]
    split
    · exact he
    · exact ih hes

/-- The definitions of helpers have no marks. -/
theorem unmarked_helperDefinition (name : String) : Unmarked (Js.helperDefinition name) :=
  lookup_getD unmarked_helpers (by decide) name

/-! ## Rows -/

variable {n : Nat}

/-- The row can be written, and its marks are those of the first `n` references. -/
structure Row.Fits (n : Nat) (r : Row) : Prop where
  indent : 0 ≤ r.indent
  text : Marked n r.text

/-- The same for the row of a fragment. -/
structure Fragment.Fits (n : Nat) (f : Fragment) : Prop where
  indent : 0 ≤ f.indent
  text : Marked n f.text

/-- The subroutine has a name without marks, and its lines are among the first `count`. -/
structure Subroutine.Inside (count : Nat) (s : Subroutine) : Prop where
  label : Unmarked s.label
  first : 0 ≤ s.first ∧ s.first < count
  last : s.first ≤ s.last ∧ s.last < count

/-- The lines of the subroutine are among the first `count`. -/
structure Subroutine.Among (count : Nat) (s : Subroutine) : Prop where
  nonneg : 0 ≤ s.first
  nonempty : s.first ≤ s.last
  below : s.last < count

theorem Subroutine.Inside.among {count : Nat} {s : Subroutine} (h : s.Inside count) : s.Among count :=
  ⟨h.first.1, h.last.1, h.last.2⟩

theorem unmarked_declaration {v : Variable} (h : Unmarked v.name) : Unmarked v.declaration := by
  unfold Variable.declaration
  split <;> exact Js.unmarked_append.2 ⟨h, by decide⟩

theorem unmarked_letText {vs : List Variable} (h : ∀ v ∈ vs, Unmarked v.name) {text : String}
    (ht : letText vs = some text) : Unmarked text := by
  unfold letText at ht
  split at ht
  · cases ht
  · cases ht
    simp only [Js.unmarked_append]
    refine ⟨⟨by decide, Js.unmarked_textClass.intercalate (by decide) fun s hs => ?_⟩, by decide⟩
    obtain ⟨v, hv, rfl⟩ := List.mem_map.1 hs
    exact unmarked_declaration (h v hv)

theorem unmarked_header {s : Subroutine} (h : Unmarked s.label) (isAsync : Bool) : Unmarked (s.header isAsync) := by
  have hasync : Unmarked (if isAsync then "async " else "") := by cases isAsync <;> decide
  simp only [Subroutine.header, Js.unmarked_append]
  exact ⟨⟨⟨hasync, by decide⟩, h⟩, by decide⟩

/-- The rows of fragments. -/
theorem fits_rows {frags : List Fragment} (h : ∀ f ∈ frags, f.Fits n) {extra : Int} (he : 0 ≤ extra) :
    ∀ r ∈ frags.filterMap (Fragment.row? extra), r.Fits n := by
  intro r hr
  obtain ⟨f, hf, hrow⟩ := List.mem_filterMap.1 hr
  unfold Fragment.row? at hrow
  split at hrow
  · cases hrow
  · cases hrow
    exact ⟨Int.add_nonneg (h f hf).indent he, (h f hf).text⟩

theorem mem_stretch {frags : List Fragment} {start stop : Nat} {f : Fragment} (h : f ∈ stretch frags start stop) :
    f ∈ frags :=
  List.mem_of_mem_drop (List.mem_of_mem_take h)

/-- The rows of the function of a subroutine: a header, the variables that only it uses, and its
lines. -/
def Subroutine.function (s : Subroutine) (vars : List Variable) (all : List Subroutine) (frags : List Fragment)
    (indent : Int) (isAsync : Bool) : List Row :=
  ⟨indent, s.header isAsync⟩ ::
    (letText (vars.filter fun v => v.home? all == some s.label)).toList.map (fun t => ⟨indent + 1, t⟩) ++
    (stretch frags s.first.toNat (s.last + 1).toNat).filterMap (Fragment.row? 1) ++ [⟨indent, "\x7d"⟩]

theorem Subroutine.fits_function {s : Subroutine} {vars : List Variable} (hvars : ∀ v ∈ vars, Unmarked v.name)
    {frags : List Fragment} (hfrags : ∀ f ∈ frags, f.Fits n) (hlabel : Unmarked s.label) (all : List Subroutine)
    {indent : Int} (hindent : 0 ≤ indent) (isAsync : Bool) :
    ∀ r ∈ s.function vars all frags indent isAsync, r.Fits n := by
  have hbrace : Unmarked "\x7d" := by decide
  have hlocals : ∀ r ∈ (letText (vars.filter fun v => v.home? all == some s.label)).toList.map
      (fun t => (⟨indent + 1, t⟩ : Row)), r.Fits n := by
    intro r hr
    obtain ⟨text, ht, rfl⟩ := List.mem_map.1 hr
    have htext := unmarked_letText (fun v hv => hvars v (List.mem_filter.1 hv).1) (Option.mem_toList.1 ht)
    exact ⟨by dsimp only; omega, htext.marked⟩
  have hlines : ∀ r ∈ (stretch frags s.first.toNat (s.last + 1).toNat).filterMap (Fragment.row? 1), r.Fits n :=
    fits_rows (fun f hf => hfrags f (mem_stretch hf)) (by decide)
  unfold Subroutine.function
  simp only [List.forall_mem_append, List.forall_mem_cons]
  exact ⟨⟨⟨⟨hindent, (unmarked_header hlabel _).marked⟩, hlocals⟩, hlines⟩, ⟨hindent, hbrace.marked⟩, by simp⟩

/-- The rows of a subroutine that starts behind those before it. -/
theorem bodyRows_cons (vars : List Variable) (async : List String) (all : List Subroutine) {frags : List Fragment}
    {s : Subroutine} (hs : s.Among frags.length) (subs : List Subroutine) {next : Nat} (hnext : next ≤ s.first) :
    ∃ f, frags[s.first.toNat]? = some f ∧ bodyRows vars async all frags next (s :: subs) =
      (bodyRows vars async all frags (s.last + 1).toNat subs).map fun rest =>
        (stretch frags next s.first.toNat).filterMap (Fragment.row? 0) ++
        s.function vars all frags f.indent (async.contains s.label) ++ rest := by
  have hnonneg := hs.nonneg
  have hle := hs.nonempty
  have hlast := hs.below
  have hget : frags[s.first.toNat]? = some frags[s.first.toNat] := List.getElem?_eq_getElem (by omega)
  have hfirst : max next s.first.toNat = s.first.toNat := by omega
  have hstop : max s.first.toNat (s.last + 1).toNat = (s.last + 1).toNat := by omega
  have hinside : ¬ frags.length < (s.last + 1).toNat := by omega
  refine ⟨frags[s.first.toNat], hget, ?_⟩
  rw [bodyRows]
  simp only [hfirst, hstop, Int.not_lt.2 hnonneg, if_false, hget, hinside]
  cases bodyRows vars async all frags (s.last + 1).toNat subs with
  | none => rfl
  | some rest => simp [Subroutine.function]

/-- **The rows of the fragments and of the functions.** If each subroutine ends before the next
one starts, all have their functions. -/
theorem bodyRows_spec {vars : List Variable} (hvars : ∀ v ∈ vars, Unmarked v.name) {frags : List Fragment}
    (hfrags : ∀ f ∈ frags, f.Fits n) (async : List String) (all : List Subroutine) {subs : List Subroutine}
    (hsubs : ∀ s ∈ subs, s.Inside frags.length) (hapart : subs.Pairwise fun a b => a.last < b.first) {next : Nat}
    (hnext : ∀ s ∈ subs, next ≤ s.first) :
    ∃ rows, bodyRows vars async all frags next subs = some rows ∧ (∀ r ∈ rows, r.Fits n) ∧
      ∀ s ∈ subs, ∃ indent, s.function vars all frags indent (async.contains s.label) <:+: rows := by
  induction hapart generalizing next with
  | nil => exact ⟨_, rfl, fits_rows (fun f hf => hfrags f (List.mem_of_mem_drop hf)) (Int.le_refl 0), by simp⟩
  | @cons s subs hs _ ih =>
    obtain ⟨hinside, hsubs⟩ := List.forall_mem_cons.1 hsubs
    obtain ⟨f, hget, hrows⟩ := bodyRows_cons vars async all hinside.among subs (hnext s (by simp))
    have hf : f ∈ frags := List.mem_of_getElem? hget
    -- the other functions stand behind the last line of this one
    have hbefore : ∀ s' ∈ subs, ((s.last + 1).toNat : Int) ≤ s'.first := by
      intro s' hs'
      have := hs s' hs'
      have := hinside.first
      have := hinside.last
      omega
    obtain ⟨rest, hrest, hfits, hfunctions⟩ := ih hsubs hbefore
    have hmain : ∀ r ∈ (stretch frags next s.first.toNat).filterMap (Fragment.row? 0), r.Fits n :=
      fits_rows (fun f hf => hfrags f (mem_stretch hf)) (Int.le_refl 0)
    have hfunction := Subroutine.fits_function hvars hfrags hinside.label all (hfrags f hf).indent
      (async.contains s.label)
    rw [hrows, hrest]
    refine ⟨_, rfl, ?_, List.forall_mem_cons.2 ⟨⟨f.indent, _, rest, rfl⟩, fun s' hs' => ?_⟩⟩
    · exact List.forall_mem_append.2 ⟨List.forall_mem_append.2 ⟨hmain, hfunction⟩, hfits⟩
    · obtain ⟨indent, hinfix⟩ := hfunctions s' hs'
      exact ⟨indent, hinfix.trans (List.suffix_append _ rest).isInfix⟩

theorem unmarked_tabs (k : Nat) : Unmarked (String.ofList (List.replicate k '\t')) := by
  refine Js.unmarked_ofList.2 fun c hc => ?_
  rw [List.eq_of_mem_replicate hc]
  decide

/-- A row as it is written: indented by tabs, and ended. -/
def Row.written (r : Row) : String := String.ofList (List.replicate r.indent.toNat '\t') ++ r.text ++ "\n"

/-- Rows are written only if none is indented by less than nothing. -/
theorem mapM_text?_eq_some_iff {rows : List Row} {texts : List String} :
    rows.mapM Row.text? = some texts ↔ texts = rows.map Row.written ∧ ∀ r ∈ rows, 0 ≤ r.indent := by
  induction rows generalizing texts with
  | nil => simp [eq_comm]
  | cons r rows ih =>
    rw [List.mapM_cons, List.forall_mem_cons]
    by_cases hr : r.indent < 0
    · rw [show r.text? = none from if_pos hr]
      exact iff_of_false (fun h => by cases h) fun h => Int.not_le.2 hr h.2.1
    · rw [show r.text? = some r.written from if_neg hr, Option.bind_eq_bind, Option.bind_some]
      constructor
      · intro h
        obtain ⟨rest, hrest, h⟩ := Option.bind_eq_some_iff.1 h
        cases h
        obtain ⟨rfl, hrows⟩ := ih.1 hrest
        exact ⟨rfl, Int.not_lt.1 hr, hrows⟩
      · rintro ⟨rfl, -, hrows⟩
        exact Option.bind_eq_some_iff.2 ⟨_, ih.2 ⟨rfl, hrows⟩, rfl⟩

namespace Tables

variable {t : Tables}

theorem unmarked_restoreEntries (t : Tables) : Unmarked t.restoreEntries := by
  refine Js.unmarked_textClass.intercalate (by decide) fun s hs => ?_
  obtain ⟨l, -, rfl⟩ := List.mem_map.1 hs
  simp only [Js.unmarked_append]
  exact ⟨⟨Text.unmarked_quoted l, by decide⟩, Js.unmarked_toString _⟩

theorem unmarked_dataText (h : ∀ d ∈ t.data, Unmarked d) : Unmarked t.dataText := by
  have hdata : Unmarked (", ".intercalate t.data) := Js.unmarked_textClass.intercalate (by decide) h
  unfold dataText
  split
  · simp only [Js.unmarked_append]
    exact ⟨⟨⟨⟨by decide, hdata⟩, by decide⟩, t.unmarked_restoreEntries⟩, by decide⟩
  · decide

theorem unmarked_helperText (t : Tables) : Unmarked t.helperText := by
  unfold helperText
  split
  · decide
  · refine Js.unmarked_append.2 ⟨by decide, Js.unmarked_textClass.join fun s hs => ?_⟩
    obtain ⟨name, -, rfl⟩ := List.mem_map.1 hs
    exact Js.unmarked_append.2 ⟨unmarked_helperDefinition name, by decide⟩

theorem unmarked_globalText (h : t.VarsUnmarked) : Unmarked t.globalText := by
  unfold globalText
  split
  · rename_i text htext
    exact Js.unmarked_append.2 ⟨unmarked_letText (fun v hv => h v (List.mem_filter.1 hv).1) htext, by decide⟩
  · decide

/-- **The text of the program**, with the marks of the fragments and no others. -/
theorem markedText?_spec (hvars : t.VarsUnmarked) (hdata : ∀ d ∈ t.data, Unmarked d) {frags : List Fragment}
    (hfrags : ∀ f ∈ frags, f.Fits n) (hsubs : ∀ s ∈ t.subroutines, s.Inside frags.length)
    (hapart : t.subroutines.Pairwise fun a b => a.last < b.first) (async : List String) :
    ∃ text, t.markedText? frags async = some text ∧ Marked n text := by
  obtain ⟨rows, hrows, hfits, -⟩ := bodyRows_spec hvars hfrags async t.subroutines hsubs hapart
    fun s hs => (hsubs s hs).first.1
  have hbody := mapM_text?_eq_some_iff.2 ⟨rfl, fun r hr => (hfits r hr).indent⟩
  have hmarked : ∀ s ∈ rows.map Row.written, Marked n s := List.forall_mem_map.2 fun r hr =>
    (hfits r hr).text.between (unmarked_tabs _) (by decide)
  have htext : Marked n (t.globalText ++ t.dataText ++ String.join (rows.map Row.written) ++ t.helperText) :=
    (((unmarked_globalText hvars).marked.append (unmarked_dataText hdata).marked).append
      ((Marked.textClass n).join hmarked)).append t.unmarked_helperText.marked
  refine ⟨_, by rw [markedText?, hrows]; simp only [Option.bind_eq_bind, Option.bind_some, hbody]; rfl, ?_⟩
  split
  · exact Unmarked.marked (by decide)
  · exact htext

/-- The text is made of rows. -/
theorem rows_of_markedText? {frags : List Fragment} {async : List String} {text : String}
    (h : t.markedText? frags async = some text) :
    ∃ rows, bodyRows t.vars async t.subroutines frags 0 t.subroutines = some rows := by
  unfold markedText? at h
  obtain ⟨rows, hrows, -⟩ := Option.bind_eq_some_iff.1 h
  exact ⟨rows, hrows⟩

end Tables

end Locomotive
