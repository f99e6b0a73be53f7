import Locomotive.Proofs.Compiler

/-!
# Waiting in the generated program

A function is asynchronous exactly if it has to be: an `await` stands in one of its lines, or
one of its lines calls such a function. Calls of asynchronous functions are awaited and others
are not, so an `await` stands in no function that is not asynchronous.

* `Stages.Suspends`: the functions that have to be asynchronous.
* `Stages.Agrees`: where `async` and `await` stand.
* `compile_async_agrees`: they stand so in every generated program.
-/

namespace Locomotive

variable {p : Program} {text : String}

namespace Stages

/-- The text of the reference with the given number in the generated program. -/
def textOf (o : Stages p text) (i : Nat) : String := siteText (o.tables.functions o.async) o.tables.callSites i

/-- The text of the reference starts with an `await`. -/
def awaited (o : Stages p text) (i : Nat) : Bool := Text.startsWith (o.textOf i) "await "

/-- **The functions that have to be asynchronous**, by their labels. An `await` stands in one of
their lines, or a statement there calls such a function. The awaits of calls and those in the
bodies of arrows do not count. -/
inductive Suspends (o : Stages p text) : String → Prop
  | line {s : Subroutine} {k : Nat} {c : LineCode} : s ∈ o.tables.subroutines → s.holds k = true →
    o.codes[k]? = some c → Js.Stmt.anyAwaits (fun _ => false) c.code = true → Suspends o s.label
  | call {s : Subroutine} {k : Nat} {l : Line} {r : Reference} {label : String} : s ∈ o.tables.subroutines →
    s.holds k = true → p.lines[k]? = some l → r ∈ Stmt.referencesOf l.stmts → label ∈ r.calls →
    Suspends o label → Suspends o s.label

/-- How a reference of the source is written in the text. -/
structure Renders (o : Stages p text) (i : Nat) (r : Reference) : Prop where
  /-- The text calls or names the functions with the labels of the reference. -/
  text : ∃ selector, o.textOf i = r.text (o.tables.functions o.async) selector
  /-- It is awaited exactly if a function that it calls is asynchronous. -/
  await : o.awaited i = true ↔ ∃ label ∈ r.calls, label ∈ o.async

/-- **Where `async` and `await` stand.** -/
structure Agrees (o : Stages p text) : Prop where
  /-- The lines of each subroutine stand in its function, which is declared as an asynchronous one
  if `async` has it. -/
  declared : ∀ s ∈ o.tables.subroutines, ∃ indent, s.function o.tables.vars o.tables.subroutines
    (o.codes.map LineCode.fragment) indent (o.async.contains s.label) <:+: o.rows
  /-- The asynchronous functions are those that have to be. -/
  least : ∀ label, label ∈ o.async ↔ o.Suspends label
  /-- The references in the code of a line are those of its statements, one after the other. -/
  rendered : ∀ {k : Nat} {l : Line} {c : LineCode}, p.lines[k]? = some l → o.codes[k]? = some c →
    (Js.Stmt.refsOf c.code).length = (Stmt.referencesOf l.stmts).length ∧
    ∀ x ∈ (Js.Stmt.refsOf c.code).zip (Stmt.referencesOf l.stmts), o.Renders x.1 x.2
  /-- An `await` stands in the lines of asynchronous functions only. -/
  inside : ∀ s ∈ o.tables.subroutines, ∀ {k : Nat} {c : LineCode}, s.holds k = true → o.codes[k]? = some c →
    Js.Stmt.anyAwaits o.awaited c.code = true → s.label ∈ o.async
  /-- Arrows are asynchronous exactly if an `await` stands in their body, and a line does not
  wait for them. -/
  arrows : ∀ c ∈ o.codes, Js.Stmt.AllArrowsAgree c.code ∧ c.waits = Js.Stmt.anyAwaits (fun _ => false) c.code

end Stages

/-! ## References -/

/-- The subroutines that a reference calls, as the tables have it. -/
theorem Reference.mem_calls_iff {r : Reference} {s : CallSite} (h : s.shape = r.shape) {label : String} :
    label ∈ r.calls ↔ s.kind ≠ .reference ∧ label ∈ s.labels := by
  obtain ⟨hkind, hlabels⟩ := Prod.mk.inj (show (s.kind, s.labels) = (r.shape.1, r.shape.2) from h)
  rw [hkind, hlabels]
  cases r <;> simp [Reference.calls, Reference.shape]

/-- Without the `await`, no text starts with the letter of one. -/
theorem Reference.bareText_head (r : Reference) (f : Functions) (selector : String) :
    ∃ c cs, (r.bareText f selector).toList = c :: cs ∧ c ≠ 'a' := by
  have hname : ∀ label, ∃ c cs, (f.name label).toList = c :: cs ∧ c ≠ 'a' := by
    intro label
    unfold Functions.name
    split
    · exact ⟨'_', label.toList, by simp, by decide⟩
    · exact ⟨'u', "ndefined".toList, by decide, by decide⟩
  cases r with
  | call label =>
    dsimp only [Reference.bareText]
    split
    · exact ⟨'_', label.toList ++ "()".toList, by simp, by decide⟩
    · exact ⟨'/', "* GOSUB ".toList ++ label.toList ++ " */".toList, by simp, by decide⟩
  | select labels =>
    exact ⟨'[', _, by simp [Reference.bareText]; rfl, by decide⟩
  | schedule label => exact hname label

/-- A text starts with `await` exactly if the reference is awaited. -/
theorem Reference.startsWith_text (r : Reference) (f : Functions) (selector : String) :
    Text.startsWith (r.text f selector) "await " = r.isAwaited f := by
  obtain ⟨c, cs, hbare, hc⟩ := r.bareText_head f selector
  unfold Text.startsWith Reference.text
  cases r.isAwaited f with
  | true => simp
  | false =>
    rw [if_neg (by decide), String.toList_append, hbare]
    have hne : ('a' == c) = false := by simpa using Ne.symm hc
    show ('a' == c && "wait ".toList.isPrefixOf cs) = false
    rw [hne, Bool.false_and]

/-- A reference is awaited exactly if a function that it calls is asynchronous. -/
theorem Reference.isAwaited_iff {r : Reference} {f : Functions} (hsub : ∀ label ∈ f.async, label ∈ f.all) :
    r.isAwaited f = true ↔ ∃ label ∈ r.calls, label ∈ f.async := by
  cases r with
  | call label =>
    simp only [Reference.isAwaited, Functions.has, Functions.isAsync, Reference.calls, Bool.and_eq_true,
      List.contains_iff_mem, List.mem_singleton, exists_eq_left]
    exact ⟨fun h => h.2, fun h => ⟨hsub label h, h⟩⟩
  | select labels => simp [Reference.isAwaited, Functions.isAsync, Reference.calls]
  | schedule label => simp [Reference.isAwaited, Reference.calls]

/-! ## The stages of a program with proper lines -/

namespace Finished

variable {codes : List LineCode} {t : Tables}

/-- A call in the tables is one that a statement of its line makes. -/
theorem calls_iff (h : Finished p codes t) {k : Nat} {label : String} :
    (∃ s ∈ t.callSites, s.line = k ∧ s.kind ≠ .reference ∧ label ∈ s.labels) ↔
      ∃ l, p.lines[k]? = some l ∧ ∃ r ∈ Stmt.referencesOf l.stmts, label ∈ r.calls := by
  constructor
  · rintro ⟨s, hs, hline, hkind, hlabel⟩
    obtain ⟨-, hlt⟩ := h.sites s hs
    obtain ⟨l, c, hl, -, hplaced⟩ := h.placed.get (show k < p.lines.length by omega)
    rw [Nat.zero_add] at hplaced
    obtain ⟨r, hr, hshape⟩ := hplaced.mem_references hs hline
    exact ⟨l, hl, r, hr, (Reference.mem_calls_iff hshape.symm).2 ⟨hkind, hlabel⟩⟩
  · rintro ⟨l, hl, r, hr, hlabel⟩
    obtain ⟨l', c, hl', -, hplaced⟩ := h.placed.get (List.getElem?_eq_some_iff.1 hl).1
    obtain rfl : l' = l := Option.some.inj (hl'.symm.trans hl)
    rw [Nat.zero_add] at hplaced
    obtain ⟨before, new, after, hsites, -, hline, -, hshape, -⟩ := hplaced.own
    obtain ⟨s, hs, hsr⟩ := List.mem_map.1 (hshape ▸ List.mem_map_of_mem hr : r.shape ∈ new.map CallSite.shape)
    obtain ⟨hkind, hlabels⟩ := (Reference.mem_calls_iff hsr).1 hlabel
    exact ⟨s, by rw [hsites]; simp [hs], hline s hs, hkind, hlabels⟩

/-- A line waits exactly if an `await` of its own stands in its code. -/
theorem waits_iff (h : Finished p codes t) {k : Nat} : (codes.map LineCode.waits)[k]? = some true ↔
    ∃ c, codes[k]? = some c ∧ Js.Stmt.anyAwaits (fun _ => false) c.code = true := by
  rw [List.getElem?_map, Option.map_eq_some_iff]
  constructor
  · rintro ⟨c, hc, hw⟩
    obtain ⟨_, _, hplaced⟩ := h.placed.mem (List.mem_of_getElem? hc)
    exact ⟨c, hc, hplaced.waits ▸ hw⟩
  · rintro ⟨c, hc, hw⟩
    obtain ⟨_, _, hplaced⟩ := h.placed.mem (List.mem_of_getElem? hc)
    exact ⟨c, hc, hplaced.waits.trans hw⟩

/-- The code of a line. -/
theorem placed_of_getElem? (h : Finished p codes t) {k : Nat} {l : Line} {c : LineCode} (hl : p.lines[k]? = some l)
    (hc : codes[k]? = some c) : Placed t.callSites k l c := by
  obtain ⟨l', c', hl', hc', hplaced⟩ := h.placed.get (List.getElem?_eq_some_iff.1 hl).1
  obtain rfl : l' = l := Option.some.inj (hl'.symm.trans hl)
  obtain rfl : c' = c := Option.some.inj (hc'.symm.trans hc)
  rwa [Nat.zero_add] at hplaced

end Finished

namespace Stages

theorem async_eq_asyncLabels (o : Stages p text) (hp : p.Proper) :
    o.async = asyncLabels o.tables.subroutines (o.codes.map LineCode.waits) o.tables.callSites :=
  Option.some.inj (o.async_eq.symm.trans ((o.finished hp).async?_eq hp))

/-- The asynchronous functions are among the functions. -/
theorem async_subset (o : Stages p text) (hp : p.Proper) :
    ∀ label ∈ (o.tables.functions o.async).async, label ∈ (o.tables.functions o.async).all := by
  intro label hlabel
  rw [Tables.functions, o.async_eq_asyncLabels hp] at hlabel
  exact List.mem_eraseDups.1 (reach_subset label hlabel)

/-- The asynchronous functions are those that have to be. -/
theorem mem_async_iff (o : Stages p text) (hp : p.Proper) (label : String) :
    label ∈ o.async ↔ o.Suspends label := by
  have h := o.finished hp
  rw [o.async_eq_asyncLabels hp, mem_asyncLabels_iff (h.apart hp).separate _ (fun s hs => (h.sites s hs).1)]
  constructor
  · intro hwaits
    induction hwaits with
    | line hs hholds hline =>
      obtain ⟨c, hc, hawait⟩ := h.waits_iff.1 hline
      exact .line hs hholds hc hawait
    | call hs hholds hcalls _ ih =>
      obtain ⟨l, hl, r, hr, hlabel⟩ := h.calls_iff.1 hcalls
      exact .call hs hholds hl hr hlabel ih
  · intro hsuspends
    induction hsuspends with
    | line hs hholds hc hawait => exact .line hs hholds (h.waits_iff.2 ⟨_, hc, hawait⟩)
    | call hs hholds hl hr hlabel _ ih => exact .call hs hholds (h.calls_iff.2 ⟨_, hl, _, hr, hlabel⟩) ih

/-- The mark of a reference is replaced by the text of the reference. -/
theorem renders (o : Stages p text) (hp : p.Proper) {k : Nat} {l : Line} {c : LineCode}
    (h : Placed o.tables.callSites k l c) {x : Nat × Reference}
    (hx : x ∈ (Js.Stmt.refsOf c.code).zip (Stmt.referencesOf l.stmts)) : o.Renders x.1 x.2 := by
  obtain ⟨s, hsite, hshape⟩ := h.site_of_mem_zip hx
  have htext : o.textOf x.1 = x.2.text (o.tables.functions o.async) s.selector := by
    unfold textOf siteText
    rw [hsite, Option.map_some, Option.getD_some, CallSite.text_eq hshape]
  refine ⟨⟨s.selector, htext⟩, ?_⟩
  unfold awaited
  rw [htext, Reference.startsWith_text]
  exact Reference.isAwaited_iff (o.async_subset hp)

/-- An `await` in a line is the line's own, or that of a call. -/
theorem suspends_of_anyAwaits (o : Stages p text) (hp : p.Proper) {s : Subroutine}
    (hs : s ∈ o.tables.subroutines) {k : Nat} {c : LineCode} (hholds : s.holds k = true) (hc : o.codes[k]? = some c)
    (hawait : Js.Stmt.anyAwaits o.awaited c.code = true) : o.Suspends s.label := by
  have h := o.finished hp
  -- there is one code for each line
  have hlt : k < p.lines.length := h.placed.length_eq ▸ (List.getElem?_eq_some_iff.1 hc).1
  have hl := List.getElem?_eq_getElem hlt
  have hplaced := h.placed_of_getElem? hl hc
  rw [Js.Stmt.anyAwaits_eq, Bool.or_eq_true, List.any_eq_true] at hawait
  rcases hawait with hown | ⟨i, hi, hcall⟩
  · exact .line hs hholds hc hown
  · -- the reference that belongs to the mark calls an asynchronous function
    obtain ⟨j, hj, rfl⟩ := List.mem_iff_getElem.1 hi
    have hj' : j < (Stmt.referencesOf p.lines[k].stmts).length := hplaced.length_refs ▸ hj
    have hmem : ((Js.Stmt.refsOf c.code)[j], (Stmt.referencesOf p.lines[k].stmts)[j]) ∈
        (Js.Stmt.refsOf c.code).zip (Stmt.referencesOf p.lines[k].stmts) :=
      List.mem_iff_getElem?.2 ⟨j, List.getElem?_zip_eq_some.2
        ⟨List.getElem?_eq_getElem hj, List.getElem?_eq_getElem hj'⟩⟩
    obtain ⟨label, hlabel, hasync⟩ := (o.renders hp hplaced hmem).await.1 hcall
    exact .call hs hholds hl (List.getElem_mem hj') hlabel ((o.mem_async_iff hp label).1 hasync)

/-- Each subroutine has a function. -/
theorem function_infix_rows (o : Stages p text) (hp : p.Proper) :
    ∀ s ∈ o.tables.subroutines, ∃ indent, s.function o.tables.vars o.tables.subroutines
      (o.codes.map LineCode.fragment) indent (o.async.contains s.label) <:+: o.rows := by
  have h := o.finished hp
  obtain ⟨rows, hrows, -, hfunctions⟩ := bodyRows_spec h.noMarks.vars h.fits_fragments o.async o.tables.subroutines
    (h.inside hp) (h.apart hp).lines fun s hs => (h.inside hp s hs).first.1
  obtain rfl : rows = o.rows := Option.some.inj (hrows.symm.trans o.rows_eq)
  exact hfunctions

theorem agrees (o : Stages p text) (hp : p.Proper) : o.Agrees where
  declared := o.function_infix_rows hp
  least := o.mem_async_iff hp
  rendered hl hc :=
    have hplaced := (o.finished hp).placed_of_getElem? hl hc
    ⟨hplaced.length_refs, fun _ hx => o.renders hp hplaced hx⟩
  inside s hs _ _ hholds hc hawait := (o.mem_async_iff hp s.label).2 (o.suspends_of_anyAwaits hp hs hholds hc hawait)
  arrows c hc := by
    obtain ⟨_, _, hplaced⟩ := (o.finished hp).placed.mem hc
    exact ⟨hplaced.arrows, hplaced.waits⟩

end Stages

/-- **`async` and `await` agree** in every program that is generated. -/
theorem compile_async_agrees (strict : Bool) (source : List Char) :
    match (compile strict source).result with
    | .error _ => True
    | .ok text => ∃ (p : Program) (o : Stages p text),
      Program.parse strict (Token.scan source).tokens source = .ok p ∧ o.Agrees := by
  have hparse := Parse.program_proper strict source
  rw [compile_result]
  rcases (Token.scan source).error with _ | ⟨line, why⟩
  · rcases hp : Program.parse strict (Token.scan source).tokens source with why | p <;> rw [hp] at hparse
    · trivial
    · have hgen := Program.generate_spec hparse
      dsimp only
      rcases hg : p.generate.1 with why | text <;> rw [hg] at hgen
      · trivial
      · obtain ⟨-, ⟨o⟩⟩ := hgen
        exact ⟨p, o, rfl, o.agrees hparse⟩
  · trivial

/-- A subroutine that asks for a value is asynchronous, and its call is awaited. -/
theorem compile_async_agrees_input : ∃ (text : String) (p : Program) (o : Stages p text),
    (compile false "10 GOSUB 20\n20 INPUT A\n30 RETURN".toList).result = .ok text ∧ o.Agrees ∧
    Text.startsWith text "await _20();\nasync function _20() \x7b\n" = true := by
  have hagrees := compile_async_agrees false "10 GOSUB 20\n20 INPUT A\n30 RETURN".toList
  have hstarts : (compile false "10 GOSUB 20\n20 INPUT A\n30 RETURN".toList).result.toOption.any
      (fun text => Text.startsWith text "await _20();\nasync function _20() \x7b\n") = true := by decide +kernel
  obtain ⟨text, hresult, hstarts⟩ := exists_ok_of_any hstarts
  rw [hresult] at hagrees
  obtain ⟨p, o, -, ho⟩ := hagrees
  exact ⟨text, p, o, hresult, ho, hstarts⟩

end Locomotive
