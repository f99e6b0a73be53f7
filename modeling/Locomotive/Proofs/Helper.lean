import Locomotive.Proofs.Emit.Ledger
import Locomotive.Proofs.Js.Written
import Locomotive.Proofs.Layout.Section
import Locomotive.Proofs.Tables.Names

/-!
# The helpers of the generated program

A program carries the definitions of the helpers that its code calls, and of no others. They are
noted while code is generated, apart from the calls, and each of them is defined once, in order.

* `Stages.mem_helperNames_iff`: the helpers that are noted are those called.
* `Stages.Shaken`: which helpers a program defines.
* `compile_helpers_shaken`: it does so in every generated program.
-/

namespace Locomotive

namespace Js

/-- Every helper has a definition, and no definition is empty. -/
theorem helperDefinition_mem {name : String} (h : isHelper name = true) :
    (name, helperDefinition name) ∈ helpers ∧ helperDefinition name ≠ "" := by
  have hnonempty : ∀ e ∈ helpers, e.2 ≠ "" := by decide +kernel
  obtain ⟨e, he, hname⟩ := List.any_eq_true.1 h
  obtain rfl := beq_iff_eq.1 hname
  cases hlookup : helpers.lookup e.1 with
  | none =>
    have hne := List.lookup_eq_none_iff.1 hlookup e he
    simp at hne
  | some definition =>
    obtain ⟨front, back, hhelpers, -⟩ := List.lookup_eq_some_iff.1 hlookup
    have hmem : (e.1, definition) ∈ helpers := by
      rw [hhelpers]
      simp
    unfold helperDefinition
    rw [hlookup, Option.getD_some]
    exact ⟨hmem, hnonempty _ hmem⟩

/-- The name of a helper starts with a letter and holds no mark. -/
theorem callHead_eq {name : String} (h : isHelper name = true) :
    ∃ c w, (callHead name).toList = c :: w ∧ c.isDigit = false ∧ ∀ x ∈ c :: w, Clean x := by
  have hall : ∀ e ∈ helpers, Unmarked e.1 ∧ e.1.toList.head?.any (fun c => !c.isDigit) = true := by decide +kernel
  obtain ⟨e, he, hname⟩ := List.any_eq_true.1 h
  obtain rfl := beq_iff_eq.1 hname
  obtain ⟨hclean, hhead⟩ := hall e he
  have hcall : Unmarked (callHead e.1) := unmarked_append.2 ⟨hclean, by decide⟩
  cases hchars : e.1.toList with
  | nil =>
    rw [hchars] at hhead
    cases hhead
  | cons c w =>
    rw [hchars] at hhead
    have hlist : (callHead e.1).toList = c :: (w ++ ['(']) := by simp [callHead, hchars]
    exact ⟨c, w ++ ['('], hlist, by simpa using hhead, hlist ▸ hcall⟩

theorem Stmt.mem_callsOf_flatMap {codes : List LineCode} {f : String} :
    f ∈ callsOf (codes.flatMap LineCode.code) ↔ ∃ c ∈ codes, f ∈ callsOf c.code := by
  induction codes with
  | nil => simp [callsOf]
  | cons c codes ih => rw [List.flatMap_cons, callsOf_append, List.mem_append, ih, List.exists_mem_cons_iff]

theorem Stmt.mem_selectionsOf_flatMap {codes : List LineCode} {x : Nat × Expr} :
    x ∈ selectionsOf (codes.flatMap LineCode.code) ↔ ∃ c ∈ codes, x ∈ selectionsOf c.code := by
  induction codes with
  | nil => simp [selectionsOf]
  | cons c codes ih => rw [List.flatMap_cons, selectionsOf_append, List.mem_append, ih, List.exists_mem_cons_iff]

end Js

/-! ## Calls in the rows -/

namespace FilledChars

variable {ref : Nat → String} {cs out : List Char}

/-- **A mark is replaced** by the text of its reference. -/
theorem infix_mark {i : Nat} (h : FilledChars ref cs out) (hstands : (Js.siteMark i).toList <:+: cs) :
    (ref i).toList <:+: out := by
  obtain ⟨a, b, hall⟩ := hstands
  have htail : ∀ j, ∃ ds, (Js.siteMark j).toList = Js.markOpen :: ds ∧ Js.markOpen ∉ ds := by
    intro j
    refine ⟨(toString j).toList ++ [Js.markClose], by simp [Js.siteMark], ?_⟩
    rw [List.mem_append, List.mem_singleton]
    rintro (hdigit | hclose)
    · exact absurd (isDigit_of_mem_toString hdigit) (by decide)
    · exact absurd hclose (by decide)
  induction h generalizing a with
  | nil => simp [Js.siteMark] at hall
  | @char c cs out hc _ ih =>
    cases a with
    | nil =>
      -- a mark starts with a character of its own
      have hopen : Js.markOpen = c := by simpa [Js.siteMark] using congrArg List.head? hall
      exact absurd hopen.symm hc.1
    | cons d a =>
      obtain ⟨-, hrest⟩ := List.cons.inj (by simpa using hall : d :: (a ++ ((Js.siteMark i).toList ++ b)) = c :: cs)
      exact (ih a (by rw [← hrest, List.append_assoc])).trans (List.suffix_cons ..).isInfix
  | @mark j cs out hrest ih =>
    cases a with
    | nil =>
      have hmark : FilledChars ref ((Js.siteMark i).toList ++ b) ((ref j).toList ++ out) := by
        rw [show (Js.siteMark i).toList ++ b = (Js.siteMark j).toList ++ cs by simpa using hall]
        exact .mark hrest
      obtain ⟨rest, hout, -⟩ := hmark.mark_inv
      rw [hout]
      exact (List.prefix_append ..).isInfix
    | cons d a =>
      -- the mark does not start inside another one
      obtain ⟨ds, hds, hnone⟩ := htail j
      obtain ⟨es, hes, -⟩ := htail i
      rw [hds, hes, List.append_assoc, List.cons_append, List.cons_append] at hall
      obtain ⟨-, hall⟩ := List.cons.inj hall
      rcases List.append_eq_append_iff.1 hall with ⟨m, hm, hcs⟩ | ⟨a', ha, hcs⟩
      · cases m with
        | nil =>
          refine (ih [] ?_).trans (List.suffix_append ..).isInfix
          rw [List.nil_append, hes]
          simpa using hcs
        | cons x m =>
          have hx : Js.markOpen = x := (List.cons.inj hcs).1
          exact absurd (by rw [hm, hx]; simp) hnone
      · refine (ih a' ?_).trans (List.suffix_append ..).isInfix
        rw [hcs, hes, List.append_assoc, List.cons_append]

end FilledChars

/-! ## Programs -/

namespace Stages

variable {p : Program} {text : String} (o : Stages p text) (hp : p.Proper)

section
include hp

theorem valid_helpers : o.tables.helpers.Valid := by
  obtain ⟨names, hhelpers, -⟩ := o.called hp
  rw [hhelpers]
  exact Tally.valid_foldl names Tally.valid_nil

/-- **The helpers that are noted** are those that the code of some line calls. -/
theorem mem_helperNames_iff (h : String) :
    h ∈ o.tables.helperNames ↔ Js.isHelper h = true ∧ ∃ c ∈ o.codes, h ∈ Js.Stmt.callsOf c.code := by
  obtain ⟨names, hhelpers, hcalled⟩ := o.called hp
  have hnames : h ∈ o.tables.helpers.names ↔ h ∈ names := by
    rw [hhelpers, Tally.mem_names_foldl]
    simp [Tally.names]
  rw [Tables.helperNames, Text.mem_sorted, hnames, hcalled.agrees h, Js.Stmt.mem_callsOf_flatMap]

/-- A helper that is noted has the data declared. -/
theorem hasData_of_mem {h : String} (hmem : h ∈ o.tables.helperNames) (hname : h = "read" ∨ h = "restore") :
    o.tables.hasData = true := by
  have hnames : h ∈ o.tables.helpers.names := Text.mem_sorted.1 hmem
  have hhas : o.tables.helpers.has h = true := ((o.valid_helpers hp).has_iff h).2 hnames
  unfold Tables.hasData
  rcases hname with rfl | rfl <;> simp [hhas]

end

/-- A line with code has a row. -/
theorem exists_row (o : Stages p text) (hp : p.Proper) {c : LineCode} (hc : c ∈ o.codes)
    (hne : c.fragment.text ≠ "") : ∃ r ∈ o.rows, r.text = c.fragment.text := by
  have hlength : (o.codes.map LineCode.fragment).length = p.lines.length := by
    rw [List.length_map, (o.finished hp).placed.length_eq]
  have hturn := o.inTurn hp
  have hordered : Ordered (o.codes.map LineCode.fragment).length 0 o.tables.subroutines := by
    rw [hlength]
    exact ⟨fun s hs => (hturn.inside s hs).among, hturn.apart, hturn.after⟩
  have hrows := Option.some.inj
    (o.rows_eq.symm.trans (bodyRows_lines o.tables.vars o.async o.tables.subroutines hordered))
  obtain ⟨k, hk⟩ := List.mem_iff_getElem?.1 hc
  have hfrag : (o.codes.map LineCode.fragment)[k]? = some c.fragment := by rw [List.getElem?_map, hk]; rfl
  have hlt : k < (o.codes.map LineCode.fragment).length := (List.getElem?_eq_some_iff.1 hfrag).1
  obtain ⟨indent, hrow⟩ : ∃ indent, lineRow o.tables.subroutines (o.codes.map LineCode.fragment) k =
      [⟨indent, c.fragment.text⟩] := by
    unfold lineRow
    rw [hfrag, Option.bind_some, Fragment.row?, if_neg hne]
    exact ⟨_, rfl⟩
  refine ⟨⟨indent, c.fragment.text⟩, ?_, rfl⟩
  rw [hrows, List.mem_flatMap]
  refine ⟨k, by simpa using hlt, ?_⟩
  unfold rowsAt
  rw [hrow]
  simp

/-- **The helpers that a line calls** are called in the rows of the program. -/
theorem infix_body (o : Stages p text) (hp : p.Proper) {body : String}
    (hbody : FilledChars o.reference o.rowText.toList body.toList) {h : String} (hhelper : Js.isHelper h = true)
    {c : LineCode} (hc : c ∈ o.codes) (hcall : h ∈ Js.Stmt.callsOf c.code) :
    (Js.callHead h).toList <:+: body.toList := by
  obtain ⟨x, w, hhead, hdigit, hclean⟩ := Js.callHead_eq hhelper
  obtain ⟨_, _, hplaced⟩ := (o.finished hp).placed.mem hc
  obtain ⟨k, hk⟩ := List.mem_iff_getElem?.1 hc
  obtain ⟨l, -, hwritten⟩ := (o.history hp).record.line_of_code hk
  have hshown := Js.Stmt.callShown_lineText hwritten.sited hcall
  -- the text of the line stands in a row
  have hrow : ∀ v : String, v.toList ≠ [] → v.toList <:+: c.fragment.text.toList → v.toList <:+: o.rowText.toList := by
    intro v hne hv
    have hsome : c.fragment.text ≠ "" := by
      intro hempty
      rw [hempty] at hv
      exact hne (List.infix_nil.1 hv)
    obtain ⟨r, hr, htext⟩ := o.exists_row hp hc hsome
    rw [← htext] at hv
    refine List.IsInfix.trans ?_ (Js.infix_join (List.mem_map_of_mem hr))
    exact Js.Stmt.infix_append_right (Js.Stmt.infix_append_left hv)
  rcases hshown with hcall | ⟨y, hy, hmark, hcall⟩
  · have hstands := hrow _ (by rw [hhead]; simp) hcall
    rw [hhead] at hstands ⊢
    obtain ⟨hx, hw⟩ := List.forall_mem_cons.1 hclean
    exact hbody.infix_of_clean hx hdigit hw hstands
  · -- the number that selects stands in the text of the reference
    obtain ⟨names, -, hcalled⟩ := o.called hp
    obtain ⟨s, hs, hkind, hselector⟩ := hcalled.selects y (Js.Stmt.mem_selectionsOf_flatMap.2 ⟨c, hc, hy⟩)
    have hstands : (Js.callHead h).toList <:+: (o.reference y.1).toList := by
      have htext : o.reference y.1 = (Reference.select s.labels).text (o.tables.functions o.async) s.selector := by
        unfold reference siteText
        rw [hs]
        exact CallSite.text_eq (show s.shape = (Reference.select s.labels).shape by
          unfold CallSite.shape
          rw [hkind]
          rfl) _
      rw [htext, hselector, Reference.text, Reference.bareText]
      exact Js.Stmt.infix_append_left (Js.Stmt.infix_append_right (Js.Stmt.infix_append_left hcall))
    exact hstands.trans (hbody.infix_mark (hrow _ (by simp [Js.siteMark]) hmark))

/-- **Which helpers a program defines**, and what is declared with them. -/
structure Shaken (o : Stages p text) : Prop where
  /-- They are the helpers that the code of some line calls. -/
  called : ∀ h, h ∈ o.tables.helperNames ↔ Js.isHelper h = true ∧ ∃ c ∈ o.codes, h ∈ Js.Stmt.callsOf c.code
  /-- Each is named once, in order. -/
  once : o.tables.helperNames.Pairwise (· < ·)
  /-- Each has a definition, which is not empty. -/
  defined : ∀ h ∈ o.tables.helperNames, (h, Js.helperDefinition h) ∈ Js.helpers ∧ Js.helperDefinition h ≠ ""
  /-- The definitions stand behind the rows of the lines, and in these rows each helper is called. -/
  sections : ∃ body : String, FilledChars o.reference o.rowText.toList body.toList ∧
    (∀ h ∈ o.tables.helperNames, (h ++ "(").toList <:+: body.toList) ∧
    text = (fun whole => if whole = "" then "\n" else whole) (o.tables.globalText ++ o.tables.dataText ++ body ++
      if o.tables.helperNames = [] then "" else
        "\n" ++ String.join (o.tables.helperNames.map fun h => Js.helperDefinition h ++ "\n"))
  /-- The helpers that read data find it declared. -/
  data : "read" ∈ o.tables.helperNames ∨ "restore" ∈ o.tables.helperNames →
    ∃ data entries, o.tables.dataText = "const _data = [" ++ data ++ "];\nconst _restoreMap = \x7b" ++ entries ++
      "\x7d;\nlet _dataPtr = 0;\n"

theorem helperText_eq (o : Stages p text) : o.tables.helperText = if o.tables.helperNames = [] then "" else
    "\n" ++ String.join (o.tables.helperNames.map fun h => Js.helperDefinition h ++ "\n") := by
  have hempty : o.tables.helpers.entries.isEmpty = true ↔ o.tables.helperNames = [] := by
    have hlength := (Text.perm_sorted o.tables.helpers.names).length_eq
    unfold Tables.helperNames
    rw [List.isEmpty_iff_length_eq_zero, ← List.length_eq_zero_iff, hlength, Tally.names, List.length_map]
  unfold Tables.helperText
  simp only [hempty]

end Stages

/-- **A program carries exactly the helpers that it calls**, whatever its source. -/
theorem compile_helpers_shaken (strict : Bool) (source : List Char) :
    match (compile strict source).result with
    | .error _ => True
    | .ok text => ∃ (p : Program) (o : Stages p text), Program.parse strict (Token.scan source).tokens source = .ok p ∧
      o.Shaken := by
  rcases hresult : (compile strict source).result with why | text
  · trivial
  obtain ⟨p, ⟨o⟩, h⟩ := compile_accepted hresult
  have hcalled := o.mem_helperNames_iff h.proper
  refine ⟨p, o, h.parsed, hcalled, Text.pairwise_sorted (o.valid_helpers h.proper).nodup, ?_, ?_, ?_⟩
  · exact fun f hf => Js.helperDefinition_mem ((hcalled f).1 hf).1
  · obtain ⟨body, hbody, htext⟩ := o.exists_body h.proper
    refine ⟨body, hbody, fun f hf => ?_, ?_⟩
    · obtain ⟨hhelper, c, hc, hcall⟩ := (hcalled f).1 hf
      exact o.infix_body h.proper hbody hhelper hc hcall
    · rw [← o.helperText_eq]
      exact htext
  · rintro (hmem | hmem)
    · exact ⟨_, _, if_pos (o.hasData_of_mem h.proper hmem (.inl rfl))⟩
    · exact ⟨_, _, if_pos (o.hasData_of_mem h.proper hmem (.inr rfl))⟩

end Locomotive
