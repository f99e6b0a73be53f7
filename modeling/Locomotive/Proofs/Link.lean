import Locomotive.Proofs.Async
import Locomotive.Proofs.Emit.Resolve

/-!
# Linking references to functions

The labels that `GOSUB`s refer to are collected before the lines are compiled, and once more while they
are. Both traversals find the same labels in the same order. So a function is generated for a label
only if a reference names it, and a reference names a function exactly if there is one: every
other label gets a remark in its place and one warning.

* `Stmt.gosubs_usesOf`: the two traversals agree.
* `Stages.Links`: how references and functions belong together.
* `compile_references_link`: they do in every generated program.
-/

namespace Locomotive

/-! ## The labels of references -/

/-- The label of a use by a `GOSUB`. -/
def gosubLabel? : String × LabelUse → Option String
  | (label, .gosub) => some label
  | (_, .restore) => none

/-- **The labels that are collected first** are those of the references, in order. -/
theorem Stmt.gosubs_usesOf (ss : List Stmt) :
    (usesOf ss).filterMap gosubLabel? = (referencesOf ss).flatMap Reference.labels := by
  refine Hereditary.all (P := fun s => s.uses.filterMap gosubLabel? = s.references.flatMap Reference.labels)
    (Q := fun ss => (usesOf ss).filterMap gosubLabel? = (referencesOf ss).flatMap Reference.labels)
    ⟨?_, ?_, rfl, ?_⟩ ss
  · intro s hs
    cases s with
    | branch c yes no => cases hs
    | onGosub selector labels =>
      have hall : ∀ label, gosubLabel? (label, .gosub) = some label := fun _ => rfl
      simp [uses, references, Reference.labels, Reference.shape, List.filterMap_map, hall]
    | restore label => cases label <;> rfl
    | _ => rfl
  · intro c yes no hyes hno
    cases no with
    | none => simp [uses, references, usesOfElse, referencesOfElse, hyes]
    | some ss => simp [uses, references, usesOfElse, referencesOfElse, hyes, hno ss rfl]
  · intro s ss hs hss
    rw [usesOf, referencesOf, List.filterMap_append, List.flatMap_append, hs, hss]

theorem Program.gosubs_uses (p : Program) : p.uses.filterMap gosubLabel? =
    p.lines.flatMap fun l => (Stmt.referencesOf l.stmts).flatMap Reference.labels := by
  unfold Program.uses
  rw [List.filterMap_flatMap]
  simp only [Stmt.gosubs_usesOf]

/-- Each use by a `GOSUB` is counted once. -/
theorem count_foldl_use (uses : List (String × LabelUse)) (t : Tables) (label : String) :
    (uses.foldl (fun t u => t.use u.1 u.2) t).gosubs.count label =
      t.gosubs.count label + (uses.filterMap gosubLabel?).count label := by
  induction uses generalizing t with
  | nil => rfl
  | cons u us ih =>
    obtain ⟨name, use⟩ := u
    rw [List.foldl_cons, ih]
    cases use with
    | gosub =>
      have hcount : (t.use name .gosub).gosubs.count label = t.gosubs.count label + if label = name then 1 else 0 :=
        Tally.count_add t.gosubs name label
      rw [hcount, List.filterMap_cons_some (show gosubLabel? (name, .gosub) = some name from rfl), List.count_cons]
      by_cases h : label = name
      · subst h
        simp only [if_true, beq_self_eq_true]
        omega
      · have hne : (name == label) = false := by simpa using Ne.symm h
        simp only [h, hne, if_false, Bool.false_eq_true]
        omega
    | restore =>
      rw [List.filterMap_cons_none (show gosubLabel? (name, .restore) = none from rfl)]
      rfl

/-! ## Names of functions -/

/-- **The name of the function stands in the text** of a reference. -/
def Reference.Names (f : Functions) (label : String) : Reference → Prop
  | call l => l = label ∧ (call l).bareText f "" = "_" ++ label ++ "()"
  | select ls => label ∈ ls ∧ f.name label = "_" ++ label
  | schedule l => l = label ∧ (schedule l).bareText f "" = "_" ++ label

/-- A reference names the functions with its labels, if there are such functions. -/
theorem Reference.names_iff (f : Functions) (label : String) (r : Reference) :
    r.Names f label ↔ label ∈ r.labels ∧ f.has label = true := by
  have hname : f.name label = "_" ++ label ↔ f.has label = true := by
    unfold Functions.name
    by_cases h : f.has label = true
    · simp [h]
    · -- no name of a function starts with another letter
      rw [if_neg h]
      refine iff_of_false (fun heq => ?_) h
      have hhead := congrArg (fun s => s.toList.head?) heq
      simp at hhead
  cases r with
  | call l =>
    unfold Names
    constructor
    · rintro ⟨rfl, htext⟩
      refine ⟨List.mem_singleton.2 rfl, ?_⟩
      by_contra h
      have hhead := congrArg (fun s => s.toList.head?) htext
      simp [bareText, h] at hhead
    · rintro ⟨hmem, h⟩
      obtain rfl := List.mem_singleton.1 hmem
      exact ⟨rfl, by simp [bareText, h]⟩
  | select ls =>
    unfold Names
    rw [hname]
    rfl
  | schedule l =>
    unfold Names
    constructor
    · rintro ⟨rfl, htext⟩
      exact ⟨List.mem_singleton.2 rfl, hname.1 htext⟩
    · rintro ⟨hmem, h⟩
      obtain rfl := List.mem_singleton.1 hmem
      exact ⟨rfl, hname.2 h⟩

/-- The warning is about a reference to something that is no subroutine. -/
def Warning.isMissing (w : Warning) : Bool :=
  match w.remark with
  | .notSubroutine _ => true
  | _ => false

theorem isMissing_iff {w : Warning} : w.isMissing = true ↔ ∃ label, w.remark = .notSubroutine label := by
  unfold Warning.isMissing
  split
  · rename_i label h
    exact ⟨fun _ => ⟨label, h⟩, fun _ => rfl⟩
  · rename_i h
    constructor
    · intro hfalse
      cases hfalse
    · rintro ⟨label, hlabel⟩
      exact absurd hlabel (h label)

/-! ## Spellings of labels -/

namespace Parse

/-- The number is read as a label, which is its value in decimal digits. -/
def Spells (lexeme label : String) : Prop := ∃ v : Nat, Text.integer? lexeme = some (v : Int) ∧ label = toString v

/-- **Two spellings are the same label** exactly if they have the same value. -/
theorem Spells.eq_iff {lexeme lexeme' label label' : String} (h : Spells lexeme label) (h' : Spells lexeme' label') :
    label = label' ↔ Text.integer? lexeme = Text.integer? lexeme' := by
  obtain ⟨v, hv, rfl⟩ := h
  obtain ⟨v', hv', rfl⟩ := h'
  rw [toString_inj, hv, hv', Option.some.injEq, Int.natCast_inj]

open Parse.Outcome Parse.Parser

variable {n : Nat} {ts : List Token}

theorem labelRef_spells (h : Token.InOrder n ts) {q : Parsed (Token × String) ts} (hq : labelRef ts = .ok q) :
    Spells q.value.1.lexeme q.value.2 := by
  obtain ⟨t, mid, ht, hread⟩ := read_bind_eq_ok (read_eq_ok hq)
  obtain ⟨rfl, hk⟩ := (expect_within (by decide) ts).of_ok ht
  cases hl : label? t.lexeme with
  | none =>
    rw [hl] at hread
    cases hread
  | some l =>
    rw [hl] at hread
    rw [← (Prod.mk.inj (Except.ok.inj hread)).1]
    exact (label?_eq_some_iff ((h.fits t List.mem_cons_self).numeral hk)).1 hl

theorem lineLabel_spells {t : Token} (h : Token.InOrder n (t :: ts)) {seen : List Line} {label : String}
    (hlabel : lineLabel seen t ts = .ok (some label)) : Spells t.lexeme label := by
  rcases lineLabel_eq_ok_iff.1 hlabel with ⟨-, hnone⟩ | ⟨hk, l, hl, hsome, -⟩
  · cases hnone
  · cases hsome
    exact (label?_eq_some_iff ((h.fits t List.mem_cons_self).numeral hk)).1 hl

end Parse

/-! ## Programs -/

namespace Stages

variable {p : Program} {text : String}

/-- **How references and functions belong together**, where `t` are the tables in the end. -/
structure Links (o : Stages p text) (t : Tables) : Prop where
  /-- The functions that references name are those of the program. -/
  named : ∀ label, (∃ l ∈ p.lines, ∃ r ∈ Stmt.referencesOf l.stmts, r.Names (o.tables.functions o.async) label) ↔
    label ∈ o.tables.subroutines.map Subroutine.label
  /-- The program is made of its lines, each one once, and of one function for each subroutine. -/
  rows : o.rows = (partsOf p.lines.length 0 o.tables.subroutines).flatMap
    (Part.rows o.tables.vars o.async o.tables.subroutines (o.codes.map LineCode.fragment))
  lines : (partsOf p.lines.length 0 o.tables.subroutines).flatMap Part.lines = List.range p.lines.length
  functions : (partsOf p.lines.length 0 o.tables.subroutines).filterMap Part.sub? = o.tables.subroutines
  once : (o.tables.subroutines.map Subroutine.label).Nodup
  /-- The function of a label starts with the line that has this label, and no other line has it. -/
  placed : ∀ s ∈ o.tables.subroutines, ∃ l, p.lines[s.first.toNat]? = some l ∧ l.label = some s.label
  unique : (labelsOf p.lines).Nodup
  /-- The text has one place for each reference. -/
  marks : Js.HasMarks o.marked (List.range o.tables.callSites.length)
  /-- There the reference is written, with the names of functions or the remarks in their place. -/
  rendered : ∀ {k : Nat} {l : Line} {c : LineCode}, p.lines[k]? = some l → o.codes[k]? = some c →
    (Js.Stmt.refsOf c.code).length = (Stmt.referencesOf l.stmts).length ∧
    ∀ x ∈ (Js.Stmt.refsOf c.code).zip (Stmt.referencesOf l.stmts), o.Renders x.1 x.2
  /-- The labels that were collected first are those of the references in the tables. -/
  collected : p.uses.filterMap gosubLabel? = o.tables.callSites.flatMap CallSite.labels
  counted : ∀ label, o.tables.gosubs.count label = (o.tables.callSites.flatMap CallSite.labels).count label
  /-- There is one warning for each label of a reference that no function has, with the number of
  the line, and no other warning of this kind. -/
  warned : t.warnings.filter Warning.isMissing = p.lines.flatMap fun l =>
    (Stmt.referencesOf l.stmts).flatMap fun r =>
      (r.labels.filter fun label => !(o.tables.subroutines.map Subroutine.label).contains label).map fun label =>
        ⟨l.number, .notSubroutine label⟩

section

variable (o : Stages p text) (hp : p.Proper)

include hp

/-- The lines do not change which labels are referred to. -/
theorem gosubs_eq : o.tables.gosubs = p.start.gosubs := by
  obtain ⟨t, hrun, htables⟩ := o.lines_eq
  obtain ⟨hstart, hzero⟩ := p.before_start
  obtain ⟨⟨-, hc⟩, -⟩ := (Emit.lines_ends hp.line hstart hzero).of_ok hrun
  obtain ⟨restoreMap, new, lineNumber, hfinish, -⟩ := t.finish_eq
  rw [htables, hfinish]
  exact hc.gosubs

theorem count_gosubs (label : String) :
    o.tables.gosubs.count label = (p.uses.filterMap gosubLabel?).count label := by
  rw [o.gosubs_eq hp, Program.start, count_foldl_use]
  exact Nat.zero_add _

/-- **A function is generated only if a reference names it.** -/
theorem exists_reference {s : Subroutine} (hs : s ∈ o.tables.subroutines) :
    ∃ l ∈ p.lines, ∃ r ∈ Stmt.referencesOf l.stmts, s.label ∈ r.labels := by
  obtain ⟨label, -, hsub⟩ := List.mem_filterMap.1 hs
  have htarget : o.tables.gosubs.has s.label = true := (span_of_subroutine hsub).2
  have hcount : o.tables.gosubs.count s.label ≠ 0 := by simpa [Tally.has] using htarget
  rw [o.count_gosubs hp, p.gosubs_uses, Nat.ne_zero_iff_zero_lt, List.count_pos_iff] at hcount
  obtain ⟨l, hl, hmem⟩ := List.mem_flatMap.1 hcount
  obtain ⟨r, hr, hlabel⟩ := List.mem_flatMap.1 hmem
  exact ⟨l, hl, r, hr, hlabel⟩


/-- **Both traversals find the same labels.** -/
theorem uses_eq_sites : p.uses.filterMap gosubLabel? = o.tables.callSites.flatMap CallSite.labels := by
  have hsites := (o.history hp).record.sites
  have hlabels : o.tables.callSites.flatMap CallSite.labels =
      (o.tables.callSites.map fun s => (s.shape, s.lineNumber)).flatMap fun x => x.1.2 := by
    rw [List.flatMap_map]
    rfl
  rw [p.gosubs_uses, hlabels, hsites, sitesOf, List.flatMap_assoc]
  simp only [List.flatMap_map]
  rfl

/-- The warnings about references are those of resolving, since nothing else warns of them. -/
theorem filter_isMissing (hresult : p.generate.1 = .ok text) : p.generate.2.warnings.filter Warning.isMissing =
    complaintsOf (o.tables.functions o.async) p.lines := by
  obtain ⟨n, htables⟩ := o.complains hp hresult
  have hbefore : o.tables.warnings.filter Warning.isMissing = [] := by
    refine List.filter_eq_nil_iff.2 fun w hw hmissing => ?_
    obtain ⟨label, hlabel⟩ := isMissing_iff.1 hmissing
    exact (o.history hp).record.remarks w hw label hlabel
  have hall : ∀ w ∈ complaintsOf (o.tables.functions o.async) p.lines, w.isMissing = true := by
    intro w hw
    obtain ⟨l, -, hw⟩ := List.mem_flatMap.1 hw
    obtain ⟨r, -, hw⟩ := List.mem_flatMap.1 hw
    obtain ⟨label, -, rfl⟩ := List.mem_map.1 hw
    rfl
  rw [htables, List.filter_append, hbefore, List.nil_append, List.filter_eq_self.2 hall]

theorem links (hresult : p.generate.1 = .ok text) : o.Links p.generate.2 where
  named label := by
    have hhas : (o.tables.functions o.async).has label = true ↔ label ∈ o.tables.subroutines.map Subroutine.label :=
      List.contains_iff_mem
    constructor
    · rintro ⟨l, hl, r, hr, hnames⟩
      exact hhas.1 ((r.names_iff _ label).1 hnames).2
    · intro hmem
      obtain ⟨s, hs, rfl⟩ := List.mem_map.1 hmem
      obtain ⟨l, hl, r, hr, hlabel⟩ := o.exists_reference hp hs
      exact ⟨l, hl, r, hr, (r.names_iff _ s.label).2 ⟨hlabel, hhas.2 hmem⟩⟩
  rows := o.rows_eq_parts hp
  lines := by rw [lines_partsOf (o.inTurn hp), Nat.sub_zero, List.range_eq_range']
  functions := subs_partsOf ..
  once := (o.finished hp).nodup_subroutines hp
  placed s hs := by
    obtain ⟨k, l, hfirst, hl, hlabel⟩ := (o.history hp).chronicle.placed _ (Finished.mem_spans hs)
    have hk : s.first.toNat = k := by
      have hfirst : s.first = k := hfirst
      omega
    exact ⟨l, hk ▸ hl, hlabel⟩
  unique := hp.nodup
  marks := o.hasMarks hp
  rendered := (o.agrees hp).rendered
  collected := o.uses_eq_sites hp
  counted label := by rw [o.count_gosubs hp, o.uses_eq_sites hp]
  warned := o.filter_isMissing hp hresult

end

end Stages

/-- **References to subroutines link** in every program that is generated. A reference has the label
of a line exactly if both are spelled with the same value, and warnings have the number of a line. -/
theorem compile_references_link (strict : Bool) (source : List Char) :
    match (compile strict source).result with
    | .error _ => True
    | .ok text => ∃ (p : Program) (o : Stages p text),
      Program.parse strict (Token.scan source).tokens source = .ok p ∧
      o.Links (compile strict source).tables ∧ (∀ l ∈ p.lines, 0 < l.number) ∧
      ∀ ts ref seen t rest label, ts <:+ (Token.scan source).tokens → Parse.labelRef ts = .ok ref →
        t :: rest <:+ (Token.scan source).tokens → Parse.lineLabel seen t rest = .ok (some label) →
        (ref.value.2 = label ↔ Text.integer? ref.value.1.lexeme = Text.integer? t.lexeme) := by
  rcases hresult : (compile strict source).result with why | text
  · trivial
  · obtain ⟨p, ⟨o⟩, h⟩ := compile_accepted hresult
    have hinOrder := Token.scan_inOrder source
    have hlinks := o.links h.proper h.generated
    rw [← h.tables] at hlinks
    refine ⟨p, o, h.parsed, hlinks, Parse.number_pos h.parsed, ?_⟩
    intro ts ref seen t rest label hts href hline hlabel
    have href := Parse.labelRef_spells (hinOrder.suffix hts) href
    exact href.eq_iff (Parse.lineLabel_spells (hinOrder.suffix hline) hlabel)

end Locomotive
