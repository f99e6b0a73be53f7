import Locomotive.Proofs.Emit.Note
import Locomotive.Proofs.Layout.Section

/-!
# How a program starts

Messages of failure and generated programs are texts of the same kind, and a message starts with `ERROR: `.
No program does: whatever stands first in it, a declaration, a function or the code of a line, its first
character is no `E`. Names are in lower case, and all else starts with a fixed word or sign. A program
is not empty either, and ends with a line feed.

* `Text.NoAlarm`: texts that do not start like a message.
* `Stmt.quiet_codes`: the code of statements.
* `Stages.noAlarm`, `Stages.endsWithFeed`: the two ends of a program.
-/

namespace Locomotive

open Js (Marked)

/-- **The text does not start like a message of failure**: its first character is no `E`. -/
def Text.NoAlarm (s : String) : Prop := s.toList.head? ≠ some 'E'

namespace Text

variable {a b sep : String}

instance (s : String) : Decidable (NoAlarm s) := inferInstanceAs (Decidable (_ ≠ _))

theorem NoAlarm.append (ha : NoAlarm a) (hb : NoAlarm b) : NoAlarm (a ++ b) := by
  unfold NoAlarm at *
  rw [String.toList_append, List.head?_append]
  cases h : a.toList.head? with
  | none => exact hb
  | some c => rwa [h] at ha

/-- What follows a text that is not empty is no matter. -/
theorem NoAlarm.before (ha : NoAlarm a) (hne : a ≠ "") (b : String) : NoAlarm (a ++ b) := by
  unfold NoAlarm at *
  rw [String.toList_append, List.head?_append]
  cases h : a.toList.head? with
  | none => exact absurd (String.toList_eq_nil_iff.1 (List.head?_eq_none_iff.1 h)) hne
  | some c => rwa [h] at ha

theorem NoAlarm.join {ss : List String} (h : ∀ s ∈ ss, NoAlarm s) : NoAlarm (String.join ss) := by
  induction ss with
  | nil => decide
  | cons s ss ih =>
    obtain ⟨hs, hss⟩ := List.forall_mem_cons.1 h
    rw [String.join_cons]
    exact hs.append (ih hss)

theorem NoAlarm.intercalate {ss : List String} (hsep : NoAlarm sep) (h : ∀ s ∈ ss, NoAlarm s) :
    NoAlarm (sep.intercalate ss) := by
  induction ss with
  | nil => simp [NoAlarm]
  | cons s ss ih =>
    obtain ⟨hs, hss⟩ := List.forall_mem_cons.1 h
    cases ss with
    | nil => simpa using hs
    | cons s' ss =>
      rw [String.intercalate_cons_cons]
      exact (hs.append hsep).append (ih hss)

/-- No character is an `E` in lower case. -/
theorem lowerChar_ne (c : Char) : lowerChar c ≠ 'E' := by
  have hruns : ∀ r ∈ caseRuns, 0x45 < (r.first : Int) + r.shift ∧ (r.last : Int) + r.shift < 0x110000 ∧
      ((r.last : Int) + r.shift < 0xD800 ∨ 0xDFFF < (r.first : Int) + r.shift) := by decide +kernel
  unfold lowerChar
  split
  · rename_i hascii
    have hall : ∀ n < 0x80, (Char.ofNat n).toLower ≠ 'E' := by decide +kernel
    have hc : Char.ofNat c.toNat = c := Char.ofNat_toNat c
    rw [← hc]
    exact hall _ hascii
  · rename_i hbeyond
    have hcode : 'E'.toNat = 0x45 := rfl
    split
    · rename_i r hr
      have hm := hruns r (List.mem_of_find?_eq_some hr)
      have hh := List.find?_some hr
      simp only [CaseRun.holds, Bool.and_eq_true, decide_eq_true_eq] at hh
      intro hE
      have hnat := congrArg Char.toNat hE
      rw [Js.toNat_ofNat (by omega), hcode] at hnat
      omega
    · rintro rfl
      omega

theorem noAlarm_lower (s : String) : NoAlarm (lower s) := by
  unfold NoAlarm lower
  rw [String.toList_ofList, List.head?_map]
  cases s.toList.head? with
  | none => simp
  | some c => simpa using lowerChar_ne c

end Text

/-! ## Code -/

namespace Js

/-- The identifier of a name is in lower case, but for its last letter. -/
theorem noAlarm_identifier (name : String) : Text.NoAlarm (identifier name) := by
  have hlower := Text.noAlarm_lower name
  have hdrop : Text.NoAlarm (Text.dropLast (Text.lower name)) := by
    unfold Text.NoAlarm Text.dropLast at *
    rw [String.toList_ofList]
    cases hl : (Text.lower name).toList with
    | nil => simp
    | cons c cs =>
      rw [hl] at hlower
      cases cs with
      | nil => simp
      | cons d cs => simpa using hlower
  have hspelled : Text.NoAlarm (spelled name) := by
    unfold spelled
    dsimp only
    split
    · exact hdrop.append (by decide)
    · exact hdrop.append (by decide)
    · exact hlower
  unfold identifier
  dsimp only
  split
  · exact hspelled.append (by decide)
  · exact hspelled

theorem noAlarm_helper {name : String} (h : isHelper name = true) : Text.NoAlarm name := by
  have hall : ∀ e ∈ helpers, Text.NoAlarm e.1 := by decide +kernel
  obtain ⟨e, he, hname⟩ := List.any_eq_true.1 h
  rw [← beq_iff_eq.1 hname]
  exact hall e he

/-- **The statement starts quietly**: what stands first in it is a name, a mark or a sign. -/
def Stmt.Quiet : Stmt → Prop
  | expr e => Text.NoAlarm e.text
  | assign target _ => Text.NoAlarm target.text
  | _ => True

theorem noAlarm_call {f : String} (h : Text.NoAlarm f) (args : List Expr) : Text.NoAlarm (Expr.call f args).text := by
  rw [Expr.text]
  have hopen : Text.NoAlarm (f ++ "(") := h.append (by decide)
  exact (hopen.before (by simp) _).before (by simp) _

theorem noAlarm_await (x : Expr) : Text.NoAlarm (Expr.unary .await x).text := by
  simp [Expr.text, UnaryOp.text, Text.NoAlarm]

theorem Stmt.Quiet.noAlarm {s : Stmt} (h : s.Quiet) : Text.NoAlarm s.text := by
  cases s with
  | expr e => exact h
  | assign target value =>
    have hfront : Text.NoAlarm (target.text ++ " = ") := Text.NoAlarm.append h (by decide)
    exact hfront.before (by simp) _
  | _ => simp [Stmt.text, Text.NoAlarm]

/-- **A line starts quietly** if its statements do; its comments have a sign before them. -/
theorem noAlarm_lineText {code : List Stmt} (h : ∀ s ∈ code, s.Quiet) : Text.NoAlarm (lineText code) := by
  have hparts : ∀ part ∈ Stmt.parts code, Text.NoAlarm part := by
    induction code with
    | nil => simp [Stmt.parts]
    | cons s code ih =>
      obtain ⟨hs, hcode⟩ := List.forall_mem_cons.1 h
      have hfirst : ∀ part ∈ Stmt.parts (s :: code), part = s.text ∨ part ∈ Stmt.parts code := by
        intro part hpart
        cases s with
        | comment text => exact .inr hpart
        | _ => exact List.mem_cons.1 hpart
      intro part hpart
      rcases hfirst part hpart with rfl | hrest
      · exact hs.noAlarm
      · exact ih hcode part hrest
  have hcode : Text.NoAlarm (joinParts (Stmt.parts code)) := by
    refine Text.NoAlarm.intercalate (by decide) fun s hs => ?_
    obtain ⟨part, hpart, rfl⟩ := List.mem_map.1 hs
    split
    · exact hparts part hpart
    · exact (hparts part hpart).append (by decide)
  unfold lineText
  dsimp only
  split
  · exact hcode
  · have hfront : Text.NoAlarm ((if joinParts (Stmt.parts code) = "" then "" else joinParts (Stmt.parts code) ++ " ") ++
        "// ") := by
      split
      · decide
      · exact (hcode.append (by decide)).append (by decide)
    exact hfront.before (by simp) _

end Js

/-! ## Generating code -/

/-- The statement is a `RETURN`. -/
def Stmt.isReturn : Stmt → Bool
  | ret => true
  | _ => false

namespace Emit

/-- Code of which every statement starts quietly, without a `return`. -/
def Quiet (code : List Js.Stmt) : Prop := ∀ s ∈ code, s.Quiet ∧ s.isRet = false

theorem quiet_one {s : Js.Stmt} (h : s.Quiet) (hret : s.isRet = false) : Quiet [s] :=
  List.forall_mem_singleton.2 ⟨h, hret⟩

/-- A statement for each member of a list. -/
theorem quiet_map {α : Type} {f : α → Js.Stmt} {xs : List α} (h : ∀ x ∈ xs, (f x).Quiet ∧ (f x).isRet = false) :
    Quiet (xs.map f) := List.forall_mem_map.2 h

end Emit

/-- What a value is stored in starts with a name. -/
theorem Expr.noAlarm_target {e : Expr} (h : e.Target) (μ : Mode) : Text.NoAlarm (e.code μ).text := by
  have hplace := h.isPlace
  cases e with
  | var name => exact Js.noAlarm_identifier name
  | index name is =>
    rw [code_index, Js.Expr.text]
    refine (Js.noAlarm_identifier name).append (.join fun s hs => ?_)
    generalize is.map (code μ) = xs at hs
    induction xs with
    | nil => simp [Js.Expr.bracketed] at hs
    | cons y ys ih =>
      rw [Js.Expr.bracketed] at hs
      rcases List.mem_cons.1 hs with rfl | hs
      · simp [Text.NoAlarm]
      · exact ih hs
  | _ => exact hplace.elim

namespace Stmt

open Emit (Quiet quiet_one quiet_map)

/-- **The code of a statement** starts quietly, and only a `RETURN` is a `return`. The statements inside a branch
stand behind its own first word. -/
theorem quiet_code {s : Stmt} (h : s.Proper) (hs : s.isReturn = false) (t : Tables) : Quiet (s.code t) := by
  have hcall : ∀ {name : String}, Text.NoAlarm name → ∀ args, Quiet [.expr (.call name args)] := fun hname args =>
    quiet_one (Js.noAlarm_call hname args) rfl
  have hawait : ∀ x : Js.Expr, Quiet [.expr (.unary .await x)] := fun x => quiet_one (Js.noAlarm_await x) rfl
  have hmark : ∀ i, Text.NoAlarm (Js.siteMark i) := by
    intro i
    simp [Js.siteMark, Text.NoAlarm, Js.markOpen]
  cases s with
  | assign place value => exact quiet_one (Expr.noAlarm_target h.1 _) rfl
  | print stream items =>
    have hname : Text.NoAlarm (Emit.printer t.tag) := by
      unfold Emit.printer
      split <;> decide
    exact hcall hname _
  | write stream args | restore label => exact hcall (by decide) _
  | command c args =>
    show Quiet (c.code _)
    unfold Command.code
    split
    case h_3 => exact hawait _
    case h_4 | h_5 => exact hcall (by decide) _
    case h_6 =>
      split
      · rename_i hname
        exact hcall (Js.noAlarm_helper (helper_command hname).1) _
      · simp [Quiet]
    all_goals exact quiet_one trivial rfl
  | graphics name x y pen => exact hcall (Text.noAlarm_lower name) _
  | next vars => exact fun s hs => List.eq_of_mem_replicate hs ▸ ⟨trivial, rfl⟩
  | gosub label => exact quiet_one (hmark _) rfl
  | onGosub selector labels => exact quiet_one (hmark _) rfl
  | ret => cases hs
  | data items | missing => simp [code, Quiet]
  | read targets => exact quiet_map fun e he => ⟨Expr.noAlarm_target (h.2 e he) _, rfl⟩
  | dim arrays =>
    refine quiet_map fun e he => ?_
    obtain ⟨name, sizes, rfl, -⟩ := (h.2 e he).parts
    exact ⟨Js.noAlarm_identifier name, rfl⟩
  | erase names =>
    rw [code, List.map_map]
    exact quiet_map fun name _ => ⟨Js.noAlarm_identifier name, rfl⟩
  | input prompt question targets =>
    have htargets := h.2
    cases targets with
    | nil => simp [code, Emit.inputCodes, Quiet]
    | cons e es =>
      obtain ⟨he, hes⟩ := List.forall_mem_cons.1 htargets
      exact List.forall_mem_cons.2 ⟨⟨Expr.noAlarm_target he _, rfl⟩,
        quiet_map fun e he => ⟨Expr.noAlarm_target (hes e he) _, rfl⟩⟩
  | timer name interval which label => exact hawait _
  | rsx name args =>
    simp only [code, Emit.rsxCode]
    split
    · exact hawait _
    · exact quiet_one (by simp [Js.Stmt.Quiet, Js.Expr.text, Text.NoAlarm]) rfl
  | _ => exact quiet_one trivial rfl

/-- **The code of statements**, by induction over them. -/
theorem quiet_codes {ss : List Stmt} (h : AllProper ss) (t : Tables) :
    (∀ s ∈ codeOf t ss, s.Quiet) ∧ (codeOf t ss).any Js.Stmt.isRet = ss.any Stmt.isReturn := by
  induction ss generalizing t with
  | nil => exact ⟨by simp [codeOf], rfl⟩
  | cons s ss ih =>
    have hfirst : (∀ x ∈ s.code t, x.Quiet) ∧ (s.code t).any Js.Stmt.isRet = s.isReturn := by
      by_cases hs : s.isReturn
      · cases s with
        | ret => exact ⟨List.forall_mem_singleton.2 trivial, rfl⟩
        | _ => cases hs
      · rw [Bool.not_eq_true] at hs
        have hquiet := quiet_code h.1 hs t
        refine ⟨fun x hx => (hquiet x hx).1, ?_⟩
        rw [hs, List.any_eq_false]
        exact fun x hx => by simp [(hquiet x hx).2]
    obtain ⟨hrest, hret⟩ := ih h.2 (t.perform (s.deeds t))
    rw [codeOf, List.any_append, List.any_cons, hfirst.2, hret]
    exact ⟨List.forall_mem_append.2 ⟨hfirst.1, hrest⟩, rfl⟩

end Stmt

theorem Emit.CompilesAll.quiet {i : Nat} {ls : List Line} {t t' : Tables} {cs : List LineCode} (h : CompilesAll i ls t cs t')
    (hls : ∀ l ∈ ls, l.Proper) : (∀ c ∈ cs, ∀ s ∈ c.code, s.Quiet) ∧
      cs.map LineCode.returns = ls.map fun l => l.stmts.any Stmt.isReturn := by
  induction h with
  | nil => exact ⟨by simp, rfl⟩
  | @cons i l ls t t₁ _ _ _ c cs _ hc _ ih =>
    obtain ⟨hl, hls⟩ := List.forall_mem_cons.1 hls
    obtain ⟨hquiet, hret⟩ := Stmt.quiet_codes hl.stmts t₁
    obtain ⟨hrest, hrets⟩ := ih hls
    have hcode : c.code = Stmt.codeOf t₁ l.stmts := congrArg LineCode.code hc.code
    rw [← hcode] at hquiet hret
    exact ⟨List.forall_mem_cons.2 ⟨hquiet, hrest⟩, congrArg₂ List.cons hret hrets⟩

/-! ## Rows -/

/-- The row of a fragment starts like it. -/
theorem noAlarm_row? {frags : List Fragment} (h : ∀ f ∈ frags, Text.NoAlarm f.text) (extra : Int) :
    ∀ r ∈ frags.filterMap (Fragment.row? extra), Text.NoAlarm r.text := by
  intro r hr
  obtain ⟨f, hf, hrow⟩ := List.mem_filterMap.1 hr
  unfold Fragment.row? at hrow
  split at hrow
  · cases hrow
  · cases hrow
    exact h f hf

theorem noAlarm_letText {vs : List Variable} {text : String} (h : letText vs = some text) : Text.NoAlarm text := by
  unfold letText at h
  split at h
  · cases h
  · cases h
    simp [Text.NoAlarm]

/-- **The rows of a part**: a header and a brace, declarations, and the lines. -/
theorem Part.noAlarm_rows (vars : List Variable) (async : List String) (all : List Subroutine) {frags : List Fragment}
    (h : ∀ f ∈ frags, Text.NoAlarm f.text) (q : Part) : ∀ r ∈ q.rows vars async all frags, Text.NoAlarm r.text := by
  have hstretch : ∀ start stop extra, ∀ r ∈ (stretch frags start stop).filterMap (Fragment.row? extra),
      Text.NoAlarm r.text := fun start stop extra =>
    noAlarm_row? (fun f hf => h f (mem_stretch hf)) extra
  cases q with
  | main first stop => exact hstretch first stop 0
  | function s =>
    have hheader : ∀ isAsync, Text.NoAlarm (s.header isAsync) := by
      intro isAsync
      cases isAsync <;> simp [Subroutine.header, Text.NoAlarm]
    unfold Part.rows Subroutine.function
    simp only [List.forall_mem_append, List.forall_mem_cons]
    refine ⟨⟨⟨hheader _, ?_⟩, hstretch _ _ 1⟩, by decide, by simp⟩
    intro r hr
    obtain ⟨text, htext, rfl⟩ := List.mem_map.1 hr
    exact noAlarm_letText (Option.mem_toList.1 htext)

theorem Row.noAlarm_written {r : Row} (h : Text.NoAlarm r.text) : Text.NoAlarm r.written := by
  have htabs : Text.NoAlarm (String.ofList (List.replicate r.indent.toNat '\t')) := by
    unfold Text.NoAlarm
    rw [String.toList_ofList]
    cases r.indent.toNat with
    | zero => simp
    | succ n => simp [List.replicate_succ]
  exact (htabs.append h).append (by decide)

/-! ## References -/

/-- The text of a reference is not empty and starts with a word or a sign. -/
theorem Reference.noAlarm_text (r : Reference) (f : Functions) (selector : String) :
    Text.NoAlarm (r.text f selector) ∧ r.text f selector ≠ "" := by
  have hname : ∀ label, Text.NoAlarm (f.name label) ∧ f.name label ≠ "" := by
    intro label
    unfold Functions.name
    split
    · exact ⟨by simp [Text.NoAlarm], by simp⟩
    · exact ⟨by decide, by decide⟩
  have hbare : Text.NoAlarm (r.bareText f selector) ∧ r.bareText f selector ≠ "" := by
    cases r with
    | call label =>
      dsimp only [Reference.bareText]
      split
      · exact ⟨by simp [Text.NoAlarm], by simp⟩
      · exact ⟨by simp [Text.NoAlarm], by simp⟩
    | select labels => exact ⟨by simp [Reference.bareText, Text.NoAlarm], by simp [Reference.bareText]⟩
    | schedule label => exact hname label
  unfold Reference.text
  split
  · exact ⟨Text.NoAlarm.append (by decide) hbare.1, by simp⟩
  · rw [String.empty_append]
    exact hbare

/-- **Replacing marks** keeps a text from starting like a message, if the texts that replace them do not. -/
theorem FilledChars.noAlarm {ref : Nat → String} {n : Nat} {a b : String} (h : FilledChars ref a.toList b.toList)
    (hmarked : Marked n a) (ha : Text.NoAlarm a) (href : ∀ i < n, Text.NoAlarm (ref i) ∧ ref i ≠ "") :
    Text.NoAlarm b := by
  obtain ⟨ns, hmarked, hns⟩ := hmarked
  unfold Js.HasMarks at hmarked
  unfold Text.NoAlarm at ha ⊢
  generalize a.toList = cs at h hmarked ha
  generalize b.toList = out at h
  cases hmarked with
  | nil => simp [h.nil_inv]
  | char hc _ =>
    obtain ⟨rest, rfl, -⟩ := h.cons_inv hc
    exact ha
  | @mark i cs ns _ =>
    -- the text of the reference comes first, and there is one
    obtain ⟨rest, rfl, -⟩ := h.mark_inv
    obtain ⟨hquiet, hne⟩ := href i (hns i (by simp))
    have hfirst := hquiet.before hne (String.ofList rest)
    unfold Text.NoAlarm at hfirst
    rwa [String.toList_append, String.toList_ofList] at hfirst

/-! ## Programs -/

namespace Stages

variable {p : Program} {text : String}

/-- Every row starts with a name, a word or a sign. -/
theorem noAlarm_rows (o : Stages p text) (hp : p.Proper) : ∀ r ∈ o.rows, Text.NoAlarm r.text := by
  have hfrags : ∀ f ∈ o.codes.map LineCode.fragment, Text.NoAlarm f.text := by
    intro f hf
    obtain ⟨c, hc, rfl⟩ := List.mem_map.1 hf
    obtain ⟨t, hrun, -⟩ := o.lines_eq
    exact Js.noAlarm_lineText ((((Emit.lines_compiles 0 p.lines p.start).of_ok hrun).quiet hp.line).1 c hc)
  have hlength : (o.codes.map LineCode.fragment).length = p.lines.length := by
    rw [List.length_map, (o.finished hp).placed.length_eq]
  have hrows := Option.some.inj
    (o.rows_eq.symm.trans (bodyRows_eq o.tables.vars o.async o.tables.subroutines (hlength ▸ o.inTurn hp)))
  intro r hr
  rw [hrows] at hr
  obtain ⟨q, -, hq⟩ := List.mem_flatMap.1 hr
  exact q.noAlarm_rows _ _ _ hfrags r hq

/-- **No program starts like a message of failure.** -/
theorem noAlarm (o : Stages p text) (hp : p.Proper) : Text.NoAlarm text := by
  have h := o.finished hp
  have hglobal : Text.NoAlarm o.tables.globalText := by
    unfold Tables.globalText
    split
    · rename_i line hline
      exact (noAlarm_letText hline).append (by decide)
    · decide
  have hdata : Text.NoAlarm o.tables.dataText := by
    unfold Tables.dataText
    split
    · simp [Text.NoAlarm]
    · decide
  have hrows : Text.NoAlarm o.rowText := by
    refine .join fun s hs => ?_
    obtain ⟨r, hr, rfl⟩ := List.mem_map.1 hs
    exact Row.noAlarm_written (o.noAlarm_rows hp r hr)
  have hhelper : Text.NoAlarm o.tables.helperText := by
    unfold Tables.helperText
    split
    · decide
    · simp [Text.NoAlarm]
  have hmarked : Text.NoAlarm o.marked := by
    rw [o.marked_eq_around]
    unfold Tables.around
    dsimp only
    split
    · decide
    · exact ((hglobal.append hdata).append hrows).append hhelper
  have hmarks : Marked o.tables.callSites.length o.marked := by
    obtain ⟨marked, hsome, hmarks⟩ := Tables.markedText?_spec h.noMarks.vars h.noMarks.data h.fits_fragments
      (h.inside hp) (h.apart hp).lines o.async
    obtain rfl : marked = o.marked := Option.some.inj (hsome.symm.trans o.marked_eq)
    exact hmarks
  refine o.filled.noAlarm hmarks hmarked fun i hi => ?_
  obtain ⟨r, hshape⟩ := h.hasShape _ (List.getElem_mem hi)
  unfold siteText
  rw [List.getElem?_eq_getElem hi, Option.map_some, Option.getD_some, CallSite.text_eq hshape]
  exact r.noAlarm_text _ _

/-- **Every program ends with a line feed.** -/
theorem endsWithFeed (o : Stages p text) (hp : p.Proper) : ∃ front, text = front ++ "\n" := by
  obtain ⟨body, hbody, htext⟩ := o.exists_body hp
  have hrows : Text.Whole body := by
    have hwhole := FilledChars.whole (whole_rows o.rows) hbody
    rwa [String.ofList_toList] at hwhole
  have hhelper : Text.Whole o.tables.helperText := by
    have hlines : ∀ names : List String, Text.Whole (String.join (names.map fun n => Js.helperDefinition n ++ "\n")) := by
      intro names
      induction names with
      | nil => exact .inl rfl
      | cons n names ih =>
        rw [List.map_cons, String.join_cons]
        exact Text.Whole.append (.inr ⟨_, rfl⟩) ih
    unfold Tables.helperText
    split
    · exact .inl rfl
    · exact Text.Whole.append (.inr ⟨"", rfl⟩) (hlines _)
  have hwhole := ((o.tables.whole_globalText.append o.tables.whole_dataText).append hrows).append hhelper
  rw [htext]
  unfold Tables.around
  dsimp only
  split
  · exact ⟨"", rfl⟩
  · rename_i hne
    exact hwhole.resolve_left hne

end Stages

end Locomotive
