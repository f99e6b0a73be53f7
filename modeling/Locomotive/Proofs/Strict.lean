import Locomotive.Proofs.Stmt.Reads

/-!
# Strict reading

Strict reading refuses a statement without a counterpart where it stands, and a line without a
label or with a label that does not ascend where the line ends. What is left is what the reading
that is not strict makes of the same tokens: it reads the same program, and refuses nothing else.

* `Parse.Narrows`: one reading gives what the other gives, where that has a property.
* `Program.Strict`: the strict rules, said of a program.
* `Program.parse_strict_iff`: strict reading is reading together with the strict rules.
-/

namespace Locomotive

namespace Stmt

/-- The statement has a counterpart, and so has every one in its branches. -/
def Supported (s : Stmt) : Prop := s.gather unsupported? = []

/-- The same for the statements of a list. -/
def AllSupported (ss : List Stmt) : Prop := gatherOf unsupported? ss = []

theorem allSupported_nil : AllSupported [] := rfl

theorem allSupported_cons {s : Stmt} {ss : List Stmt} :
    AllSupported (s :: ss) ↔ s.Supported ∧ AllSupported ss := List.append_eq_nil_iff

theorem allSupported_singleton {s : Stmt} : AllSupported [s] ↔ s.Supported := by
  rw [allSupported_cons]
  exact and_iff_left allSupported_nil

theorem supported_branch {c : Expr} {yes : List Stmt} {no : Option (List Stmt)} :
    (branch c yes no).Supported ↔ AllSupported yes ∧ ∀ ss ∈ no, AllSupported ss := by
  rw [Supported, gather, List.append_eq_nil_iff]
  cases no with
  | none => simp [AllSupported, gatherElse]
  | some ss => simp [AllSupported, gatherElse]

/-- An `ELSE` without statements is left out, and nothing is missed by that. -/
theorem supported_branch_else {c : Expr} {yes no : List Stmt} (h : AllSupported yes) :
    (branch c yes (if no.isEmpty then none else some no)).Supported ↔ AllSupported no := by
  rw [supported_branch, and_iff_right h]
  cases no with
  | nil => simp [allSupported_nil]
  | cons s ss => simp

end Stmt

/-- The value of the label of a line. -/
def Line.value? (l : Line) : Option Int := l.label.bind Text.integer?

namespace Parse

/-! ## Two readings -/

/-- **The first reading narrows the second**: it gives the same where that has the property, and
otherwise fails. -/
inductive Narrows {α : Type} (V : α → Prop) : Except Failure α → Except Failure α → Prop
  | same {a : α} : V a → Narrows V (.ok a) (.ok a)
  | refused {a : α} (e : Failure) : ¬ V a → Narrows V (.error e) (.ok a)
  | failed (e e' : Failure) : Narrows V (.error e) (.error e')

namespace Narrows

variable {α β : Type} {V : α → Prop} {o o' : Except Failure α}

theorem ok_iff (h : Narrows V o o') (a : α) : o = .ok a ↔ o' = .ok a ∧ V a := by
  cases h with
  | same hv =>
    constructor
    · rintro ⟨⟩
      exact ⟨rfl, hv⟩
    · rintro ⟨⟨⟩, -⟩
      rfl
  | refused e hv =>
    constructor
    · rintro ⟨⟩
    · rintro ⟨⟨⟩, hv'⟩
      exact absurd hv' hv
  | failed e e' =>
    constructor
    · rintro ⟨⟩
    · rintro ⟨⟨⟩, -⟩

theorem of_iff (h : ∀ a, o = .ok a ↔ o' = .ok a ∧ V a) : Narrows V o o' := by
  rcases o with e | a
  · rcases o' with e' | a'
    · exact .failed e e'
    · exact .refused e fun hv => by cases (h a').2 ⟨rfl, hv⟩
  · obtain ⟨rfl, hv⟩ := (h a).1 rfl
    exact .same hv

theorem map {W : β → Prop} {f : α → β} (h : Narrows V o o') (hf : ∀ a, W (f a) ↔ V a) :
    Narrows W (o.map f) (o'.map f) := by
  cases h with
  | same hv => exact .same ((hf _).2 hv)
  | refused e hv => exact .refused e (mt (hf _).1 hv)
  | failed e e' => exact .failed e e'

end Narrows

/-! ## Statements -/

variable {source : List Char}

theorem not_supported_of_unsupported {s : Setting} {start : Token} {keyword : String} {stop : Int} {ts rest : List Token}
    {st : Stmt} (h : (unsupported s start keyword stop ts).read = .ok (st, rest)) : ¬ st.Supported := by
  obtain ⟨⟨text, rfl⟩, -⟩ := of_unsupported h
  rintro ⟨⟩

/-- A statement without a counterpart is refused where it stands. -/
theorem simple_strict_iff {t : Token} {ts : List Token} {q : Parsed Stmt ts} :
    simple ⟨true, source⟩ t ts = .ok q ↔ simple ⟨false, source⟩ t ts = .ok q ∧ q.value.Supported := by
  rw [← read_eq_ok_iff, ← read_eq_ok_iff]
  -- but for statements without a counterpart, both settings give the same
  have hsame : ∀ {o : Reply Stmt}, (∀ s, (simple s t ts).read = o) → (∀ st rest, o = .ok (st, rest) → st.Supported) →
      ((simple ⟨true, source⟩ t ts).read = .ok (q.value, q.rest) ↔
        (simple ⟨false, source⟩ t ts).read = .ok (q.value, q.rest) ∧ q.value.Supported) := by
    intro o hstmt hvalue
    rw [hstmt, hstmt]
    exact (and_iff_left_of_imp (hvalue _ _)).symm
  cases start_of_simple t ts with
  | unsupported keyword used rest last _ _ _ _ hstmt =>
    rw [hstmt, hstmt]
    refine iff_of_false (fun h => ?_) fun h => not_supported_of_unsupported h.1 h.2
    obtain ⟨q', hq', -⟩ := exists_of_read h
    cases lax_of_unsupported hq'
  | data _ hstmt =>
    refine hsame (fun s => by rw [hstmt]) fun st rest h => ?_
    obtain ⟨-, items, hdata⟩ := (of_data h).1
    rw [hdata]
    rfl
  | comment _ hstmt =>
    refine hsame hstmt ?_
    rintro _ _ ⟨⟩
    rfl
  | plain o hstmt ho => exact hsame hstmt fun st rest h => (ho.of_ok h).1.noLack

/-- **Strict reading of statements** lets those through that have a counterpart. -/
theorem reads_strict_iff {phase : Phase} {ts rest : List Token} {ss : List Stmt} :
    Reads ⟨true, source⟩ phase ts ss rest ↔ Reads ⟨false, source⟩ phase ts ss rest ∧ Stmt.AllSupported ss := by
  constructor
  · intro h
    induction h with
    | nil b => exact ⟨.nil b, rfl⟩
    | stop hend => exact ⟨.stop hend, rfl⟩
    | colon hcolon _ ih => exact ⟨.colon hcolon ih.1, ih.2⟩
    | simple ht hif hq hend _ ih =>
      obtain ⟨hq, hst⟩ := simple_strict_iff.1 hq
      exact ⟨.simple ht hif hq hend ih.1, Stmt.allSupported_cons.2 ⟨hst, ih.2⟩⟩
    | branch ht hif hc _ hnone _ ihyes ih =>
      refine ⟨.branch ht hif hc ihyes.1 hnone ih.1, Stmt.allSupported_cons.2 ⟨?_, ih.2⟩⟩
      exact Stmt.supported_branch.2 ⟨ihyes.2, by simp⟩
    | branchElse ht hif hc _ hkw _ _ ihyes ihno ih =>
      refine ⟨.branchElse ht hif hc ihyes.1 hkw ihno.1 ih.1, Stmt.allSupported_cons.2 ⟨?_, ih.2⟩⟩
      exact (Stmt.supported_branch_else ihyes.2).2 ihno.2
    | afterThen hkw _ ih => exact ⟨.afterThen hkw ih.1, ih.2⟩
    | goto _ hq => cases lax_of_unsupported hq
    | jump _ hq => cases lax_of_unsupported hq
    | body hnum _ ih => exact ⟨.body hnum ih.1, ih.2⟩
  · rintro ⟨h, hss⟩
    induction h with
    | nil b => exact .nil b
    | stop hend => exact .stop hend
    | colon hcolon _ ih => exact .colon hcolon (ih hss)
    | simple ht hif hq hend _ ih =>
      obtain ⟨hst, hss⟩ := Stmt.allSupported_cons.1 hss
      exact .simple ht hif (simple_strict_iff.2 ⟨hq, hst⟩) hend (ih hss)
    | branch ht hif hc _ hnone _ ihyes ih =>
      obtain ⟨hst, hss⟩ := Stmt.allSupported_cons.1 hss
      exact .branch ht hif hc (ihyes (Stmt.supported_branch.1 hst).1) hnone (ih hss)
    | branchElse ht hif hc _ hkw _ _ ihyes ihno ih =>
      obtain ⟨hst, hss⟩ := Stmt.allSupported_cons.1 hss
      have hyes := (Stmt.supported_branch.1 hst).1
      exact .branchElse ht hif hc (ihyes hyes) hkw (ihno ((Stmt.supported_branch_else hyes).1 hst)) (ih hss)
    | afterThen hkw _ ih => exact .afterThen hkw (ih hss)
    | goto _ hq | jump _ hq =>
      exact absurd (Stmt.allSupported_singleton.1 hss) (not_supported_of_unsupported (read_eq_ok hq))
    | body hnum _ ih => exact .body hnum (ih hss)

/-! ## Lines -/

/-- The label of a line has a value. -/
theorem lineLabel_value {seen : List Line} {t : Token} {ts : List Token} {label : Option String}
    (h : lineLabel seen t ts = .ok label) : ∀ l ∈ label, ∃ v, Text.integer? l = some v := by
  rcases lineLabel_eq_ok_iff.1 h with ⟨-, rfl⟩ | ⟨-, l, hl, rfl, -⟩
  · simp
  · rintro _ ⟨⟩
    obtain ⟨v, -, hv⟩ := integer?_label hl
    exact ⟨v, hv⟩

/-- The strict rules for lines after a label with the value `last`. -/
def StrictFrom (last : Int) : List Line → Prop
  | [] => True
  | l :: ls => ∃ v, l.value? = some v ∧ last < v ∧ Stmt.AllSupported l.stmts ∧ StrictFrom v ls

/-- What strict reading finds wrong with a line that is read. -/
theorem strictComplaint?_eq_none_iff {last : Int} {line : Line} (h : ∀ l ∈ line.label, ∃ v, Text.integer? l = some v) :
    strictComplaint? last line = none ↔ ∃ v, line.value? = some v ∧ last < v := by
  unfold strictComplaint? Line.value?
  cases hl : line.label with
  | none => simp
  | some l =>
    obtain ⟨v, hv⟩ := h l hl
    simp [labelValue, hv]

/-- The value that the next label has to exceed. -/
theorem getD_labelValue {line : Line} {v : Int} (h : line.value? = some v) (last : Int) :
    (line.label.map labelValue).getD last = v := by
  unfold Line.value? at h
  cases hl : line.label with
  | none =>
    rw [hl] at h
    cases h
  | some l =>
    have hvalue : Text.integer? l = some v := by
      rw [hl] at h
      exact h
    rw [Option.map_some, Option.getD_some, labelValue, hvalue, Option.getD_some]

/-- The rules for the lines, said of all of them at once. -/
theorem strictFrom_iff {last : Int} {ls : List Line} :
    StrictFrom last ls ↔ (∀ l ∈ ls, ∃ v, l.value? = some v) ∧ (last :: ls.filterMap Line.value?).Pairwise (· < ·) ∧
      ∀ l ∈ ls, Stmt.AllSupported l.stmts := by
  induction ls generalizing last with
  | nil => simp [StrictFrom]
  | cons l ls ih =>
    constructor
    · rintro ⟨v, hv, hlast, hstmts, hls⟩
      obtain ⟨hlabels, hascend, hall⟩ := ih.1 hls
      rw [List.filterMap_cons_some hv]
      refine ⟨List.forall_mem_cons.2 ⟨⟨v, hv⟩, hlabels⟩, ?_, List.forall_mem_cons.2 ⟨hstmts, hall⟩⟩
      refine List.pairwise_cons.2 ⟨List.forall_mem_cons.2 ⟨hlast, fun w hw => ?_⟩, hascend⟩
      exact Int.lt_trans hlast (List.rel_of_pairwise_cons hascend hw)
    · rintro ⟨hlabels, hascend, hall⟩
      obtain ⟨⟨v, hv⟩, hlabels⟩ := List.forall_mem_cons.1 hlabels
      obtain ⟨hstmts, hall⟩ := List.forall_mem_cons.1 hall
      rw [List.filterMap_cons_some hv] at hascend
      have hlast := List.rel_of_pairwise_cons hascend List.mem_cons_self
      exact ⟨v, hv, hlast, hstmts, ih.2 ⟨hlabels, hascend.tail, hall⟩⟩

/-- **Lines that are read** can be read in another setting and behind other lines, if their statements can, if their
labels are new there, and if they keep the strict rules where these hold. -/
theorem ReadsLines.transfer {s s' : Setting} {seen seen' : List Line} {last last' : Int} {ts : List Token}
    {ls : List Line} (h : ReadsLines s seen last ts ls)
    (hstmts : ∀ l ∈ ls, ∀ ts rest, Reads s (.stmts false) ts l.stmts rest → Reads s' (.stmts false) ts l.stmts rest)
    (hseen : ∀ l ∈ labelsOf ls, l ∈ labelsOf seen' → l ∈ labelsOf seen) (hstrict : s'.strict = true → StrictFrom last' ls) :
    ReadsLines s' seen' last' ts ls := by
  induction h generalizing seen' last' with
  | nil => exact .nil
  | stop ht => exact .stop ht
  | skip ht _ ih => exact .skip ht (ih hstmts hseen hstrict)
  | @line seen last t r mid label ss ls ht hlabel hss _ _ ih =>
    obtain ⟨hline, hstmts⟩ := List.forall_mem_cons.1 hstmts
    rw [labelsOf_cons, List.forall_mem_append] at hseen
    have hlabel' : lineLabel seen' t r = .ok label := by
      refine lineLabel_eq_ok_iff.2 ((lineLabel_eq_ok_iff.1 hlabel).imp_right ?_)
      rintro ⟨hk, l, hl, rfl, hnew⟩
      exact ⟨hk, l, hl, rfl, mt (hseen.1 l (by simp)) hnew⟩
    refine .line ht hlabel' (hline _ _ hss) (fun hs => ?_) (ih hstmts (fun l hl => ?_) fun hs => ?_)
    · obtain ⟨v, hv, hlast, -⟩ := hstrict hs
      exact (strictComplaint?_eq_none_iff (lineLabel_value hlabel)).2 ⟨v, hv, hlast⟩
    · rw [labelsOf_snoc, labelsOf_snoc, List.mem_append, List.mem_append]
      exact Or.imp_left (hseen.2 l hl)
    · obtain ⟨v, hv, -, -, hls⟩ := hstrict hs
      rwa [getD_labelValue hv]

theorem ReadsLines.strictFrom {seen : List Line} {last : Int} {ts : List Token} {ls : List Line}
    (h : ReadsLines ⟨true, source⟩ seen last ts ls) : StrictFrom last ls := by
  induction h with
  | nil | stop => trivial
  | skip _ _ ih => exact ih
  | line _ hlabel hss hstrict _ ih =>
    obtain ⟨v, hv, hlast⟩ := (strictComplaint?_eq_none_iff (lineLabel_value hlabel)).1 (hstrict rfl)
    rw [getD_labelValue hv] at ih
    exact ⟨v, hv, hlast, (reads_strict_iff.1 hss).2, ih⟩

/-- **The lines** from a place on. -/
theorem lines_narrows (source : List Char) (seen : List Line) (last : Int) (ts : List Token) :
    Narrows (StrictFrom last) (lines ⟨true, source⟩ seen last ts) (lines ⟨false, source⟩ seen last ts) := by
  refine .of_iff fun ls => ?_
  rw [lines_eq_ok_iff, lines_eq_ok_iff]
  constructor
  · intro h
    refine ⟨h.transfer (fun _ _ _ _ h => (reads_strict_iff.1 h).1) (fun _ _ => id) ?_, h.strictFrom⟩
    rintro ⟨⟩
  · rintro ⟨h, hls⟩
    have hsupported := (strictFrom_iff.1 hls).2.2
    exact h.transfer (fun l hl _ _ h => reads_strict_iff.2 ⟨h, hsupported l hl⟩) (fun _ _ => id) fun _ => hls

end Parse

/-! ## Programs -/

namespace Program

/-- **The strict rules** of a program: every line has a label with a value, the values ascend from
zero or above, and no statement without a counterpart occurs, in whatever branch. -/
structure Strict (p : Program) : Prop where
  labelled : ∀ l ∈ p.lines, ∃ v, l.value? = some v
  nonneg : ∀ v ∈ (p.lines.filterMap Line.value?).head?, 0 ≤ v
  ascending : (p.lines.filterMap Line.value?).Pairwise (· < ·)
  supported : ∀ l ∈ p.lines, Stmt.AllSupported l.stmts

theorem strict_iff_from {p : Program} : p.Strict ↔ Parse.StrictFrom (-1) p.lines := by
  rw [Parse.strictFrom_iff, List.pairwise_cons]
  constructor
  · rintro ⟨hlabels, hfirst, hascend, hall⟩
    refine ⟨hlabels, ⟨fun v hv => ?_, hascend⟩, hall⟩
    -- the first value is the least
    cases hvs : p.lines.filterMap Line.value? with
    | nil =>
      rw [hvs] at hv
      cases hv
    | cons w ws =>
      rw [hvs] at hv hfirst hascend
      have hw : 0 ≤ w := hfirst w rfl
      rcases List.mem_cons.1 hv with rfl | hv
      · omega
      · have := List.rel_of_pairwise_cons hascend hv
        omega
  · rintro ⟨hlabels, ⟨hlast, hascend⟩, hall⟩
    refine ⟨hlabels, fun v hv => ?_, hascend, hall⟩
    have := hlast v (List.mem_of_mem_head? hv)
    omega

/-- **Strict reading** gives a program exactly if the reading that is not strict gives the same
program and this one keeps the strict rules, for any tokens and any source. -/
theorem parse_strict_iff (tokens : List Token) (source : List Char) (p : Program) :
    parse true tokens source = .ok p ↔ parse false tokens source = .ok p ∧ p.Strict := by
  have hlines := Parse.lines_narrows (Source.normalize source) [] (-1) tokens
  have hprogram : Parse.Narrows Program.Strict (parse true tokens source) (parse false tokens source) :=
    hlines.map fun ls => strict_iff_from
  exact hprogram.ok_iff p

end Program

end Locomotive
