import Locomotive.Proofs.Emit.Change
import Locomotive.Proofs.Emit.Expr
import Locomotive.Proofs.Stmt.Word

/-!
# What code is composed of

The code of a statement is composed of the words of the statement, of quoted texts and of fixed
words. What it shows are the comments and the unsupported statements of the source, in
order. The references that are added to the tables are composed of the words of the statement as well.

This holds of all statements, also of those that are never read from a source text.

* `Expr.words_code`: the words of the code of an expression.
* `Composed`, `Stmt.composed_code`: what the code of statements is composed of.
* `Stmt.spelled_sites`: the references that are added.
-/

namespace Locomotive

open Js (Alphabet)
open Text (Within AllWithin)
open Emit

variable {P : Char → Prop} {μ : Mode}

/-! ## Code of expressions -/

namespace Builtin

open Js.Expr (words wordsOf)

variable {f : Builtin} {xs : List Js.Expr}

theorem plain_direct {object name : String} (h : f.direct? = some (object, name)) :
    Within Js.Plain object ∧ Within Js.Plain name := by
  cases f <;> cases h <;> decide

theorem plain_helper {name : String} (h : f.helper? = some name) : Within Js.Plain name := by
  cases f <;> cases h <;> decide

/-- **A call of a built-in function** is composed of its arguments and of fixed words. -/
theorem words_code (A : Alphabet P) (deg : Bool) (h : AllWithin P (wordsOf xs)) : AllWithin P (f.code deg xs).words := by
  unfold code
  split
  case h_1 | h_2 | h_3 => simp (disch := decide) [words, wordsOf, math, A.word]
  case h_16 =>
    split
    · rename_i hdirect
      obtain ⟨hobject, hname⟩ := plain_direct hdirect
      simp [words, h, A.word hobject, A.word hname]
    · rename_i hhelper
      simp [words, h, A.word (plain_helper hhelper)]
    · exact h
  all_goals
    simp only [wordsOf, List.append_nil, Text.allWithin_append] at h
    cases deg <;> simp (disch := decide) [words, wordsOf, math, receiver, before, angleCode, A.word, h]

end Builtin

theorem BinaryOp.words_code (A : Alphabet P) (op : BinaryOp) {x y : Js.Expr} (hx : AllWithin P x.words)
    (hy : AllWithin P y.words) : AllWithin P (op.code x y).words := by
  cases op <;> simp (disch := decide) [code, math, operation, compared, comparison?, direct?, Js.Expr.words,
    Js.Expr.wordsOf, hx, hy, A.word]

theorem UnaryOp.words_code (op : UnaryOp) (e : Expr) (x : Js.Expr) : (op.code e x).words = x.words := by
  cases op <;> simp [code, Js.Expr.words, Js.Expr.wordsOf]

namespace Expr

open Js.Expr (words wordsOf)

theorem wordsOf_map {es : List Expr} (h : ∀ e ∈ es, AllWithin P (e.code μ).words) :
    AllWithin P (wordsOf (es.map (code μ))) := by
  induction es with
  | nil => exact Text.allWithin_nil
  | cons e es ih =>
    obtain ⟨he, hes⟩ := List.forall_mem_cons.1 h
    exact Text.allWithin_append.2 ⟨he, ih hes⟩

/-- **The code of an expression** is composed of its words. -/
theorem words_code (A : Alphabet P) {e : Expr} (h : e.Spelled P) : AllWithin P (e.code μ).words := by
  induction e using Expr.induct with
  | number radix text line => simpa [code, words] using A.numberLiteral radix (h _ .self)
  | string value => simpa [code, words] using A.quote value
  | var name => simpa [code, words] using A.identifier (h _ .self)
  | index name is ih =>
    rw [code_index]
    exact Text.allWithin_cons.2 ⟨A.identifier (h _ .self), wordsOf_map fun e he => ih e he (h.child he)⟩
  | paren e ih =>
    rw [code, Js.Expr.words_atLeast]
    exact ih (h.child (by simp [children]))
  | unary op e ih =>
    rw [code, op.words_code]
    exact ih (h.child (by simp [children]))
  | binary op l r hl hr => exact op.words_code A (hl (h.child (by simp [children]))) (hr (h.child (by simp [children])))
  | call f args ih =>
    rw [code_call]
    refine Builtin.words_code A _ (wordsOf_map fun e he => ?_)
    exact ih e (List.mem_of_mem_take he) (h.child (List.mem_of_mem_take he))
  | fn name args ih =>
    have hcall : AllWithin P (Js.Expr.call (Js.identifier name) (args.map (code μ))).words :=
      Text.allWithin_cons.2 ⟨A.identifier (h _ .self), wordsOf_map fun e he => ih e he (h.child he)⟩
    rw [code_fn]
    split <;> exact hcall
  | missing => simpa [code, words] using A.word (show Text.Within Js.Plain "" by decide)

theorem words_conditionCode (A : Alphabet P) {e : Expr} (h : e.Spelled P) : AllWithin P (e.conditionCode μ).words := by
  rw [of_conditionCode words (fun _ _ _ => rfl) (fun x rank => x.words_atLeast rank) e]
  exact words_code A h

/-- The text of the code has no marks, so it is of the class. -/
theorem within_text (A : Alphabet P) {e : Expr} (h : e.Spelled P) : Text.Within P (compared (e.code μ)).text :=
  Js.Expr.text_of (.within A.plain) (by rw [compared, Js.Expr.words_atLeast]; exact words_code A h) (by simp [compared])

end Expr

/-! ## Code of statements -/

/-- **What the code of statements is composed of**: words of the class, and the given comments and
remarks. -/
structure Composed (P : Char → Prop) (comments notes : List String) (code : List Js.Stmt) : Prop where
  words : AllWithin P (Js.Stmt.wordsOf code)
  comments : Js.Stmt.commentsOf code = comments
  notes : Js.Stmt.notesOf code = notes

namespace Emit

/-- What is shown of a comment. -/
def shownComment (text : String) : String := Js.stripMarks (Text.trim text)

/-- The comments of the code of statements. -/
def shownComments (ss : List Stmt) : List String := (Stmt.gatherOf Stmt.remark? ss).map shownComment

/-- The remarks of the code of statements. -/
def shownNotes (ss : List Stmt) : List String := (Stmt.gatherOf Stmt.unsupported? ss).map Js.unsupportedNote

end Emit

/-- The labels and the selector of a reference are of the class. -/
structure CallSite.Spelled (P : Char → Prop) (s : CallSite) : Prop where
  selector : Within P s.selector
  labels : AllWithin P s.labels

namespace Stmt

open Js.Stmt (wordsOf commentsOf notesOf)

theorem words_list {code : List Js.Stmt} (h : ∀ s ∈ code, AllWithin P s.words) : AllWithin P (wordsOf code) := by
  induction code with
  | nil => exact Text.allWithin_nil
  | cons s ss ih =>
    obtain ⟨hs, hss⟩ := List.forall_mem_cons.1 h
    exact Text.allWithin_append.2 ⟨hs, ih hss⟩

theorem plain_command {c : Command} {name : String} (h : c.helper? = some name) : Within Js.Plain name := by
  cases c <;> cases h <;> decide

theorem words_print (A : Alphabet P) {items : List PrintItem} (h : Spell P (items.flatMap PrintItem.exprs)) :
    AllWithin P (Js.Expr.wordsOf (items.flatMap (PrintItem.code μ))) := by
  induction items with
  | nil => exact Text.allWithin_nil
  | cons i is ih =>
    simp only [Spell, List.flatMap_cons, List.forall_mem_append] at h
    obtain ⟨hi, his⟩ := h
    rw [List.flatMap_cons, Js.Expr.wordsOf_append, Text.allWithin_append]
    refine ⟨?_, ih his⟩
    have hone : ∀ e ∈ i.exprs, AllWithin P (e.code μ).words := fun e he => Expr.words_code A (hi e he)
    cases i <;> simp [PrintItem.exprs] at hone <;>
      simp (disch := decide) [PrintItem.code, Js.Expr.wordsOf, Js.Expr.words, A.word, hone]

theorem words_simple (A : Alphabet P) {s : Stmt} (hs : s.isBranch = false) (h : s.Spelled P)
    (t : Tables) : ∀ c ∈ s.code t, AllWithin P c.words := by
  have hone : ∀ {e : Expr}, e.Spelled P → AllWithin P (e.code t.mode).words := Expr.words_code A
  have hall : ∀ es : List Expr, Spell P es → AllWithin P (Js.Expr.wordsOf (es.map (Expr.code t.mode))) :=
    fun _ hes => Expr.wordsOf_map fun e he => hone (hes e he)
  have hcall : ∀ {name : String} {xs : List Js.Expr}, Within Js.Plain name → AllWithin P (Js.Expr.wordsOf xs) →
      AllWithin P (Js.Expr.call name xs).words := fun hn hxs => Text.allWithin_cons.2 ⟨A.word hn, hxs⟩
  cases s with
  | branch => cases hs
  | assign place value =>
    have hplace := hone (h place (by simp))
    have hvalue := hone (h value (by simp))
    rw [code]
    split <;> simp (disch := decide) [Js.Stmt.words, math, Js.Expr.words, Js.Expr.wordsOf, hplace, hvalue, A.word]
  | print stream items =>
    refine List.forall_mem_singleton.2 (hcall (by cases t.tag <;> decide) ?_)
    rw [Js.Expr.wordsOf_append, Text.allWithin_append]
    refine ⟨words_print A h, ?_⟩
    unfold newline
    split <;> simp (disch := decide) [Js.Expr.wordsOf, Js.Expr.words, A.word]
  | write _ args => exact List.forall_mem_singleton.2 (hcall (by decide) (hall _ h))
  | command c args =>
    show ∀ x ∈ c.code _, AllWithin P x.words
    unfold Command.code
    split
    -- a command without code of its own calls its helper
    case h_6 =>
      split
      · rename_i hname
        exact List.forall_mem_singleton.2 (hcall (plain_command hname) (hall _ h))
      · simp
    all_goals simp (disch := decide) [Js.Stmt.words, Js.Expr.words, Js.Expr.wordsOf, A.word]
  | graphics name x y pen => exact List.forall_mem_singleton.2 (Text.allWithin_cons.2 ⟨A.lowered h.1, hall _ h.2⟩)
  | forLoop var start stop stride =>
    have hstart := hone (h.2 start (by simp))
    have hstop := hone (h.2 stop (by simp))
    have hstep : AllWithin P (((stepCode t.mode stride).amount?.map Js.Expr.words).getD []) := by
      unfold stepCode
      split
      · simp [Js.Step.amount?]
      · rename_i radix text line
        simpa [Js.Step.amount?, Expr.code, UnaryOp.code, Js.Expr.words] using
          hone (h.2 (.unary .neg (.number radix text line)) (by simp))
      · rename_i e _
        have he := hone (h.2 e (by simp))
        split <;> exact he
    simpa [code, Js.Stmt.words, compared, hstart, hstop, hstep] using A.identifier h.1
  | whileLoop cond => exact List.forall_mem_singleton.2 (Expr.words_conditionCode A h)
  | onGosub selector labels => simp [code, Js.Stmt.words, Js.Expr.words]
  | read targets =>
    refine List.forall_mem_map.2 fun e he => Text.allWithin_append.2 ⟨hone (h e he), hcall (by decide) ?_⟩
    exact Text.allWithin_nil
  | restore label =>
    refine List.forall_mem_singleton.2 (hcall (by decide) ?_)
    cases label with
    | none => exact Text.allWithin_nil
    | some l => simpa [Js.Expr.wordsOf, Js.Expr.words] using h l rfl
  | dim arrays =>
    refine List.forall_mem_map.2 fun e he => ?_
    have he := h e he
    cases e with
    | index name sizes =>
      have hsizes := hall sizes fun c hc => he.child hc
      have hname := A.identifier (he _ .self)
      simp only [dimCode]
      split <;> simp (disch := decide) [Js.Stmt.words, Js.Expr.words, Js.Expr.wordsOf, A.word, hname, hsizes]
    | _ => exact Text.allWithin_nil
  | erase names =>
    refine List.forall_mem_map.2 (List.forall_mem_map.2 fun a ha => ?_)
    simpa [Js.Stmt.words, Js.Expr.words, Js.Expr.wordsOf] using A.identifier (h a ha)
  | defFn name params body =>
    have hparams : AllWithin P (params.map Js.identifier) := List.forall_mem_map.2 fun p hp => A.identifier (h.2.1 p hp)
    simpa [code, Js.Stmt.words, hparams, hone h.2.2] using A.identifier h.1
  | input prompt question targets =>
    have hinput : ∀ (text : String), ∀ e ∈ targets, AllWithin P (inputCode t.mode text e).words := by
      intro text e he
      simp only [inputCode]
      split <;> simp (disch := decide) [Js.Stmt.words, Js.Expr.words, Js.Expr.wordsOf, A.word, A.quote, hone (h e he)]
    rw [code]
    cases targets with
    | nil => simp [inputCodes]
    | cons e es =>
      exact List.forall_mem_cons.2 ⟨hinput _ e (by simp), List.forall_mem_map.2 fun c hc => hinput _ c (by simp [hc])⟩
  | timer name interval which label =>
    have hinterval := hone (h.2.1 interval (by simp))
    cases which with
    | none => simpa (disch := decide) [code, Js.Stmt.words, Js.Expr.words, Js.Expr.wordsOf, A.word, hinterval] using A.lowered h.1
    | some e =>
      have he := hone (h.2.1 e (by simp))
      simpa [code, Js.Stmt.words, Js.Expr.words, Js.Expr.wordsOf, hinterval, he] using A.lowered h.1
  | rsx name args =>
    have hsome : ∀ keep : RsxArg → Bool, AllWithin P (Js.Expr.wordsOf ((args.filter keep).map fun a => a.expr.code t.mode)) := by
      intro keep
      have hargs := hall ((args.filter keep).map RsxArg.expr) fun e he => by
        obtain ⟨a, ha, rfl⟩ := List.mem_map.1 he
        exact h _ (List.mem_map_of_mem (List.mem_filter.1 ha).1)
      rwa [List.map_map] at hargs
    simp only [code, rsxCode]
    split <;> simp (disch := decide) [Js.Stmt.words, Js.Expr.words, Js.Expr.wordsOf, A.word, A.quote, hsome]
  | _ => simp [code, Js.Stmt.words, Js.Expr.words]

theorem words_code (A : Alphabet P) {ss : List Stmt} (h : AllSpelled P ss) : ∀ t, AllWithin P (wordsOf (codeOf t ss)) := by
  induction ss using Stmt.induct with
  | nil => exact fun t => Text.allWithin_nil
  | cons s ss hs hss =>
    intro t
    have hs := hs ⟨h.1, trivial⟩ t
    rw [codeOf_one] at hs
    rw [codeOf, Js.Stmt.wordsOf_append, Text.allWithin_append]
    exact ⟨hs, hss h.2 _⟩
  | branch cond yes no hyes hno =>
    intro t
    obtain ⟨t₁, t₂, -, -, -, heq⟩ := branch_eq t cond yes no
    have hcond := Expr.words_conditionCode (μ := t.mode) A h.1.1
    have hyes := hyes h.1.2.1 t₁
    rw [heq]
    cases no with
    | none => simp [Js.Stmt.wordsOf, Js.Stmt.words, Js.Stmt.wordsOfElse, hcond, hyes]
    | some ss =>
      have hno : AllWithin P (wordsOf (codeOf t₂ ss)) := hno h.1.2.2 t₂
      simp [Js.Stmt.wordsOf, Js.Stmt.words, Js.Stmt.wordsOfElse, hcond, hyes, hno]
  | simple s hs =>
    intro t
    rw [codeOf_one]
    exact words_list (words_simple A hs h.1 t)

/-- Comments and unsupported statements apart, no statement is shown. -/
theorem hidden_code {s : Stmt} (hs : s.isBranch = false) (hr : s.remark? = none)
    (hu : s.unsupported? = none) (t : Tables) : ∀ c ∈ s.code t, c.comments = [] ∧ c.notes = [] := by
  cases s with
  | branch => cases hs
  | comment text => cases hr
  | unsupported _ text _ => cases hu
  | command c args =>
    show ∀ x ∈ c.code _, _
    unfold Command.code
    repeat' split
    all_goals simp [Js.Stmt.comments, Js.Stmt.notes]
  | dim arrays =>
    refine List.forall_mem_map.2 fun e _ => ?_
    cases e <;> exact ⟨rfl, rfl⟩
  | input prompt question targets => cases targets <;> simp [code, inputCodes, inputCode, Js.Stmt.comments, Js.Stmt.notes]
  | rsx name args => simp only [code, rsxCode]; split <;> simp [Js.Stmt.comments, Js.Stmt.notes]
  | _ => simp [code, Js.Stmt.comments, Js.Stmt.notes]

theorem shown_code (ss : List Stmt) : ∀ t, commentsOf (codeOf t ss) = shownComments ss ∧
    notesOf (codeOf t ss) = shownNotes ss := by
  have hnil : ∀ {code : List Js.Stmt}, (∀ c ∈ code, c.comments = [] ∧ c.notes = []) →
      commentsOf code = [] ∧ notesOf code = [] := by
    intro code h
    induction code with
    | nil => exact ⟨rfl, rfl⟩
    | cons c cs ih =>
      obtain ⟨⟨hc, hn⟩, hcs⟩ := List.forall_mem_cons.1 h
      rw [commentsOf, notesOf, hc, hn]
      exact ih hcs
  induction ss using Stmt.induct with
  | nil => exact fun t => ⟨rfl, rfl⟩
  | cons s ss hs hss =>
    intro t
    obtain ⟨hc, hn⟩ := hs t
    obtain ⟨hcs, hns⟩ := hss (t.perform (s.deeds t))
    rw [codeOf_one] at hc hn
    rw [codeOf, Js.Stmt.commentsOf_append, Js.Stmt.notesOf_append, hc, hn, hcs, hns]
    simp [shownComments, shownNotes, gatherOf]
  | branch cond yes no hyes hno =>
    intro t
    obtain ⟨t₁, t₂, -, -, -, heq⟩ := branch_eq t cond yes no
    obtain ⟨hcy, hny⟩ := hyes t₁
    obtain ⟨hcn, hnn⟩ := hno t₂
    rw [heq]
    cases no with
    | none =>
      simp [commentsOf, Js.Stmt.comments, Js.Stmt.commentsOfElse, notesOf, Js.Stmt.notes, Js.Stmt.notesOfElse, hcy, hny,
        shownComments, shownNotes, gatherOf, gather, gatherElse]
    | some ss =>
      simp only [Option.getD_some] at hcn hnn
      simp [commentsOf, Js.Stmt.comments, Js.Stmt.commentsOfElse, notesOf, Js.Stmt.notes, Js.Stmt.notesOfElse, hcy, hny,
        hcn, hnn, shownComments, shownNotes, gatherOf, gather, gatherElse]
  | simple s hs =>
    intro t
    have hgather : ∀ pick : Stmt → Option String, gatherOf pick [s] = (pick s).toList := by
      intro pick
      cases s with
      | branch => cases hs
      | _ => simp [gatherOf, gather]
    rw [codeOf_one, shownComments, shownNotes, hgather, hgather]
    cases s with
    | comment text => simp [code, commentsOf, Js.Stmt.comments, notesOf, Js.Stmt.notes, remark?, unsupported?, shownComment]
    | unsupported _ text _ => simp [code, commentsOf, Js.Stmt.comments, notesOf, Js.Stmt.notes, remark?, unsupported?]
    | _ => exact hnil (hidden_code hs rfl rfl t)

/-- **The code of statements** is composed of their words, and shows their comments. -/
theorem composed_code (A : Alphabet P) {ss : List Stmt} (h : AllSpelled P ss) (t : Tables) :
    Composed P (shownComments ss) (shownNotes ss) (codeOf t ss) :=
  ⟨words_code A h t, (shown_code ss t).1, (shown_code ss t).2⟩

/-- **The references of statements** are composed of their words. -/
theorem spelled_sites (A : Alphabet P) {ss : List Stmt} (h : AllSpelled P ss) (line number : Int) (t : Tables) :
    ∀ s ∈ (deedsOf t ss).filterMap (Deed.site? line number), s.Spelled P := by
  have hempty : Within P "" := A.word (by decide)
  have hdeeds : ∀ d ∈ deedsOf t ss, ∀ s ∈ d.site? line number, s.Spelled P := by
    refine forall_deeds (fun _ _ h => by cases h) (fun _ _ h => ⟨⟨h.1, trivial⟩, h.2⟩) ?_ ?_ ss h t
    · exact fun cond yes no h => ⟨fun _ _ _ _ hs => (by cases hs), h.1.2.1, allSpelled_getD h.1.2.2⟩
    · refine fun s t _ h => ⟨fun _ _ _ hs => (by cases hs), ?_⟩
      cases s with
      | next vars => exact fun d hd _ hs => by rw [List.eq_of_mem_replicate hd] at hs; cases hs
      | command c args => cases c <;> simp [acts, Deed.site?]
      | gosub label => simpa [acts, Deed.site?] using ⟨hempty, List.forall_mem_singleton.2 h.1⟩
      | onGosub selector labels => simpa [acts, Deed.site?] using ⟨Expr.within_text A h.1.1, h.1.2⟩
      | timer name interval which label =>
        simpa [acts, Deed.site?] using ⟨hempty, List.forall_mem_singleton.2 h.1.2.2⟩
      | _ => simp [acts, Deed.site?]
  intro s hs
  obtain ⟨d, hd, hsite⟩ := List.mem_filterMap.1 hs
  exact hdeeds d hd s hsite

end Stmt

end Locomotive
