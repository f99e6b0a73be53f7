import Locomotive.Proofs.Emit.Compose
import Locomotive.Proofs.Emit.Program

/-!
# The draft of a program

Whatever the lines of a program are, its text is made in the same stages: the code of the lines, the
text with marks, and the text in which the marks are replaced. `Draft` holds them, for
programs that need not come from a source text.

* `Emit.CompilesAll.composes`: the code of lines and the places of their labels.
* `Draft`, `Program.exists_draft`: every text that is generated has a draft.
* `Draft.spans`, `Draft.lined`: what holds of the labels and of the code.
-/

namespace Locomotive

open Js (Alphabet)

variable {P : Char → Prop}

/-- **The codes of lines** are composed of the words of their statements. -/
inductive ComposedLines (P : Char → Prop) : List Line → List LineCode → Prop
  | nil : ComposedLines P [] []
  | cons {l : Line} {ls : List Line} {c : LineCode} {cs : List LineCode} :
    Composed P (Emit.shownComments l.stmts) (Emit.shownNotes l.stmts) c.code → ComposedLines P ls cs →
    ComposedLines P (l :: ls) (c :: cs)

theorem ComposedLines.length_eq {ls : List Line} {cs : List LineCode} (h : ComposedLines P ls cs) :
    cs.length = ls.length := by
  induction h with
  | nil => rfl
  | cons _ _ ih => rw [List.length_cons, List.length_cons, ih]

/-- The line of a code. -/
theorem ComposedLines.get {ls : List Line} {cs : List LineCode} (h : ComposedLines P ls cs) {k : Nat} {c : LineCode}
    (hk : cs[k]? = some c) :
    ∃ l, ls[k]? = some l ∧ Composed P (Emit.shownComments l.stmts) (Emit.shownNotes l.stmts) c.code := by
  induction h generalizing k with
  | nil => simp at hk
  | @cons l ls c' cs hc _ ih =>
    cases k with
    | zero =>
      rw [List.getElem?_cons_zero, Option.some.injEq] at hk
      subst hk
      exact ⟨l, rfl, hc⟩
    | succ k => exact ih (by simpa using hk)

namespace Emit

/-- **The lines of any program** keep the labels in order, their codes are composed of their words, and their blocks are
nested. -/
theorem CompilesAll.composes (A : Alphabet P) {ls : List Line} {i : Nat} {t t' : Tables} {cs : List LineCode}
    (h : CompilesAll i ls t cs t') (hls : ∀ l ∈ ls, Stmt.AllSpelled P l.stmts) {n : Nat} (hn : t.indent = n)
    (hs : Spans t.isTarget i t.openSub t.spans) : Spans t'.isTarget (i + ls.length : Nat) t'.openSub t'.spans ∧
      (∃ new, t'.callSites = t.callSites ++ new ∧ ∀ s ∈ new, s.Spelled P) ∧ ComposedLines P ls cs ∧
      ∃ k : Nat, Stmt.depthOf? (ls.flatMap Line.stmts) n = some k ∧ t'.indent = k := by
  induction h generalizing n with
  | nil => exact ⟨hs, ⟨[], by simp, by simp⟩, .nil, n, rfl, hn⟩
  | @cons i l ls t t₁ t₂ t' t'' c cs _ hc _ ih =>
    obtain ⟨hl, hls⟩ := List.forall_mem_cons.1 hls
    obtain ⟨k, hk, hindent⟩ := hc.depth n hn
    obtain ⟨hspans, ⟨more, hmore, hspelled⟩, hcodes, k', hk', hindent'⟩ := ih hls (hc.indent_eq.trans hindent) (hc.spans hs)
    refine ⟨?_, ⟨_ ++ more, ?_, List.forall_mem_append.2 ⟨Stmt.spelled_sites A hl t₁.lineIndex t₁.lineNumber t₁, hspelled⟩⟩,
      .cons ?_ hcodes, k', ?_, hindent'⟩
    · rw [List.length_cons, Nat.add_comm ls.length, ← Nat.add_assoc]
      exact hspans
    · rw [hmore, hc.sites, List.append_assoc]
    · rw [hc.code]
      exact Stmt.composed_code A hl t₁
    · rw [List.flatMap_cons, Stmt.depthOf?_append, hk]
      exact hk'

/-! ## Resolving references -/

/-- The action adds nothing but warnings to the tables. -/
def Remarks {α : Type} (m : Emit α) : Prop := ∀ t, Ends m t (fun _ t' => ∃ ws, Complains ws t t') fun _ => True

namespace Remarks

variable {α β : Type}

theorem pure (a : α) : Remarks (pure a) := fun t => ⟨[], .refl t⟩

theorem broken (fault : Fault) : Remarks (broken fault : Emit α) := fun _ => trivial

theorem bind {m : Emit α} {f : α → Emit β} (h : Remarks m) (hf : ∀ a, Remarks (f a)) : Remarks (m >>= f) := by
  refine fun t => (h t).bind ?_
  rintro a t₁ ⟨ws, h₁⟩
  exact (hf a t₁).mono (fun _ _ ⟨ws', h₂⟩ => ⟨ws ++ ws', h₁.trans h₂⟩) fun _ => id

end Remarks

theorem reference_remarks (f : Functions) (s : CallSite) : Remarks (reference f s) := by
  have hname : ∀ label, Remarks (functionName f s.lineNumber label) := fun label t =>
    (functionName_ends s.lineNumber label).mono (fun _ _ h => ⟨_, h.2⟩) fun _ => False.elim
  have hnames : ∀ labels, Remarks (functionNames f s.lineNumber labels) := fun labels t =>
    (functionNames_ends s.lineNumber labels).mono (fun _ _ h => ⟨_, h.2⟩) fun _ => False.elim
  unfold reference
  split
  · split
    · exact .pure _
    · exact fun t => ⟨_, s.lineNumber, rfl⟩
  · exact (hnames _).bind fun _ => .pure _
  · exact hname _
  · exact .broken _
  · exact .broken _
  · exact .pure _

/-- Resolving references adds to the tables nothing but warnings. -/
theorem resolve_remarks (f : Functions) (text : String) : Remarks (resolve f text) := by
  have hmark : ∀ inside, Remarks (mark f inside) := by
    intro inside t
    rw [mark, ends_bind, ends_get]
    dsimp only
    repeat' split
    all_goals first | exact reference_remarks f _ t | trivial
  have hpiece : ∀ q, Remarks (piece f q) := by
    intro q
    cases q with
    | plain text => exact .pure _
    | mark inside => exact hmark inside
    | unclosed => exact .broken _
  have hpieces : ∀ qs, Remarks (piecesOf f qs) := by
    intro qs
    induction qs with
    | nil => exact .pure _
    | cons q qs ih =>
      rw [piecesOf]
      exact (hpiece q).bind fun _ => ih.bind fun _ => .pure _
  exact (hpieces _).bind fun _ => .pure _

end Emit

/-- **The lines of a program**, from the tables that they start with. -/
theorem Program.lines_compose (A : Alphabet P) {p : Program} (hp : ∀ l ∈ p.lines, Stmt.AllSpelled P l.stmts) :
    Emit.Ends (Emit.lines 0 p.lines) p.start (fun cs t => Spans t.isTarget p.lines.length t.openSub t.spans ∧
      (∀ s ∈ t.callSites, s.Spelled P) ∧ ComposedLines P p.lines cs ∧
      ∃ k : Nat, Stmt.depthOf? (p.lines.flatMap Line.stmts) 0 = some k ∧ t.indent = k) fun _ => True := by
  obtain ⟨gosubs, restores, hstart⟩ := p.start_eq
  have hspans : Spans p.start.isTarget (0 : Nat) p.start.openSub p.start.spans := by
    rw [hstart]
    exact .nil _ _
  have hindent : p.start.indent = (0 : Nat) := by
    rw [hstart]
    rfl
  refine (Emit.lines_compiles 0 p.lines p.start).mono ?_ fun _ => id
  intro cs t hcompiles
  obtain ⟨hspans, ⟨new, hnew, hspelled⟩, hcodes, hdepth⟩ := hcompiles.composes A hp hindent hspans
  rw [Nat.zero_add] at hspans
  have hsites : t.callSites = new := by rw [hnew, hstart]; rfl
  exact ⟨hspans, hsites.symm ▸ hspelled, hcodes, hdepth⟩

/-- What holds after the last line of a program. -/
theorem Program.lined {p : Program} {codes : List LineCode} {tables : Tables}
    (h : ∃ t, (Emit.lines 0 p.lines).apply p.start = (.ok codes, t) ∧ tables = t.finish) (A : Alphabet P)
    (hp : ∀ l ∈ p.lines, Stmt.AllSpelled P l.stmts) :
    Spans tables.isTarget p.lines.length tables.openSub tables.spans ∧
      (∀ s ∈ tables.callSites, s.Spelled P) ∧ ComposedLines P p.lines codes := by
  obtain ⟨t, hrun, htables⟩ := h
  obtain ⟨hspans, hspelled, hcodes, -⟩ := (Program.lines_compose A hp).of_ok hrun
  obtain ⟨restoreMap, warnings, lineNumber, hfinish, -⟩ := t.finish_eq
  rw [htables, hfinish]
  exact ⟨hspans, hspelled, hcodes⟩

/-! ## Drafts -/

/-- **The draft of a generated text**: what is made of the program on the way to the text, and the tables
after it. -/
structure Draft (p : Program) (text : String) (after : Tables) where
  /-- The code of each line. -/
  codes : List LineCode
  /-- The tables after the last line. -/
  tables : Tables
  /-- The labels of the asynchronous functions. -/
  async : List String
  /-- The text of the program with marks for the references. -/
  marked : String
  lines_eq : ∃ t, (Emit.lines 0 p.lines).apply p.start = (.ok codes, t) ∧ tables = t.finish
  closed : tables.indent = 0
  async_eq : tables.async? (codes.map LineCode.fragment) = some async
  marked_eq : tables.markedText? (codes.map LineCode.fragment) async = some marked
  resolved : (Emit.resolve (tables.functions async) marked).apply tables = (.ok text, after)

/-- **Every text that is generated has a draft.** -/
theorem Program.exists_draft {p : Program} {text : String} {after : Tables} (h : p.generate = (.ok text, after)) :
    Nonempty (Draft p text after) := by
  have hprogram : Emit.Ends (Emit.program p) {} (fun text after => Nonempty (Draft p text after)) fun _ => True := by
    rw [Emit.program, Emit.ends_bind, Emit.ends_update]
    refine (Emit.ends_self (Emit.lines 0 p.lines) p.start).bind fun codes t hrun => ?_
    rw [Emit.ends_bind, Emit.ends_update, Emit.ends_bind, Emit.ends_get]
    dsimp only
    split
    · trivial
    · rename_i hdepth
      have hclosed : t.finish.indent = 0 := by
        obtain ⟨restoreMap, new, lineNumber, hfinish, -⟩ := t.finish_eq
        rw [hfinish]
        exact Decidable.not_not.1 hdepth
      rw [Emit.ends_bind, Emit.ends_update, Emit.assemble, Emit.ends_bind, Emit.ends_get]
      split
      · trivial
      · rename_i async hasync
        split
        · trivial
        · rename_i marked hmarked
          refine (Emit.ends_self (Emit.resolve _ marked) _).mono (fun text after hresolved => ?_) fun _ => id
          exact ⟨codes, t.finish, async, marked, ⟨t, hrun, rfl⟩, hclosed, hasync, hmarked, hresolved⟩
  exact hprogram.of_ok h

namespace Draft

variable {p : Program} {text : String} {after : Tables}

theorem subroutines_eq (o : Draft p text after) : after.subroutines = o.tables.subroutines := by
  obtain ⟨ws, n, hafter⟩ := (Emit.resolve_remarks _ _ o.tables).of_ok o.resolved
  exact (congrArg Tables.subroutines hafter).trans rfl

/-- What holds after the last line. -/
theorem lined (o : Draft p text after) (A : Alphabet P) (hp : ∀ l ∈ p.lines, Stmt.AllSpelled P l.stmts) :
    Spans o.tables.isTarget p.lines.length o.tables.openSub o.tables.spans ∧
      (∀ s ∈ o.tables.callSites, s.Spelled P) ∧ ComposedLines P p.lines o.codes := Program.lined o.lines_eq A hp

/-- The labels of any program are in order. -/
theorem spans (o : Draft p text after) : Spans o.tables.isTarget p.lines.length o.tables.openSub o.tables.spans :=
  (o.lined Js.alphabet_all fun l _ => Stmt.allSpelled_all l.stmts).1

/-- **The blocks of any program** that is generated are nested. -/
theorem nested (o : Draft p text after) : p.Nested := by
  obtain ⟨t, hrun, htables⟩ := o.lines_eq
  have hlines := (Program.lines_compose Js.alphabet_all fun l _ => Stmt.allSpelled_all l.stmts).of_ok hrun
  obtain ⟨-, -, -, k, hk, hindent⟩ := hlines
  have hclosed := o.closed
  obtain ⟨restoreMap, new, lineNumber, hfinish, -⟩ := t.finish_eq
  rw [htables, hfinish] at hclosed
  have hzero : k = 0 := by
    have hcast : (k : Int) = 0 := hindent.symm.trans hclosed
    omega
  rw [Program.Nested, hk, hzero]

theorem length_codes (o : Draft p text after) : o.codes.length = p.lines.length :=
  (o.lined Js.alphabet_all fun l _ => Stmt.allSpelled_all l.stmts).2.2.length_eq

/-- The lines of a subroutine are lines of the program. -/
theorem among (o : Draft p text after) : ∀ s ∈ o.tables.subroutines, s.Among p.lines.length := by
  intro s hs
  have hspan := Finished.mem_spans hs
  exact ⟨(o.spans.first _ hspan).1, (o.spans.last _ hspan s.last rfl).1, (o.spans.last _ hspan s.last rfl).2⟩

/-- Each subroutine ends before the next one starts. -/
theorem apart (o : Draft p text after) : o.tables.subroutines.Pairwise fun a b => a.last < b.first :=
  o.spans.apart_subroutines

end Draft

end Locomotive
