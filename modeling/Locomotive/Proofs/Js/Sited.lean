import Locomotive.Proofs.Js.Marked

/-!
# The order of the marks

A mark stands in generated code where a reference to a subroutine is a statement of its own or
the last argument of an awaited call, and nowhere else. So each mark is written once, in the order
of the references, although the text of a loop repeats some of its parts.

* `HasMarks`: the marks of a text, in order.
* `hasMarks_lineText`: those of a line are the references of its code.
-/

namespace Locomotive.Js

/-! ## Marks of texts -/

/-- The marks of the texts of a list, in order. -/
inductive AllMarks : List String → List Nat → Prop
  | nil : AllMarks [] []
  | cons {s : String} {ss : List String} {ns ms : List Nat} :
    HasMarks s ns → AllMarks ss ms → AllMarks (s :: ss) (ns ++ ms)

namespace AllMarks

variable {ss ss' : List String} {ns ns' : List Nat}

theorem of_unmarked (h : ∀ s ∈ ss, Unmarked s) : AllMarks ss [] := by
  induction ss with
  | nil => exact .nil
  | cons s ss ih =>
    obtain ⟨hs, hss⟩ := List.forall_mem_cons.1 h
    exact .cons hs.hasMarks (ih hss)

theorem append (h : AllMarks ss ns) (h' : AllMarks ss' ns') : AllMarks (ss ++ ss') (ns ++ ns') := by
  induction h with
  | nil => exact h'
  | cons hs _ ih =>
    rw [List.append_assoc]
    exact .cons hs ih

/-- Each text is changed without changing its marks. -/
theorem map {f : String → String} (hf : ∀ s ms, HasMarks s ms → HasMarks (f s) ms) (h : AllMarks ss ns) :
    AllMarks (ss.map f) ns := by
  induction h with
  | nil => exact .nil
  | cons hs _ ih => exact .cons (hf _ _ hs) ih

theorem join (h : AllMarks ss ns) : HasMarks (String.join ss) ns := by
  unfold HasMarks
  rw [String.toList_join]
  induction h with
  | nil => exact .nil
  | cons hs _ ih =>
    rw [List.flatMap_cons]
    exact MarkChars.append hs ih

theorem intercalate {sep : String} (hsep : Unmarked sep) (h : AllMarks ss ns) : HasMarks (sep.intercalate ss) ns := by
  unfold HasMarks
  rw [String.toList_intercalate]
  induction h with
  | nil => exact .nil
  | @cons s ss ns ms hs hss ih =>
    cases hss with
    | nil => simpa [List.intercalate] using show MarkChars s.toList ns from hs
    | @cons s' ss' ns' ms' hs' hss' =>
      rw [List.map_cons, List.map_cons, List.intercalate_cons_cons]
      have hfront := MarkChars.append hs (MarkChars.of_clean hsep)
      rw [List.append_nil] at hfront
      exact hfront.append ih

end AllMarks

/-! ## Expressions -/

namespace Expr

/-- **Where marks may stand** in an expression: it is a reference, or an awaited call with one as
its last argument, or it has none. -/
inductive Sited : Expr → Prop
  | plain {e : Expr} : e.refs = [] → Sited e
  | site (i : Nat) : Sited (site i)
  | selected (i : Nat) {s : Expr} : s.refs = [] → Sited (selected i s)
  | scheduled (f : String) {xs : List Expr} (i : Nat) : refsOf xs = [] → Sited (unary .await (call f (xs ++ [Expr.site i])))

theorem refsOf_append (xs ys : List Expr) : refsOf (xs ++ ys) = refsOf xs ++ refsOf ys := by
  induction xs with
  | nil => rfl
  | cons x xs ih => rw [List.cons_append, refsOf, refsOf, ih, List.append_assoc]

theorem texts_append (xs ys : List Expr) : texts (xs ++ ys) = texts xs ++ texts ys := by
  induction xs with
  | nil => rfl
  | cons x xs ih => rw [List.cons_append, texts, texts, ih, List.cons_append]

/-- The text of an expression without references. -/
theorem unmarked_text {e : Expr} (hr : e.refs = []) (hw : ∀ w ∈ e.words, Unmarked w) : Unmarked e.text :=
  text_of unmarked_textClass hw (by simp [hr])

theorem Sited.hasMarks {e : Expr} (h : e.Sited) (hw : ∀ w ∈ e.words, Unmarked w) : HasMarks e.text e.refs := by
  cases h with
  | plain hr =>
    rw [hr]
    exact (unmarked_text hr hw).hasMarks
  | site i => exact .site i
  | selected i hr =>
    rw [refs, hr]
    exact .site i
  | @scheduled f xs i hr =>
    rw [words, words, wordsOf_append] at hw
    obtain ⟨hf, hwords⟩ := List.forall_mem_cons.1 hw
    have hxs : ∀ s ∈ texts xs, Unmarked s :=
      texts_of unmarked_textClass (fun w hw => hwords w (List.mem_append_left _ hw)) (by simp [hr])
    have hargs : AllMarks (texts (xs ++ [Expr.site i])) [i] := by
      rw [texts_append]
      exact (AllMarks.of_unmarked hxs).append (.cons (.site i) .nil)
    have hopen : Unmarked (UnaryOp.await.text ++ (f ++ "(")) := by
      simp only [unmarked_append]
      exact ⟨by decide, hf, by decide⟩
    have hcall := (hargs.intercalate (by decide : Unmarked ", ")).between hopen (by decide : Unmarked ")")
    have hrefs : (unary .await (call f (xs ++ [Expr.site i]))).refs = [i] := by
      rw [refs, refs, refsOf_append, hr]
      rfl
    rw [hrefs]
    simpa only [text, String.append_assoc] using hcall

end Expr

/-! ## Statements -/

namespace Stmt

mutual

/-- Where marks may stand in a statement. -/
def Sited : Stmt → Prop
  | expr e => e.Sited
  | branch c yes no => c.refs = [] ∧ AllSited yes ∧ ElseSited no
  | s => s.marks = []

/-- Where marks may stand in the statements of a list. -/
def AllSited : List Stmt → Prop
  | [] => True
  | s :: ss => s.Sited ∧ AllSited ss

/-- Where marks may stand in the statements of an `else`. -/
def ElseSited : Option (List Stmt) → Prop
  | none => True
  | some ss => AllSited ss

end

theorem allSited_append {ss ss' : List Stmt} : AllSited (ss ++ ss') ↔ AllSited ss ∧ AllSited ss' := by
  induction ss with
  | nil => simp [AllSited]
  | cons s ss ih => simp [AllSited, ih, and_assoc]

theorem hasMarks_joinParts {ps : List String} {ns : List Nat} (h : AllMarks ps ns) : HasMarks (joinParts ps) ns := by
  refine (h.map fun s ms hs => ?_).intercalate (by decide)
  split
  · exact hs
  · have := hs.append (Unmarked.hasMarks (by decide : Unmarked ";"))
    rwa [List.append_nil] at this

theorem hasMarks_block {ps : List String} {ns : List Nat} (h : AllMarks ps ns) : HasMarks (block ps) ns := by
  unfold block
  cases h with
  | nil => exact Unmarked.hasMarks (by decide)
  | cons hs hss => exact (hasMarks_joinParts (.cons hs hss)).between (by decide) (by decide)

/-- A statement that shows no marks. -/
theorem hasMarks_plain {s : Stmt} (hm : s.marks = []) (hw : ∀ w ∈ s.words, Unmarked w) (hn : ∀ t ∈ s.notes, Unmarked t) :
    HasMarks s.text [] := Unmarked.hasMarks (text_of unmarked_textClass hw (by simp [hm]) hn)

mutual

/-- **The marks of a statement's text** are its references. -/
theorem Sited.hasMarks : ∀ {s : Stmt}, s.Sited → (∀ w ∈ s.words, Unmarked w) → (∀ t ∈ s.notes, Unmarked t) →
    HasMarks s.text s.refs
  | expr e, h, hw, _ => Expr.Sited.hasMarks (e := e) h hw
  | branch c yes no, h, hw, hn => by
    rw [words, List.append_assoc] at hw
    obtain ⟨hwc, hw⟩ := List.forall_mem_append.1 hw
    obtain ⟨hwy, hwn⟩ := List.forall_mem_append.1 hw
    obtain ⟨hny, hnn⟩ := List.forall_mem_append.1 hn
    have hc := (Expr.unmarked_text h.1 hwc).hasMarks
    have hyes := hasMarks_block (AllSited.hasMarks_parts h.2.1 hwy hny)
    have hno := ElseSited.hasMarks h.2.2 hwn hnn
    have := ((hc.between (by decide : Unmarked "if (") (by decide : Unmarked ") ")).append hyes).append hno
    rw [refs, h.1]
    exact this
  | assign _ _, h, hw, hn => show HasMarks _ (marks _) from h.symm ▸ hasMarks_plain h hw hn
  | ret, h, hw, hn => hasMarks_plain h hw hn
  | retCall _, h, hw, hn => show HasMarks _ (marks _) from h.symm ▸ hasMarks_plain h hw hn
  | forLoop _ _ _ _, h, hw, hn => show HasMarks _ (marks _) from h.symm ▸ hasMarks_plain h hw hn
  | whileLoop _, h, hw, hn => show HasMarks _ (marks _) from h.symm ▸ hasMarks_plain h hw hn
  | close, h, hw, hn => hasMarks_plain h hw hn
  | arrow _ _ _ _, h, hw, hn => hasMarks_plain h hw hn
  | note _, h, hw, hn => hasMarks_plain h hw hn
  | comment _, h, hw, hn => hasMarks_plain h hw hn

theorem AllSited.hasMarks_parts : ∀ {ss : List Stmt}, AllSited ss → (∀ w ∈ wordsOf ss, Unmarked w) →
    (∀ t ∈ notesOf ss, Unmarked t) → AllMarks (parts ss) (refsOf ss)
  | [], _, _, _ => .nil
  | s :: ss, h, hw, hn => by
    obtain ⟨hws, hwss⟩ := List.forall_mem_append.1 hw
    obtain ⟨hns, hnss⟩ := List.forall_mem_append.1 hn
    have hs := Sited.hasMarks h.1 hws hns
    have hss := AllSited.hasMarks_parts h.2 hwss hnss
    unfold parts refsOf
    split
    · exact hss
    · exact .cons hs hss

theorem ElseSited.hasMarks : ∀ {no : Option (List Stmt)}, ElseSited no → (∀ w ∈ wordsOfElse no, Unmarked w) →
    (∀ t ∈ notesOfElse no, Unmarked t) → HasMarks (elsePart no) (refsOfElse no)
  | none, _, _, _ => Unmarked.hasMarks (show Unmarked "" by decide)
  | some _, h, hw, hn => (Unmarked.hasMarks (by decide)).append (hasMarks_block (AllSited.hasMarks_parts h hw hn))

end

end Stmt

/-- **The marks of a line's text** are the references of its code, each once and in order. -/
theorem hasMarks_lineText {ss : List Stmt} (h : Stmt.AllSited ss) (ht : Tidy ss) :
    HasMarks (lineText ss) (Stmt.refsOf ss) := by
  have hcode := Stmt.hasMarks_joinParts (Stmt.AllSited.hasMarks_parts h ht.words ht.notes)
  have hcomments : HasMarks (" // ".intercalate (Stmt.commentsOf ss)) [] :=
    (AllMarks.of_unmarked ht.comments).intercalate (by decide)
  unfold lineText
  dsimp only
  split
  · exact hcode
  · have hslashes := (Unmarked.hasMarks (by decide : Unmarked "// ")).append hcomments
    have hfront : HasMarks (if joinParts (Stmt.parts ss) = "" then "" else joinParts (Stmt.parts ss) ++ " ")
        (Stmt.refsOf ss) := by
      split
      · rename_i hempty
        rwa [hempty] at hcode
      · have := hcode.append (Unmarked.hasMarks (by decide : Unmarked " "))
        rwa [List.append_nil] at this
    have := hfront.append hslashes
    rw [List.append_nil, List.append_nil] at this
    rwa [String.append_assoc]

end Locomotive.Js
