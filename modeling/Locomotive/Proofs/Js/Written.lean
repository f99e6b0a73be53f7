import Locomotive.Proofs.Js.Call
import Locomotive.Proofs.Js.Sited
import Locomotive.Proofs.Js.Word

/-!
# Calls in the text

What code calls is written in its text: the name of the function with the opening parenthesis behind it.
Only the number that selects one of several subroutines is written elsewhere, in the text
that replaces the mark of the reference.

* `Expr.infix_call`: the calls of an expression without references.
* `Stmt.callShown_lineText`: the calls of a line.
-/

namespace Locomotive.Js

open Stmt (infix_append_left infix_append_right infix_intercalate)

/-- A call up to its arguments. -/
def callHead (f : String) : String := f ++ "("

theorem infix_join {s : String} {ss : List String} (h : s ∈ ss) : s.toList <:+: (String.join ss).toList := by
  obtain ⟨front, back, rfl⟩ := List.append_of_mem h
  rw [String.toList_join]
  exact ⟨front.flatMap String.toList, back.flatMap String.toList, by simp⟩

/-- One of two operands around a sign. -/
theorem infix_operands {a l op r : String} (h : a.toList <:+: l.toList ∨ a.toList <:+: r.toList) :
    a.toList <:+: (l ++ " " ++ op ++ " " ++ r).toList := by
  rcases h with h | h
  · exact infix_append_right (infix_append_right (infix_append_right (infix_append_right h)))
  · exact infix_append_left h

/-- One of the texts of a list, or what stands before it. -/
theorem infix_listed {a b c : String} {ss : List String}
    (h : a.toList <:+: b.toList ∨ ∃ t ∈ ss, a.toList <:+: t.toList) :
    a.toList <:+: (b ++ ", ".intercalate ss ++ c).toList := by
  refine infix_append_right ?_
  rcases h with h | ⟨t, ht, hstands⟩
  · exact infix_append_right h
  · exact infix_append_left (hstands.trans (infix_intercalate ht))

/-! ## Expressions -/

namespace Expr

mutual

/-- **The calls of an expression** without references stand in its text. -/
theorem infix_call {f : String} : ∀ {e : Expr}, e.refs = [] → f ∈ e.calls → (callHead f).toList <:+: e.text.toList
  | atom _, _, hf => by simp [calls] at hf
  | site _, h, _ => by cases h
  | selected _ _, h, _ => by cases h
  | element _ _, h, hf => by
    obtain ⟨t, ht, hstands⟩ := infix_callOf h hf
    rw [text]
    refine infix_append_left (List.IsInfix.trans ?_ (infix_join (bracketed_of_mem ht)))
    exact infix_append_right (infix_append_left hstands)
  | call g args, h, hf => by
    rw [text]
    exact infix_listed ((List.mem_cons.1 hf).imp (by rintro rfl; exact List.infix_refl _) (infix_callOf h))
  | method r name args, h, hf => by
    obtain ⟨hr, hargs⟩ := List.append_eq_nil_iff.1 h
    rw [text]
    refine infix_listed ((List.mem_append.1 hf).imp (fun hf => ?_) (infix_callOf hargs))
    exact infix_append_right (infix_append_right (infix_append_right (infix_call hr hf)))
  | property r name, h, hf => by
    rw [text]
    exact infix_append_right (infix_append_right (infix_call h hf))
  | unary op x, h, hf => by
    rw [text]
    exact infix_append_left (infix_call (e := x) h hf)
  | binary op l r, h, hf | compare op l r, h, hf => by
    obtain ⟨hl, hr⟩ := List.append_eq_nil_iff.1 h
    rw [text]
    exact infix_operands ((List.mem_append.1 hf).imp (infix_call hl) (infix_call hr))
  | truth op l r, h, hf => by
    obtain ⟨hl, hr⟩ := List.append_eq_nil_iff.1 h
    rw [text]
    refine infix_append_right (infix_operands ((List.mem_append.1 hf).imp (fun hf => ?_) (infix_call hr)))
    exact infix_append_left (infix_call hl hf)
  | paren x, h, hf => by
    rw [text]
    exact infix_append_right (infix_append_left (infix_call (e := x) h hf))
  | array xs, h, hf => by
    rw [text]
    exact infix_listed (.inr (infix_callOf (show refsOf xs = [] from h) hf))
  | directive kind args, h, hf => by
    rw [text]
    exact infix_listed (.inr (infix_callOf (show refsOf args = [] from h) hf))

theorem infix_callOf {f : String} : ∀ {es : List Expr}, refsOf es = [] → f ∈ callsOf es →
    ∃ t ∈ texts es, (callHead f).toList <:+: t.toList
  | [], _, hf => by simp [callsOf] at hf
  | e :: es, h, hf => by
    obtain ⟨he, hes⟩ := List.append_eq_nil_iff.1 h
    rw [callsOf, List.mem_append] at hf
    rcases hf with hf | hf
    · exact ⟨e.text, List.mem_cons_self, infix_call he hf⟩
    · obtain ⟨t, ht, hstands⟩ := infix_callOf hes hf
      exact ⟨t, List.mem_cons_of_mem _ ht, hstands⟩

/-- Indices are written between brackets. -/
theorem bracketed_of_mem {t : String} : ∀ {es : List Expr}, t ∈ texts es → "[" ++ t ++ "]" ∈ bracketed es
  | [], h => by simp [texts] at h
  | e :: es, h => by
    rw [texts, List.mem_cons] at h
    rw [bracketed]
    rcases h with rfl | h
    · exact List.mem_cons_self
    · exact List.mem_cons_of_mem _ (bracketed_of_mem h)

end

end Expr

/-! ## Statements -/

namespace Stmt

/-- **A call is written** in the text, or in the text of a number that selects one of several
subroutines, whose mark stands in the text. -/
def CallShown (f : String) (selections : List (Nat × Expr)) (text : String) : Prop :=
  (callHead f).toList <:+: text.toList ∨
    ∃ x ∈ selections, (siteMark x.1).toList <:+: text.toList ∧ (callHead f).toList <:+: x.2.text.toList

/-- A text around the text. -/
theorem CallShown.mono {f : String} {selections selections' : List (Nat × Expr)} {text text' : String}
    (h : CallShown f selections text) (hs : ∀ x ∈ selections, x ∈ selections')
    (ht : ∀ w : String, w.toList <:+: text.toList → w.toList <:+: text'.toList) : CallShown f selections' text' := by
  rcases h with h | ⟨x, hx, hmark, hcall⟩
  · exact .inl (ht _ h)
  · exact .inr ⟨x, hs x hx, ht _ hmark, hcall⟩

variable {f : String}

/-- An expression that stands alone may be a reference. -/
theorem callShown_expr {e : Expr} (h : e.Sited) (hf : f ∈ e.calls) :
    CallShown f (expr e).selections e.text := by
  cases h with
  | plain hrefs => exact .inl (Expr.infix_call hrefs hf)
  | site i => simp [Expr.calls] at hf
  | selected i hrefs =>
    refine .inr ⟨(i, _), List.mem_cons_self, List.infix_refl _, ?_⟩
    exact Expr.infix_call hrefs hf
  | @scheduled g xs i hrefs =>
    rw [Expr.calls, Expr.calls, Expr.callsOf_append, List.mem_cons, List.mem_append] at hf
    rw [Expr.text, Expr.text]
    refine .inl (infix_append_left (infix_listed ?_))
    rcases hf with rfl | hf | hf
    · exact .inl (List.infix_refl _)
    · obtain ⟨t, hmem, hstands⟩ := Expr.infix_callOf hrefs hf
      exact .inr ⟨t, Expr.texts_append _ _ ▸ List.mem_append_left _ hmem, hstands⟩
    · simp [Expr.callsOf, Expr.calls] at hf

/-- The calls of a counting loop stand in its bounds and its step. -/
theorem infix_forLoop_call {v : String} {start stop : Expr} {step : Step} (h : (forLoop v start stop step).refs = [])
    (hf : f ∈ (forLoop v start stop step).calls) :
    (callHead f).toList <:+: (forLoop v start stop step).text.toList := by
  obtain ⟨hbounds, hstep⟩ := List.append_eq_nil_iff.1 h
  obtain ⟨hstart, hstop⟩ := List.append_eq_nil_iff.1 hbounds
  rw [calls, List.mem_append, List.mem_append] at hf
  rw [text]
  rcases hf with (hf | hf) | hf
  · have hstands := infix_append_left (c := "for (" ++ v ++ " = ") (Expr.infix_call hstart hf)
    exact infix_append_right (infix_append_right (infix_append_right (infix_append_right (infix_append_right hstands))))
  · have hstands : (callHead f).toList <:+: (step.test v stop).toList := by
      have htext := Expr.infix_call hstop hf
      cases step with
      | one | up amount | down amount => exact infix_append_left htext
      | signed amount => exact infix_append_right (infix_append_left htext)
    exact infix_append_right (infix_append_right (infix_append_right (infix_append_left hstands)))
  · have hstands : (callHead f).toList <:+: (step.advance v).toList := by
      cases step with
      | one => simp [Step.calls] at hf
      | up amount | down amount | signed amount =>
        exact infix_append_left (Expr.infix_call (e := amount) hstep hf)
    exact infix_append_right (infix_append_left hstands)

mutual

/-- **The calls of a statement** are written in its text. -/
theorem callShown_text : ∀ {s : Stmt}, s.Sited → f ∈ s.calls → CallShown f s.selections s.text
  | expr e, h, hf => callShown_expr (e := e) h hf
  | branch c yes no, h, hf => by
    rw [calls, List.mem_append, List.mem_append] at hf
    rw [text, selections]
    rcases hf with hf | hf | hf
    · have hc := Expr.infix_call h.1 hf
      exact .inl (infix_append_right (infix_append_right (infix_append_right (infix_append_left hc))))
    · obtain ⟨p, hp, hshown⟩ := callShown_parts h.2.1 hf
      refine hshown.mono (fun x hx => List.mem_append_left _ hx) fun w hw => ?_
      exact infix_append_right (infix_append_left (hw.trans (infix_block hp)))
    · refine (callShown_elsePart h.2.2 hf).mono (fun x hx => List.mem_append_right _ hx) fun w hw => ?_
      exact infix_append_left hw
  | assign t v, h, hf => by
    have hnil := List.append_eq_nil_iff.1 (show t.refs ++ v.refs = [] from h)
    rw [calls, List.mem_append] at hf
    rw [text]
    rcases hf with hf | hf
    · exact .inl (infix_append_right (infix_append_right (Expr.infix_call hnil.1 hf)))
    · exact .inl (infix_append_left (Expr.infix_call hnil.2 hf))
  | retCall e, h, hf => .inl (infix_append_left (Expr.infix_call (e := e) h hf))
  | forLoop _ _ _ _, h, hf => .inl (infix_forLoop_call h hf)
  | whileLoop c, h, hf => .inl (infix_append_right (infix_append_left (Expr.infix_call (e := c) h hf)))
  | arrow _ _ _ body, h, hf => .inl (infix_append_left (Expr.infix_call (e := body) h hf))
  | ret, _, hf | close, _, hf | note _, _, hf | comment _, _, hf => by simp [calls] at hf

theorem callShown_parts : ∀ {ss : List Stmt}, AllSited ss → f ∈ callsOf ss →
    ∃ p ∈ parts ss, CallShown f (selectionsOf ss) p
  | [], _, hf => by simp [callsOf] at hf
  | s :: ss, h, hf => by
    rw [callsOf, List.mem_append] at hf
    unfold parts
    split
    · -- a comment calls nothing
      obtain ⟨p, hp, hshown⟩ := callShown_parts h.2 (by simpa [calls] using hf)
      exact ⟨p, hp, hshown.mono (fun x hx => List.mem_append_right _ hx) fun _ => id⟩
    · rcases hf with hf | hf
      · refine ⟨s.text, List.mem_cons_self, ?_⟩
        exact (callShown_text h.1 hf).mono (fun x hx => List.mem_append_left _ hx) fun _ => id
      · obtain ⟨p, hp, hshown⟩ := callShown_parts h.2 hf
        exact ⟨p, List.mem_cons_of_mem _ hp, hshown.mono (fun x hx => List.mem_append_right _ hx) fun _ => id⟩

theorem callShown_elsePart : ∀ {no : Option (List Stmt)}, ElseSited no → f ∈ callsOfElse no →
    CallShown f (selectionsOfElse no) (elsePart no)
  | none, _, hf => by simp [callsOfElse] at hf
  | some ss, h, hf => by
    obtain ⟨p, hp, hshown⟩ := callShown_parts (show AllSited ss from h) hf
    exact hshown.mono (fun _ => id) fun w hw => infix_append_left (hw.trans (infix_block hp))

end

/-- What stands in the code of a line stands in the line. -/
theorem infix_lineText {ss : List Stmt} {w : List Char} (hne : w ≠ []) (h : w <:+: (joinParts (parts ss)).toList) :
    w <:+: (lineText ss).toList := by
  unfold lineText
  dsimp only
  split
  · exact h
  · split
    · rename_i hempty
      rw [hempty] at h
      exact absurd (List.infix_nil.1 h) hne
    · have hcode : w <:+: (joinParts (parts ss) ++ " " ++ "// " ++ " // ".intercalate (commentsOf ss)).toList := by
        simp only [String.toList_append, List.append_assoc]
        exact h.trans (List.prefix_append ..).isInfix
      exact hcode

/-- **The calls of a line** are written in its text. -/
theorem callShown_lineText {ss : List Stmt} (h : AllSited ss) (hf : f ∈ callsOf ss) :
    CallShown f (selectionsOf ss) (lineText ss) := by
  obtain ⟨p, hp, hshown⟩ := callShown_parts h hf
  have hline : ∀ w : String, w.toList ≠ [] → w.toList <:+: p.toList →
      w.toList <:+: (lineText ss).toList := fun w hne hw =>
    infix_lineText hne (hw.trans (infix_joinParts hp))
  rcases hshown with hcall | ⟨x, hx, hmark, hcall⟩
  · exact .inl (hline _ (by simp [callHead]) hcall)
  · exact .inr ⟨x, hx, hline _ (by simp [siteMark]) hmark, hcall⟩

end Stmt

end Locomotive.Js
