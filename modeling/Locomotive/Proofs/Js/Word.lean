import Locomotive.Proofs.Js.Code

/-!
# The words of generated code

The text of generated code is put together from its words, which are names and literals, from fixed
signs between them, and from what it shows of the source in remarks and comments. So it
belongs to a class of texts, such as the texts in some characters, if the words and what is shown do.

* `TextClass`: a class of texts that is closed under putting texts together.
* `Expr.words`, `Stmt.words`, `Stmt.notes`: the words of code and its remarks.
* `lineText_of`: the text of a line.
* `infix_of_comment`, `infix_of_note`: what is shown stands in the line.
-/

namespace Locomotive

namespace Js

open Text (Within AllWithin within_append within_ofList)

/-! ## Classes of texts -/

/-- **A class of texts** has the plain ones, and with two texts also the one put together from them. -/
structure TextClass (Q : String → Prop) : Prop where
  plain : ∀ {s : String}, Within Plain s → Q s
  append : ∀ {a b : String}, Q a → Q b → Q (a ++ b)

namespace TextClass

variable {Q : String → Prop}

theorem within {P : Char → Prop} (hP : Covers P) : TextClass (Within P) :=
  ⟨fun h => h.mono hP, fun ha hb => within_append.2 ⟨ha, hb⟩⟩

theorem between (T : TextClass Q) {a b s : String} (ha : Within Plain a) (hs : Q s) (hb : Within Plain b) :
    Q (a ++ s ++ b) := T.append (T.append (T.plain ha) hs) (T.plain hb)

theorem join (T : TextClass Q) {ss : List String} (h : ∀ s ∈ ss, Q s) : Q (String.join ss) := by
  induction ss with
  | nil => exact T.plain (by decide)
  | cons s ss ih =>
    obtain ⟨hs, hss⟩ := List.forall_mem_cons.1 h
    rw [String.join_cons]
    exact T.append hs (ih hss)

theorem intercalate (T : TextClass Q) {sep : String} (hsep : Within Plain sep) {ss : List String}
    (h : ∀ s ∈ ss, Q s) : Q (sep.intercalate ss) := by
  induction ss with
  | nil =>
    rw [String.intercalate_nil]
    exact T.plain (by decide)
  | cons s ss ih =>
    obtain ⟨hs, hss⟩ := List.forall_mem_cons.1 h
    cases ss with
    | nil =>
      rw [String.intercalate_singleton]
      exact hs
    | cons s' ss =>
      rw [String.intercalate_cons_cons]
      exact T.append (T.append hs (T.plain hsep)) (ih hss)

end TextClass

/-! ## Expressions -/

namespace Expr

mutual

/-- The names and literals of an expression. The selector of a reference is not a part of the text. -/
def words : Expr → List String
  | atom t => [t]
  | site _ => []
  | selected _ _ => []
  | element a is => a :: wordsOf is
  | call f args => f :: wordsOf args
  | method r name args => r.words ++ name :: wordsOf args
  | property r name => r.words ++ [name]
  | unary _ x => x.words
  | binary _ l r => l.words ++ r.words
  | compare _ l r => l.words ++ r.words
  | truth _ l r => l.words ++ r.words
  | paren x => x.words
  | array xs => wordsOf xs
  | directive kind args => kind :: wordsOf args

/-- The names and literals of the members of a list. -/
def wordsOf : List Expr → List String
  | [] => []
  | e :: es => e.words ++ wordsOf es

end

@[simp] theorem words_atLeast (e : Expr) (rank : Nat) : (e.atLeast rank).words = e.words := by
  unfold atLeast
  split <;> rfl

@[simp] theorem wordsOf_append (xs ys : List Expr) : wordsOf (xs ++ ys) = wordsOf xs ++ wordsOf ys := by
  induction xs with
  | nil => rfl
  | cons x xs ih => rw [List.cons_append, wordsOf, wordsOf, ih, List.append_assoc]

section Text

variable {Q : String → Prop}

theorem plain_unaryText (op : UnaryOp) : Within Plain op.text := by cases op <;> decide

theorem plain_binaryText (op : BinaryOp) : Within Plain op.text := by cases op <;> decide

theorem plain_comparisonText (op : Comparison) : Within Plain op.text := by cases op <;> decide

/-- Two operands around a sign. -/
theorem text_operands (T : TextClass Q) {l op r : String} (hl : Q l) (ho : Within Plain op) (hr : Q r) :
    Q (l ++ " " ++ op ++ " " ++ r) :=
  T.append (T.append (T.append (T.append hl (T.plain (by decide))) (T.plain ho)) (T.plain (by decide))) hr

/-- A list of texts behind another. -/
theorem text_listed (T : TextClass Q) {a b : String} {ss : List String} (ha : Q a) (h : ∀ s ∈ ss, Q s)
    (hb : Within Plain b) : Q (a ++ ", ".intercalate ss ++ b) :=
  T.append (T.append ha (T.intercalate (by decide) h)) (T.plain hb)

mutual

/-- **The text of an expression** is of a class of texts if its words and its marks are. -/
theorem text_of (T : TextClass Q) : ∀ {e : Expr}, (∀ w ∈ e.words, Q w) → (∀ i ∈ e.refs, Q (siteMark i)) → Q e.text
  | atom t, h, _ => h t (by simp [words])
  | site i, _, hm => hm i (by simp [refs])
  | selected i _, _, hm => hm i (by simp [refs])
  | element a is, h, hm => by
    obtain ⟨ha, his⟩ := List.forall_mem_cons.1 h
    exact T.append ha (T.join (bracketed_of T his hm))
  | call f args, h, hm => by
    obtain ⟨hf, hargs⟩ := List.forall_mem_cons.1 h
    exact text_listed T (T.append hf (T.plain (by decide))) (texts_of T hargs hm) (by decide)
  | method r name args, h, hm => by
    obtain ⟨hr, hrest⟩ := List.forall_mem_append.1 h
    obtain ⟨hname, hargs⟩ := List.forall_mem_cons.1 hrest
    obtain ⟨hmr, hma⟩ := List.forall_mem_append.1 hm
    refine text_listed T ?_ (texts_of T hargs hma) (by decide)
    exact T.append (T.append (T.append (text_of T hr hmr) (T.plain (by decide))) hname) (T.plain (by decide))
  | property r name, h, hm => by
    obtain ⟨hr, hname⟩ := List.forall_mem_append.1 h
    exact T.append (T.append (text_of T hr hm) (T.plain (by decide))) (hname name (by simp))
  | unary op x, h, hm => T.append (T.plain (plain_unaryText op)) (text_of T (e := x) h hm)
  | binary op l r, h, hm => by
    obtain ⟨hl, hr⟩ := List.forall_mem_append.1 h
    obtain ⟨hml, hmr⟩ := List.forall_mem_append.1 hm
    exact text_operands T (text_of T hl hml) (plain_binaryText op) (text_of T hr hmr)
  | compare op l r, h, hm => by
    obtain ⟨hl, hr⟩ := List.forall_mem_append.1 h
    obtain ⟨hml, hmr⟩ := List.forall_mem_append.1 hm
    exact text_operands T (text_of T hl hml) (plain_comparisonText op) (text_of T hr hmr)
  | truth op l r, h, hm => by
    obtain ⟨hl, hr⟩ := List.forall_mem_append.1 h
    obtain ⟨hml, hmr⟩ := List.forall_mem_append.1 hm
    have hopen : Q ("(" ++ l.text) := T.append (T.plain (by decide)) (text_of T hl hml)
    exact T.append (text_operands T hopen (plain_comparisonText op) (text_of T hr hmr)) (T.plain (by decide))
  | paren x, h, hm => T.between (by decide) (text_of T (e := x) h hm) (by decide)
  | array xs, h, hm =>
    text_listed T (T.plain (by decide)) (texts_of T (show ∀ w ∈ wordsOf xs, Q w from h) hm) (by decide)
  | directive kind args, h, hm => by
    obtain ⟨hkind, hargs⟩ := List.forall_mem_cons.1 h
    exact text_listed T (T.between (by decide) hkind (by decide)) (texts_of T hargs hm) (by decide)

theorem texts_of (T : TextClass Q) : ∀ {es : List Expr}, (∀ w ∈ wordsOf es, Q w) →
    (∀ i ∈ refsOf es, Q (siteMark i)) → ∀ s ∈ texts es, Q s
  | [], _, _ => by simp [texts]
  | e :: es, h, hm => by
    obtain ⟨he, hes⟩ := List.forall_mem_append.1 h
    obtain ⟨hme, hmes⟩ := List.forall_mem_append.1 hm
    exact List.forall_mem_cons.2 ⟨text_of T he hme, texts_of T hes hmes⟩

theorem bracketed_of (T : TextClass Q) : ∀ {es : List Expr}, (∀ w ∈ wordsOf es, Q w) →
    (∀ i ∈ refsOf es, Q (siteMark i)) → ∀ s ∈ bracketed es, Q s
  | [], _, _ => by simp [bracketed]
  | e :: es, h, hm => by
    obtain ⟨he, hes⟩ := List.forall_mem_append.1 h
    obtain ⟨hme, hmes⟩ := List.forall_mem_append.1 hm
    exact List.forall_mem_cons.2 ⟨T.between (by decide) (text_of T he hme) (by decide), bracketed_of T hes hmes⟩

end

end Text

end Expr

/-! ## Statements -/

namespace Stmt

mutual

/-- The names and literals of a statement. -/
def words : Stmt → List String
  | expr e => e.words
  | assign t v => t.words ++ v.words
  | ret => []
  | retCall e => e.words
  | forLoop v start stop step => v :: start.words ++ stop.words ++ (step.amount?.map Expr.words).getD []
  | whileLoop c => c.words
  | close => []
  | branch c yes no => c.words ++ wordsOf yes ++ wordsOfElse no
  | arrow name _ params body => name :: params ++ body.words
  | note _ => []
  | comment _ => []

/-- The names and literals of the statements of a list. -/
def wordsOf : List Stmt → List String
  | [] => []
  | s :: ss => s.words ++ wordsOf ss

/-- The names and literals of an `else`. -/
def wordsOfElse : Option (List Stmt) → List String
  | none => []
  | some ss => wordsOf ss

end

mutual

/-- The remarks of a statement, in order. -/
def notes : Stmt → List String
  | note t => [t]
  | branch _ yes no => notesOf yes ++ notesOfElse no
  | _ => []

/-- The remarks of a list of statements, in order. -/
def notesOf : List Stmt → List String
  | [] => []
  | s :: ss => s.notes ++ notesOf ss

/-- The remarks of an `else`, in order. -/
def notesOfElse : Option (List Stmt) → List String
  | none => []
  | some ss => notesOf ss

end

mutual

/-- The numbers of the references that a statement shows, those in the bodies of arrows included. -/
def marks : Stmt → List Nat
  | branch c yes no => c.refs ++ marksOf yes ++ marksOfElse no
  | arrow _ _ _ body => body.refs
  | s => s.refs

/-- The numbers that a list of statements shows. -/
def marksOf : List Stmt → List Nat
  | [] => []
  | s :: ss => s.marks ++ marksOf ss

/-- The numbers that an `else` shows. -/
def marksOfElse : Option (List Stmt) → List Nat
  | none => []
  | some ss => marksOf ss

end

@[simp] theorem wordsOf_append (ss ss' : List Stmt) : wordsOf (ss ++ ss') = wordsOf ss ++ wordsOf ss' := by
  induction ss with
  | nil => rfl
  | cons s ss ih => rw [List.cons_append, wordsOf, wordsOf, ih, List.append_assoc]

@[simp] theorem notesOf_append (ss ss' : List Stmt) : notesOf (ss ++ ss') = notesOf ss ++ notesOf ss' := by
  induction ss with
  | nil => rfl
  | cons s ss ih => rw [List.cons_append, notesOf, notesOf, ih, List.append_assoc]

@[simp] theorem commentsOf_append (ss ss' : List Stmt) : commentsOf (ss ++ ss') = commentsOf ss ++ commentsOf ss' := by
  induction ss with
  | nil => rfl
  | cons s ss ih => rw [List.cons_append, commentsOf, commentsOf, ih, List.append_assoc]

section Text

variable {Q : String → Prop}

theorem joinParts_of (T : TextClass Q) {ps : List String} (h : ∀ p ∈ ps, Q p) : Q (joinParts ps) := by
  refine T.intercalate (by decide) fun s hs => ?_
  obtain ⟨p, hp, rfl⟩ := List.mem_map.1 hs
  split
  · exact h p hp
  · exact T.append (h p hp) (T.plain (by decide))

theorem block_of (T : TextClass Q) {ps : List String} (h : ∀ p ∈ ps, Q p) : Q (block ps) := by
  unfold block
  split
  · exact T.plain (by decide)
  · exact T.between (by decide) (joinParts_of T h) (by decide)

/-- The test of a counting loop. -/
theorem test_of (T : TextClass Q) {v : String} {stop : Expr} {step : Step} (hv : Q v) (hstop : Q stop.text)
    (hstep : ∀ a ∈ step.amount?, ∀ rank, Q (a.atLeast rank).text) : Q (step.test v stop) := by
  have hbound : ∀ front sign, Q front → Within Plain sign → Q (front ++ v ++ sign ++ stop.text) := fun _ _ hf hs =>
    T.append (T.append (T.append hf hv) (T.plain hs)) hstop
  have hempty : Q "" := T.plain (by decide)
  cases step with
  | one => simpa [Step.test] using hbound "" " <= " hempty (by decide)
  | up a => simpa [Step.test] using hbound "" " <= " hempty (by decide)
  | down a => simpa [Step.test] using hbound "" " >= " hempty (by decide)
  | signed a =>
    have hsign : Q ("(" ++ (a.atLeast Strength.add.rank).text ++ " >= 0 ? ") :=
      T.between (by decide) (hstep a rfl _) (by decide)
    exact T.append (hbound _ _ (T.append (hbound _ _ hsign (by decide)) (T.plain (by decide))) (by decide))
      (T.plain (by decide))

theorem advance_of (T : TextClass Q) {v : String} {step : Step} (hv : Q v) (hstep : ∀ a ∈ step.amount?, Q a.text) :
    Q (step.advance v) := by
  have hsign : ∀ sign a, Within Plain sign → a ∈ step.amount? → Q (v ++ sign ++ a.text) := fun _ a hs ha =>
    T.append (T.append hv (T.plain hs)) (hstep a ha)
  cases step with
  | one => exact T.append hv (T.plain (by decide))
  | up a => exact hsign " += " a (by decide) rfl
  | down a => exact hsign " -= " a (by decide) rfl
  | signed a => exact hsign " += " a (by decide) rfl

mutual

/-- **The text of a statement** is of a class of texts if its words, its marks and its remarks are. -/
theorem text_of (T : TextClass Q) : ∀ {s : Stmt}, (∀ w ∈ s.words, Q w) → (∀ i ∈ s.marks, Q (siteMark i)) →
    (∀ t ∈ s.notes, Q t) → Q s.text
  | expr e, h, hm, _ => Expr.text_of T (e := e) h hm
  | assign t v, h, hm, _ => by
    obtain ⟨ht, hv⟩ := List.forall_mem_append.1 h
    obtain ⟨hmt, hmv⟩ := List.forall_mem_append.1 hm
    exact T.append (T.append (Expr.text_of T ht hmt) (T.plain (by decide))) (Expr.text_of T hv hmv)
  | ret, _, _, _ => T.plain (show Within Plain "return" by decide)
  | retCall e, h, hm, _ => T.append (T.plain (by decide)) (Expr.text_of T (e := e) h hm)
  | forLoop v start stop step, h, hm, _ => by
    obtain ⟨hbounds, hstep⟩ := List.forall_mem_append.1 h
    obtain ⟨hfirst, hstop⟩ := List.forall_mem_append.1 hbounds
    obtain ⟨hv, hstart⟩ := List.forall_mem_cons.1 hfirst
    obtain ⟨hmbounds, hmstep⟩ := List.forall_mem_append.1 hm
    obtain ⟨hmstart, hmstop⟩ := List.forall_mem_append.1 hmbounds
    have hamount : ∀ a ∈ step.amount?, ∀ rank, Q (a.atLeast rank).text := by
      intro a ha rank
      rw [ha] at hstep hmstep
      unfold Expr.atLeast
      split
      · exact T.between (by decide) (Expr.text_of T hstep hmstep) (by decide)
      · exact Expr.text_of T hstep hmstep
    have hopen : Q ("for (" ++ v ++ " = ") := T.between (by decide) hv (by decide)
    have hhead := T.append (T.append hopen (Expr.text_of T hstart hmstart)) (T.plain (show Within Plain "; " by decide))
    have htest := T.append (T.append hhead (test_of T hv (Expr.text_of T hstop hmstop) hamount))
      (T.plain (show Within Plain "; " by decide))
    refine T.append (T.append htest (advance_of T hv fun a ha => ?_)) (T.plain (by decide))
    simpa [Expr.atLeast] using hamount a ha 0
  | whileLoop c, h, hm, _ => T.between (by decide) (Expr.text_of T (e := c) h hm) (by decide)
  | close, _, _, _ => T.plain (show Within Plain "\x7d" by decide)
  | branch c yes no, h, hm, hn => by
    obtain ⟨hfirst, hno⟩ := List.forall_mem_append.1 h
    obtain ⟨hc, hyes⟩ := List.forall_mem_append.1 hfirst
    obtain ⟨hmfirst, hmno⟩ := List.forall_mem_append.1 hm
    obtain ⟨hmc, hmyes⟩ := List.forall_mem_append.1 hmfirst
    obtain ⟨hnyes, hnno⟩ := List.forall_mem_append.1 hn
    have hhead : Q ("if (" ++ c.text ++ ") ") := T.between (by decide) (Expr.text_of T hc hmc) (by decide)
    exact T.append (T.append hhead (block_of T (parts_of T hyes hmyes hnyes))) (elsePart_of T hno hmno hnno)
  | arrow name isAsync params body, h, hm, _ => by
    obtain ⟨hnames, hbody⟩ := List.forall_mem_append.1 h
    obtain ⟨hname, hparams⟩ := List.forall_mem_cons.1 hnames
    have hasync : Within Plain (if isAsync then "async " else "") := by cases isAsync <;> decide
    have hopen : Q ("const " ++ name ++ " = ") := T.between (by decide) hname (by decide)
    have hhead := T.append (T.append hopen (T.plain hasync)) (T.plain (show Within Plain "(" by decide))
    exact T.append (T.append (T.append hhead (T.intercalate (by decide) hparams)) (T.plain (by decide)))
      (Expr.text_of T hbody hm)
  | note t, _, _, hn => T.between (by decide) (hn t (by simp [notes])) (by decide)
  | comment _, _, _, _ => T.plain (show Within Plain "" by decide)

theorem parts_of (T : TextClass Q) : ∀ {ss : List Stmt}, (∀ w ∈ wordsOf ss, Q w) → (∀ i ∈ marksOf ss, Q (siteMark i)) →
    (∀ t ∈ notesOf ss, Q t) → ∀ p ∈ parts ss, Q p
  | [], _, _, _ => by simp [parts]
  | s :: ss, h, hm, hn => by
    obtain ⟨hs, hss⟩ := List.forall_mem_append.1 h
    obtain ⟨hms, hmss⟩ := List.forall_mem_append.1 hm
    obtain ⟨hns, hnss⟩ := List.forall_mem_append.1 hn
    unfold parts
    split
    · exact parts_of T hss hmss hnss
    · exact List.forall_mem_cons.2 ⟨text_of T hs hms hns, parts_of T hss hmss hnss⟩

theorem elsePart_of (T : TextClass Q) : ∀ {no : Option (List Stmt)}, (∀ w ∈ wordsOfElse no, Q w) →
    (∀ i ∈ marksOfElse no, Q (siteMark i)) → (∀ t ∈ notesOfElse no, Q t) → Q (elsePart no)
  | none, _, _, _ => T.plain (show Within Plain "" by decide)
  | some _, h, hm, hn => T.append (T.plain (by decide)) (block_of T (parts_of T h hm hn))

end

/-- **The text of a line** is of a class of texts if its words, its marks and what it shows are. -/
theorem lineText_of (T : TextClass Q) {ss : List Stmt} (h : ∀ w ∈ wordsOf ss, Q w)
    (hm : ∀ i ∈ marksOf ss, Q (siteMark i)) (hn : ∀ t ∈ notesOf ss, Q t) (hc : ∀ t ∈ commentsOf ss, Q t) :
    Q (lineText ss) := by
  have hcode := joinParts_of T (parts_of T h hm hn)
  unfold lineText
  dsimp only
  split
  · exact hcode
  · refine T.append (T.append ?_ (T.plain (by decide))) (T.intercalate (by decide) hc)
    split
    · exact T.plain (by decide)
    · exact T.append hcode (T.plain (by decide))

end Text

/-! ## What is shown -/

theorem infix_append_left {a b c : String} (h : a.toList <:+: b.toList) : a.toList <:+: (c ++ b).toList := by
  rw [String.toList_append]
  exact h.trans (List.suffix_append ..).isInfix

theorem infix_append_right {a b c : String} (h : a.toList <:+: b.toList) : a.toList <:+: (b ++ c).toList := by
  rw [String.toList_append]
  exact h.trans (List.prefix_append ..).isInfix

theorem infix_intercalate {sep s : String} {ss : List String} (h : s ∈ ss) :
    s.toList <:+: (sep.intercalate ss).toList := by
  rw [String.toList_intercalate]
  induction ss with
  | nil => simp at h
  | cons t ss ih =>
    cases ss with
    | nil =>
      obtain rfl := List.mem_singleton.1 h
      simp [List.intercalate]
    | cons t' ss =>
      rw [List.map_cons, List.map_cons, List.intercalate_cons_cons]
      rcases List.mem_cons.1 h with rfl | h
      · rw [List.append_assoc]
        exact (List.prefix_append ..).isInfix
      · exact (ih h).trans (List.suffix_append ..).isInfix

theorem infix_joinParts {p : String} {ps : List String} (h : p ∈ ps) : p.toList <:+: (joinParts ps).toList := by
  refine List.IsInfix.trans ?_ (infix_intercalate (List.mem_map_of_mem h))
  split
  · exact List.infix_refl _
  · exact infix_append_right (List.infix_refl _)

theorem infix_block {p : String} {ps : List String} (h : p ∈ ps) : p.toList <:+: (block ps).toList := by
  unfold block
  split
  · rename_i hempty
    rw [List.isEmpty_iff.1 hempty] at h
    simp at h
  · exact infix_append_right (infix_append_left (infix_joinParts h))

mutual

/-- A remark of a statement stands in its text. -/
theorem infix_text : ∀ {s : Stmt} {t : String}, t ∈ s.notes → ("/* " ++ t ++ " */").toList <:+: s.text.toList
  | note t, t', h => by
    obtain rfl : t' = t := by simpa [notes] using h
    exact List.infix_refl _
  | branch c yes no, t, h => by
    rw [notes, List.mem_append] at h
    rw [text]
    rcases h with h | h
    · obtain ⟨p, hp, hstands⟩ := infix_parts h
      exact infix_append_right (infix_append_left (hstands.trans (infix_block hp)))
    · exact infix_append_left (infix_elsePart h)
  | expr _, _, h | assign _ _, _, h | ret, _, h | retCall _, _, h | forLoop _ _ _ _, _, h | whileLoop _, _, h
  | close, _, h | arrow _ _ _ _, _, h | comment _, _, h => by simp [notes] at h

theorem infix_parts : ∀ {ss : List Stmt} {t : String}, t ∈ notesOf ss →
    ∃ p ∈ parts ss, ("/* " ++ t ++ " */").toList <:+: p.toList
  | [], _, h => by simp [notesOf] at h
  | s :: ss, t, h => by
    rw [notesOf, List.mem_append] at h
    unfold parts
    split
    · -- a comment has no remarks
      rename_i hcomment
      exact infix_parts (by simpa [notes] using h)
    · rcases h with h | h
      · exact ⟨s.text, by simp, infix_text h⟩
      · obtain ⟨p, hp, hstands⟩ := infix_parts h
        exact ⟨p, List.mem_cons_of_mem _ hp, hstands⟩

theorem infix_elsePart : ∀ {no : Option (List Stmt)} {t : String}, t ∈ notesOfElse no →
    ("/* " ++ t ++ " */").toList <:+: (elsePart no).toList
  | none, _, h => by simp [notesOfElse] at h
  | some ss, t, h => by
    obtain ⟨p, hp, hstands⟩ := infix_parts (show t ∈ notesOf ss from h)
    exact infix_append_left (hstands.trans (infix_block hp))

end

/-- **A remark stands in the line**, between its signs. -/
theorem infix_of_note {ss : List Stmt} {t : String} (h : t ∈ notesOf ss) :
    ("/* " ++ t ++ " */").toList <:+: (lineText ss).toList := by
  obtain ⟨p, hp, hstands⟩ := infix_parts h
  have hcode := hstands.trans (infix_joinParts hp)
  unfold lineText
  dsimp only
  split
  · exact hcode
  · split
    · rename_i hempty
      rw [hempty] at hcode
      have := hcode.length_le
      simp at this
    · exact infix_append_right (infix_append_right (infix_append_right hcode))

/-- **A comment stands in the line.** -/
theorem infix_of_comment {ss : List Stmt} {t : String} (h : t ∈ commentsOf ss) :
    t.toList <:+: (lineText ss).toList := by
  unfold lineText
  dsimp only
  split
  · rename_i hempty
    rw [List.isEmpty_iff.1 hempty] at h
    simp at h
  · exact infix_append_left (infix_intercalate h)

end Stmt

end Js

end Locomotive
