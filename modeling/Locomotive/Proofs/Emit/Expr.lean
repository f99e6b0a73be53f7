import Locomotive.Proofs.Emit.Code
import Locomotive.Proofs.Js.Code
import Locomotive.Proofs.Js.Printing

/-!
# The code of a well-formed expression

The code of a well-formed expression denotes the tree of the expression (`Encodes`). It holds no references
to subroutines, and an `await` stands in it exactly if it has the effect that the line waits.

* `Expr.encodes`, `Expr.encodes_condition`: the code of expressions and of conditions.
* `Expr.awaits_code`, `Expr.refs_code`: what stands in the code.
-/

namespace Locomotive

open Js (Tree Denotes)

/-! ## Built-in functions -/

namespace Emit

/-- The code of a position less one. -/
theorem denotes_before {x : Js.Expr} {tree : Tree} (h : Denotes x tree) : Denotes (before x) tree.before :=
  .binary (h.atLeast _) .atom (Nat.le_trans (by decide) (x.rank_atLeast (by decide))) (by decide)

theorem denotes_math {xs : List Js.Expr} {trees : List Tree} (h : Js.DenotesAll xs trees) (name : String) :
    Denotes (math name xs) (.math name trees) := h.method .atom rfl name

/-- A method of the first argument. -/
theorem denotes_receiver {x : Js.Expr} {tree : Tree} (h : Denotes x tree) {xs : List Js.Expr} {trees : List Tree}
    (hs : Js.DenotesAll xs trees) (name : String) :
    Denotes (.method (receiver x) name xs) (.method tree name trees) :=
  hs.method (h.atLeast _) x.strength_atLeast_atom name

/-- An angle as its function wants it. -/
theorem denotes_angle {x : Js.Expr} {tree : Tree} (h : Denotes x tree) (deg : Bool) :
    Denotes (angleCode deg x) (if deg then .named "toRad" [tree] else tree) := by
  cases deg with
  | true => exact (Js.DenotesAll.one h).call _
  | false => exact h

theorem denotes_operation {x y : Js.Expr} {tx ty : Tree} (hx : Denotes x tx) (hy : Denotes y ty) (op : Js.BinaryOp) :
    Denotes (operation op x y) (.binary (.arith op) tx ty) := by
  refine .binary (hx.atLeast _) (hy.atLeast _) (x.rank_atLeast ?_) (y.rank_atLeast ?_) <;> cases op <;> decide

theorem rank_compared (x : Js.Expr) : Js.Strength.add.rank ≤ (compared x).strength.rank :=
  x.rank_atLeast (by decide)

theorem denotes_truth {x y : Js.Expr} {tx ty : Tree} (hx : Denotes x tx) (hy : Denotes y ty) (op : Js.Comparison) :
    Denotes (.truth op (compared x) (compared y)) (.truth op tx ty) :=
  .truth (hx.atLeast _) (hy.atLeast _) (rank_compared x) (rank_compared y)

end Emit

open Emit

namespace Builtin

variable {f : Builtin} {tys : List Ty}

/-- The tree of a function that belongs to an object of the target. -/
theorem tree?_direct (h : f.Takes tys) {object name : String} (hd : f.direct? = some (object, name)) (deg : Bool)
    {trees : List Tree} (hl : trees.length = tys.length) :
    f.tree? deg trees = some (.method (.word object) name trees) := by
  cases f with
  | max => cases hd; rfl
  | min => cases hd; rfl
  | abs | exp | int | fix | log | log10 | sgn | sqr | cint | chr =>
    obtain ⟨x, rfl⟩ := List.length_eq_one_iff.1 (hl.trans (length_eq h rfl rfl rfl (by decide)))
    cases hd; rfl
  | _ => cases hd

/-- The tree of a function that a helper does the work of. -/
theorem tree?_helper (h : f.Takes tys) {name : String} (hd : f.helper? = some name) (hf : f ≠ .inkey) (deg : Bool)
    {trees : List Tree} (hl : trees.length = tys.length) : f.tree? deg trees = some (.named name trees) := by
  cases f with
  | bin | dec | hex | instr | remain | right | round | str | string | val => cases hd; rfl
  | time | xpos | ypos =>
    obtain rfl := List.length_eq_zero_iff.1 (hl.trans (length_eq h rfl rfl rfl (by decide)))
    cases hd; rfl
  | inkey => exact absurd rfl hf
  | _ => cases hd

theorem code_direct {object name : String} (h : f.direct? = some (object, name)) (deg : Bool) (xs : List Js.Expr) :
    f.code deg xs = .method (.atom object) name xs := by
  cases f <;> cases h <;> rfl

theorem code_helper {name : String} (h : f.helper? = some name) (hf : f ≠ .inkey) (deg : Bool) (xs : List Js.Expr) :
    f.code deg xs = .call name xs := by
  cases f <;> cases h <;> first | rfl | exact absurd rfl hf

/-- **The code of a call** denotes its tree. -/
theorem denotes_code (ht : f.Takes tys) (hf : f ≠ .rnd) {xs : List Js.Expr} {trees : List Tree}
    (hd : Js.DenotesAll xs trees) (hl : xs.length = tys.length) (deg : Bool) :
    ∃ tree, f.tree? deg trees = some tree ∧ Denotes (f.code deg xs) tree := by
  by_cases hdir : ∃ object name, f.direct? = some (object, name)
  · obtain ⟨object, name, hdir⟩ := hdir
    rw [code_direct hdir]
    exact ⟨_, tree?_direct ht hdir _ (hd.length_eq ▸ hl), hd.method .atom rfl name⟩
  by_cases hhelp : ∃ name, f.helper? = some name ∧ f ≠ .inkey
  · obtain ⟨name, hhelp, hin⟩ := hhelp
    rw [code_helper hhelp hin]
    exact ⟨_, tree?_helper ht hhelp hin _ (hd.length_eq ▸ hl), hd.call name⟩
  -- what is left has a code of its own
  cases f with
  | inkey =>
    obtain ⟨rfl, rfl⟩ := hd.eq_nil (hl.trans (length_eq ht rfl rfl rfl (by decide)))
    exact ⟨_, rfl, .unary (hd.call _) (by decide) (by decide)⟩
  | pi =>
    obtain ⟨rfl, rfl⟩ := hd.eq_nil (hl.trans (length_eq ht rfl rfl rfl (by decide)))
    exact ⟨_, rfl, .property .atom rfl⟩
  | sin | cos | tan =>
    obtain ⟨x, tree, rfl, rfl, hx⟩ := hd.eq_singleton (hl.trans (length_eq ht rfl rfl rfl (by decide)))
    exact ⟨_, rfl, denotes_math (.one (denotes_angle hx deg)) _⟩
  | atn =>
    obtain ⟨x, tree, rfl, rfl, hx⟩ := hd.eq_singleton (hl.trans (length_eq ht rfl rfl rfl (by decide)))
    have hatan : Denotes (math "atan" [x]) (.math "atan" [tree]) := denotes_math (.one hx) _
    cases deg with
    | true => exact ⟨_, rfl, (Js.DenotesAll.one hatan).call _⟩
    | false => exact ⟨_, rfl, hatan⟩
  | asc =>
    obtain ⟨x, tree, rfl, rfl, hx⟩ := hd.eq_singleton (hl.trans (length_eq ht rfl rfl rfl (by decide)))
    exact ⟨_, rfl, denotes_receiver hx (.one .atom) _⟩
  | lower | upper =>
    obtain ⟨x, tree, rfl, rfl, hx⟩ := hd.eq_singleton (hl.trans (length_eq ht rfl rfl rfl (by decide)))
    exact ⟨_, rfl, denotes_receiver hx .nil _⟩
  | len =>
    obtain ⟨x, tree, rfl, rfl, hx⟩ := hd.eq_singleton (hl.trans (length_eq ht rfl rfl rfl (by decide)))
    exact ⟨_, rfl, .property (hx.atLeast _) x.strength_atLeast_atom⟩
  | space =>
    obtain ⟨x, tree, rfl, rfl, hx⟩ := hd.eq_singleton (hl.trans (length_eq ht rfl rfl rfl (by decide)))
    exact ⟨_, rfl, hd.method .atom rfl "repeat"⟩
  | left =>
    obtain ⟨x, xs, tree, trees, rfl, rfl, hx, hd, hl⟩ :=
      hd.eq_cons (hl.trans (length_eq ht rfl rfl rfl (by decide)))
    obtain ⟨n, tn, rfl, rfl, hn⟩ := hd.eq_singleton hl
    exact ⟨_, rfl, denotes_receiver hx (.cons .atom (.one hn)) _⟩
  | mid =>
    have hlen := length_mid ht
    obtain ⟨x, xs, tree, trees, rfl, rfl, hx, hd, hl'⟩ := hd.eq_cons (n := tys.length - 1) (by omega)
    obtain ⟨n, xs, tn, trees, rfl, rfl, hn, hd, hl'⟩ := hd.eq_cons (n := tys.length - 2) (by omega)
    rcases hlen with hlen | hlen
    · obtain ⟨rfl, rfl⟩ := hd.eq_nil (by omega)
      exact ⟨_, rfl, denotes_receiver hx (.one (denotes_before hn)) _⟩
    · obtain ⟨k, tk, rfl, rfl, hk⟩ := hd.eq_singleton (by omega)
      exact ⟨_, rfl, denotes_receiver hx (.cons (denotes_before hn) (.one hk)) _⟩
  | rnd => exact absurd rfl hf
  | other name => exact absurd ht id
  | _ => first | exact absurd ⟨_, _, rfl⟩ hdir | exact absurd ⟨_, rfl, by decide⟩ hhelp

theorem code_ne_neg (f : Builtin) (deg : Bool) (xs : List Js.Expr) (y : Js.Expr) : f.code deg xs ≠ .unary .neg y := by
  unfold code
  split <;> (try split) <;> exact fun h => by cases h

end Builtin

/-! ## Expressions -/

theorem BinaryOp.denotes_code {op : BinaryOp} {a b : Ty} (ht : op.Takes a b) {x y : Js.Expr} {tx ty : Tree}
    (hx : Denotes x tx) (hy : Denotes y ty) : ∃ tree, op.tree? tx ty = some tree ∧ Denotes (op.code x y) tree := by
  cases op with
  | other text => exact ht.elim
  | intDiv => exact ⟨_, rfl, denotes_math (.one (denotes_operation hx hy .div)) _⟩
  | pow => exact ⟨_, rfl, denotes_math (.cons hx (.one hy)) _⟩
  | eq | ne | lt | gt | le | ge => exact ⟨_, rfl, denotes_truth hx hy _⟩
  | xor | or | and | add | sub | mod | mul | div => exact ⟨_, rfl, denotes_operation hx hy _⟩

theorem BinaryOp.code_ne_neg (op : BinaryOp) (x y z : Js.Expr) : op.code x y ≠ .unary .neg z := by
  cases op <;> exact fun h => by cases h

/-- **Code of an expression.** It denotes the tree of the expression, and starts with a minus sign
only if the expression starts with a sign. -/
structure Encodes (μ : Mode) (e : Expr) (x : Js.Expr) : Prop where
  tree : ∃ tree, e.tree? μ = some tree ∧ Denotes x tree
  sign : e.isUnary = false → ∀ y, x ≠ .unary .neg y

variable {μ : Mode}

/-- The operand of a minus sign does not start with one. -/
theorem denotes_neg {e : Expr} {x : Js.Expr} (h : Encodes μ e x) {tree : Tree} (hd : Denotes x tree) :
    Denotes (.unary .neg (x.atLeast (if e.isUnary then Js.Strength.atom else .unary).rank)) (.unary .neg tree) := by
  refine .unary (hd.atLeast _) ?_ fun _ => ?_
  · split
    · rw [x.strength_atLeast_atom]; decide
    · exact x.rank_atLeast (by decide)
  · -- an operand with a sign is put in parentheses, and no other code starts with a minus
    split
    · exact Js.Expr.minusFirst_atom x.strength_atLeast_atom
    · have hs := h.sign (Bool.eq_false_iff.2 ‹_›)
      unfold Js.Expr.atLeast
      split
      · rfl
      · rename_i hge
        cases x with
        | unary op y => cases op with
          | neg => exact absurd rfl (hs y)
          | bitNot => rfl
          | await => rfl
        | binary op l r => exact absurd (show op.strength.rank < 6 by cases op <;> decide) hge
        | _ => rfl

theorem UnaryOp.denotes_code {op : UnaryOp} {e : Expr} (ht : op.Takes e.type) {x : Js.Expr} (h : Encodes μ e x)
    {tree : Tree} (hd : Denotes x tree) : ∃ tree', op.tree? tree = some tree' ∧ Denotes (op.code e x) tree' := by
  cases op with
  | other text => exact ht.elim
  | plus => exact ⟨tree, rfl, hd⟩
  | neg => exact ⟨_, rfl, denotes_neg h hd⟩
  | not => exact ⟨_, rfl, .unary (hd.atLeast _) (x.rank_atLeast (by decide)) fun h => by cases h⟩

namespace Expr

/-- The code of the members of a list. -/
theorem denotesAll_codes {es : List Expr} (h : ∀ e ∈ es, Encodes μ e (e.code μ)) :
    ∃ trees, trees? μ es = some trees ∧ Js.DenotesAll (es.map (code μ)) trees := by
  induction es with
  | nil => exact ⟨[], rfl, .nil⟩
  | cons e es ih =>
    obtain ⟨he, hes⟩ := List.forall_mem_cons.1 h
    obtain ⟨tree, htree, hd⟩ := he.tree
    obtain ⟨trees, htrees, hds⟩ := ih hes
    exact ⟨tree :: trees, by simp [trees?, htree, htrees], .cons hd hds⟩

/-- **The code of a well-formed expression** denotes its tree. -/
theorem encodes {e : Expr} (h : e.WellFormed) : Encodes μ e (e.code μ) := by
  induction e using Expr.induct with
  | number _ _ _ | string _ | var _ => exact ⟨⟨_, rfl, .atom⟩, fun _ y h => by cases h⟩
  | index name is ih =>
    obtain ⟨trees, htrees, hd⟩ := denotesAll_codes fun e he => ih e he (h.child he)
    rw [code_index]
    exact ⟨⟨_, by simp [tree?, htrees], hd.element _⟩, fun _ y h => by cases h⟩
  | paren e ih =>
    obtain ⟨tree, htree, hd⟩ := (ih (h.child (by simp [children]))).tree
    refine ⟨⟨tree, by simpa [tree?] using htree, hd.atLeast _⟩, fun _ y hy => ?_⟩
    have := (e.code μ).strength_atLeast_atom
    rw [show (e.code μ).atLeast Js.Strength.atom.rank = _ from hy] at this
    cases this
  | unary op e ih =>
    have he := ih (h.child (by simp [children]))
    obtain ⟨tree, htree, hd⟩ := he.tree
    obtain ⟨tree', htree', hd'⟩ := UnaryOp.denotes_code (h.types _ .self) he hd
    exact ⟨⟨tree', by simp [tree?, htree, htree'], hd'⟩, fun h => by cases h⟩
  | binary op l r hl hr =>
    obtain ⟨tl, htl, hdl⟩ := (hl (h.child (by simp [children]))).tree
    obtain ⟨tr, htr, hdr⟩ := (hr (h.child (by simp [children]))).tree
    obtain ⟨tree, htree, hd⟩ := BinaryOp.denotes_code (h.types _ .self) hdl hdr
    exact ⟨⟨tree, by simp [tree?, htl, htr, htree], hd⟩, fun _ => op.code_ne_neg _ _⟩
  | call f args ih =>
    obtain ⟨trees, htrees, hd⟩ := denotesAll_codes fun e he => ih e he (h.child he)
    have htakes : f.Takes (args.map type) := h.types _ .self
    rw [code_call]
    refine ⟨?_, fun _ => f.code_ne_neg _ _⟩
    -- only `RND` drops its arguments
    by_cases hf : f = .rnd
    · subst hf
      exact ⟨_, by rw [tree?, htrees]; rfl, denotes_math .nil "random"⟩
    · have htaken := Builtin.taken_eq htakes hf
      rw [List.length_map] at htaken
      rw [htaken, List.take_length]
      obtain ⟨tree, htree, hdx⟩ := Builtin.denotes_code htakes hf hd (by simp) μ.deg
      exact ⟨tree, by simp [tree?, htrees, htree], hdx⟩
  | fn name args ih =>
    obtain ⟨trees, htrees, hd⟩ := denotesAll_codes fun e he => ih e he (h.child he)
    rw [code_fn]
    split
    · rename_i ha
      refine ⟨⟨_, ?_, .unary (hd.call _) (show 6 ≤ 7 by decide) fun h => (by cases h)⟩, fun _ y h => by cases h⟩
      simp only [tree?, htrees, Option.map_some, ha, if_true]
      rfl
    · rename_i ha
      refine ⟨⟨_, ?_, hd.call _⟩, fun _ y h => by cases h⟩
      simp only [tree?, htrees, Option.map_some, if_neg ha]
      rfl
  | missing => exact (h.types _ .self).elim

end Expr

/-! ## Conditions -/

theorem BinaryOp.isComparison_of_none {op : BinaryOp} (h : op.comparison? = none) : op.isComparison = false := by
  cases op <;> first | rfl | cases h

theorem BinaryOp.isComparison_of_some {op : BinaryOp} {c : Js.Comparison} (h : op.comparison? = some c) :
    op.isComparison = true ∧ ∀ l r, op.tree? l r = some (.truth c l r) := by
  cases op <;> cases h <;> exact ⟨rfl, fun _ _ => rfl⟩

namespace Expr

theorem bare_ne_paren (e e' : Expr) : e.bare ≠ .paren e' := by
  fun_induction Expr.bare e with
  | case1 e ih => exact ih
  | case2 e h => exact h e'

theorem tree?_bare (m : Mode) (e : Expr) : e.bare.tree? m = e.tree? m := by
  fun_induction Expr.bare e with
  | case1 e ih => rw [ih, tree?]
  | case2 => rfl

theorem isComparison_bare (e : Expr) : e.bare.isComparison = e.isComparison := by
  fun_induction Expr.bare e with
  | case1 e ih => rw [ih, isComparison]
  | case2 => rfl

/-- **The code of a condition** is a text with one reading, the tree of the condition. -/
theorem encodes_condition {e : Expr} (h : e.WellFormed) :
    ∃ tree, e.conditionTree? μ = some tree ∧ ∀ t, Js.Reading (e.conditionCode μ).symbols t ↔ t = tree := by
  have hbare := h.bare
  have htree := e.tree?_bare μ
  have hcmp := e.isComparison_bare
  -- a condition that is no comparison has the code of its expression
  have hsame : e.isComparison = false →
      ∃ tree, e.conditionTree? μ = some tree ∧ ∀ t, Js.Reading (e.bare.code μ).symbols t ↔ t = tree := by
    intro hno
    obtain ⟨tree, hbtree, hd⟩ := (encodes (μ := μ) hbare).tree
    rw [htree] at hbtree
    exact ⟨tree, by simp [conditionTree?, hbtree, hno], hd.reading_iff⟩
  unfold conditionCode
  cases hb : e.bare with
  | binary op l r =>
    rw [hb] at hbare hsame hcmp htree
    dsimp only
    cases hop : op.comparison? with
    | none => exact hsame (by rw [← hcmp]; exact BinaryOp.isComparison_of_none hop)
    | some c =>
      obtain ⟨tx, htx, hdx⟩ := (encodes (μ := μ) (hbare.child (c := l) (by simp [children]))).tree
      obtain ⟨ty, hty, hdy⟩ := (encodes (μ := μ) (hbare.child (c := r) (by simp [children]))).tree
      refine ⟨.binary (.compare c) tx ty, ?_, Denotes.compare_reading_iff (hdx.atLeast _) (hdy.atLeast _)
        (rank_compared _) (rank_compared _) c⟩
      obtain ⟨hiscmp, htruth⟩ := BinaryOp.isComparison_of_some hop
      have he : e.tree? μ = some (.truth c tx ty) := by rw [← htree]; simp [tree?, htx, hty, htruth]
      have hcmp : e.isComparison = true := by rw [← hcmp]; exact hiscmp
      simp [conditionTree?, he, hcmp, Tree.truth, Tree.test]
  | paren e' => exact absurd hb (e.bare_ne_paren e')
  | _ => rw [hb] at hsame hcmp; exact hsame (by rw [← hcmp]; rfl)

end Expr

/-! ## What stands in the code -/

open Emit
open Js.Expr (refs refsOf awaits anyAwaits)

@[simp] theorem Js.Expr.refs_atLeast (e : Js.Expr) (rank : Nat) : (e.atLeast rank).refs = e.refs := by
  unfold Js.Expr.atLeast
  split <;> rfl

namespace Builtin

variable {f : Builtin} {xs : List Js.Expr}

theorem refs_code (deg : Bool) (h : refsOf xs = []) : (f.code deg xs).refs = [] := by
  unfold code
  split
  case h_16 => split <;> simp [refs, h]
  all_goals cases deg <;> simp_all [refs, refsOf, math, receiver, before, angleCode]

theorem isWait_effects (hf : f ≠ .inkey) (deg : Bool) : (f.effects deg).any Effect.isWait = false := by
  cases f <;> cases deg <;> first | rfl | exact absurd rfl hf

theorem awaits_code {n : Nat} (h : xs.length ≤ f.taken n) (deg : Bool) (called : Nat → Bool) :
    (f.code deg xs).awaits called = (anyAwaits called xs || (f.effects deg).any Effect.isWait) := by
  unfold code
  split
  case h_16 hne _ _ _ _ _ _ _ _ _ _ _ _ _ _ =>
    rw [isWait_effects hne]
    split <;> simp [awaits]
  all_goals cases deg <;>
    simp_all [awaits, anyAwaits, effects, Effect.isWait, math, receiver, before, angleCode, taken]

end Builtin

theorem BinaryOp.refs_code (op : BinaryOp) {x y : Js.Expr} (hx : x.refs = []) (hy : y.refs = []) :
    (op.code x y).refs = [] := by
  cases op <;> simp [code, math, operation, compared, comparison?, direct?, refs, refsOf, hx, hy]

theorem BinaryOp.awaits_code (op : BinaryOp) (x y : Js.Expr) (called : Nat → Bool) :
    (op.code x y).awaits called = (x.awaits called || y.awaits called) := by
  cases op <;> simp [code, math, operation, compared, comparison?, direct?, awaits, anyAwaits]

theorem UnaryOp.refs_code (op : UnaryOp) (e : Expr) (x : Js.Expr) : (op.code e x).refs = x.refs := by
  cases op <;> simp [code, refs, refsOf]

theorem UnaryOp.awaits_code (op : UnaryOp) (e : Expr) (x : Js.Expr) (called : Nat → Bool) :
    (op.code e x).awaits called = x.awaits called := by
  cases op <;> simp [code, awaits, anyAwaits]

namespace Expr

theorem refsOf_map {es : List Expr} (h : ∀ e ∈ es, (e.code μ).refs = []) : refsOf (es.map (code μ)) = [] := by
  induction es with
  | nil => rfl
  | cons e es ih =>
    obtain ⟨he, hes⟩ := List.forall_mem_cons.1 h
    rw [List.map_cons, refsOf, he, ih hes, List.append_nil]

/-- The code of an expression holds no references. -/
@[simp] theorem refs_code (e : Expr) : (e.code μ).refs = [] := by
  induction e using Expr.induct with
  | binary op l r hl hr => exact op.refs_code hl hr
  | unary op e ih => exact (op.refs_code e _).trans ih
  | paren e ih => exact (Js.Expr.refs_atLeast _ _).trans ih
  | index name is ih => rw [code_index]; exact refsOf_map ih
  | call f args ih =>
    rw [code_call]
    exact Builtin.refs_code _ (refsOf_map fun e he => ih e (List.mem_of_mem_take he))
  | fn name args ih =>
    rw [code_fn]
    split <;> exact refsOf_map ih
  | _ => rfl

theorem anyAwaits_map {es : List Expr} {called : Nat → Bool}
    (h : ∀ e ∈ es, (e.code μ).awaits called = (e.effects μ).any Effect.isWait) :
    anyAwaits called (es.map (code μ)) = (es.flatMap (effects μ)).any Effect.isWait := by
  induction es with
  | nil => rfl
  | cons e es ih =>
    obtain ⟨he, hes⟩ := List.forall_mem_cons.1 h
    rw [List.map_cons, anyAwaits, he, ih hes, List.flatMap_cons, List.any_append]

/-- **An `await` stands in the code** exactly if its line waits. -/
@[simp] theorem awaits_code (e : Expr) (called : Nat → Bool) :
    (e.code μ).awaits called = (e.effects μ).any Effect.isWait := by
  induction e using Expr.induct with
  | number radix text line =>
    rw [effects, numberEffects]
    cases Js.octal? radix text <;> rfl
  | binary op l r hl hr => rw [code, effects, op.awaits_code, hl, hr, List.any_append]
  | unary op e ih => rw [code, effects, op.awaits_code, ih]
  | paren e ih => rw [code, effects, Js.Expr.awaits_atLeast, ih]
  | index name is ih => simpa [code_index, effects_index, awaits, Effect.isWait] using anyAwaits_map ih
  | call f args ih =>
    have hhelper : (f.helper?.toList.map Effect.helper).any Effect.isWait = false := by cases f.helper? <;> rfl
    rw [code_call, effects_call, Builtin.awaits_code (n := args.length) (by rw [List.length_map]; exact List.length_take_le _ _),
      anyAwaits_map fun e he => ih e (List.mem_of_mem_take he)]
    simp only [List.any_append, hhelper, Bool.false_or]
  | fn name args ih =>
    rw [code_fn, effects_fn, List.any_append, ← anyAwaits_map ih]
    split <;> simp [awaits, Effect.isWait]
  | _ => rfl

/-- What tells no comparison from its value, and ignores parentheses, finds in the code of a condition what it finds in
the code of the expression. -/
theorem of_conditionCode {γ : Type} (f : Js.Expr → γ) (hf : ∀ c x y, f (.compare c x y) = f (.truth c x y))
    (hp : ∀ x rank, f (Js.Expr.atLeast rank x) = f x) (e : Expr) : f (e.conditionCode μ) = f (e.code μ) := by
  have hbare : f (e.bare.code μ) = f (e.code μ) := by
    fun_induction Expr.bare e with
    | case1 e ih => rw [ih, code, hp]
    | case2 => rfl
  rw [← hbare]
  unfold conditionCode
  cases e.bare with
  | binary op l r => cases op <;> first | rfl | exact hf ..
  | _ => rfl

@[simp] theorem refs_conditionCode (e : Expr) : (e.conditionCode μ).refs = [] :=
  (of_conditionCode refs (fun _ _ _ => rfl) (fun x rank => x.refs_atLeast rank) e).trans e.refs_code

@[simp] theorem awaits_conditionCode (e : Expr) (called : Nat → Bool) :
    (e.conditionCode μ).awaits called = (e.effects μ).any Effect.isWait :=
  (of_conditionCode (awaits called) (fun _ _ _ => rfl) (fun x rank => Js.Expr.awaits_atLeast called rank x) e).trans
    (e.awaits_code called)

end Expr

end Locomotive
