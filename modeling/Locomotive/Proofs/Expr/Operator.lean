import Locomotive.Proofs.Expr.Grammar

/-!
# Operators and calls as a parser sees them

The layers of a parser take the tokens that write their own operators and no others, they
complain about an operation exactly if its types do not fit, and calls of built-in
functions are taken exactly if their arguments fit.

* `between?_eq_some_iff`, `before?_eq_some_iff`: which tokens a layer takes.
* `complaintBetween?_eq_none_iff`, `complaintBefore?_eq_none_iff`: which operations it takes.
* `builtinCall_eq_ok_iff`: which calls are taken.
-/

namespace Locomotive

open Parse (Layer)

variable {l : Layer} {t : Token}

/-! ## Operators -/

namespace Parse.Layer

/-- A token that writes an operator is taken by the layer of the operator. -/
theorem between?_of_writes {op : BinaryOp} (h : t.Writes op) : op.layer.between? t = some op := by
  cases op with
  | other text => exact absurd h id
  | add => simp only [BinaryOp.layer, between?, h.1, h.2]; rfl
  | sub => simp only [BinaryOp.layer, between?, h.1, h.2]; rfl
  | _ => simp only [Token.Writes] at h; simp [BinaryOp.layer, between?, h]

/-- A token that writes an operator before an operand is taken by the layer of the operator. -/
theorem before?_of_writes {op : UnaryOp} (h : t.WritesBefore op) : op.layer.before? t = some op := by
  cases op with
  | other text => exact absurd h id
  | not => simp only [Token.WritesBefore] at h; simp [UnaryOp.layer, before?, h]
  | neg => simp only [UnaryOp.layer, before?, h.1, h.2]; rfl
  | plus => simp only [UnaryOp.layer, before?, h.1, h.2]; rfl

/-- **Operators between operands.** A layer takes the tokens that write its operators. -/
theorem between?_eq_some_iff (hs : t.Signed) {op : BinaryOp} :
    l.between? t = some op ↔ t.Writes op ∧ op.layer = l := by
  constructor
  · intro h
    cases l with
    | sum =>
      simp only [between?] at h
      split at h
      · rename_i hk
        rcases hk with hk | hk
        · rw [hs.1 hk] at h; cases h; exact ⟨⟨hk, hs.1 hk⟩, rfl⟩
        · rw [hs.2 hk] at h; cases h; exact ⟨⟨hk, hs.2 hk⟩, rfl⟩
      · cases h
    | primary | sign | negation => cases h
    | comparison | product =>
      simp only [between?] at h
      split at h <;> cases h <;> exact ⟨‹_›, rfl⟩
    | _ =>
      simp only [between?] at h
      split at h <;> cases h
      exact ⟨‹_›, rfl⟩
  · rintro ⟨h, rfl⟩
    exact between?_of_writes h

/-- **Operators before operands.** A layer takes the tokens that write its operators. -/
theorem before?_eq_some_iff (hs : t.Signed) {op : UnaryOp} :
    l.before? t = some op ↔ t.WritesBefore op ∧ op.layer = l := by
  constructor
  · intro h
    cases l with
    | sign =>
      simp only [before?] at h
      split at h
      · rename_i hk
        rcases hk with hk | hk
        · rw [hs.2 hk] at h; cases h; exact ⟨⟨hk, hs.2 hk⟩, rfl⟩
        · rw [hs.1 hk] at h; cases h; exact ⟨⟨hk, hs.1 hk⟩, rfl⟩
      · cases h
    | negation =>
      simp only [before?] at h
      split at h <;> cases h
      exact ⟨‹_›, rfl⟩
    | _ => cases h
  · rintro ⟨h, rfl⟩
    exact before?_of_writes h

/-- A layer complains about an operation exactly if its operands do not fit. -/
theorem complaintBetween?_eq_none_iff {op : BinaryOp} (h : t.Writes op) (left right : Expr) :
    op.layer.complaintBetween? op t left right = none ↔ op.Takes left.type right.type := by
  cases op with
  | other text => exact absurd h id
  | add => simp [BinaryOp.layer, complaintBetween?, BinaryOp.Takes, h.1]
  | sub => simp [BinaryOp.layer, complaintBetween?, BinaryOp.Takes, h.1]
  | _ => simp [BinaryOp.layer, complaintBetween?, BinaryOp.Takes]

/-- A layer complains about an operator before an operand exactly if the operand does not fit. -/
theorem complaintBefore?_eq_none_iff {op : UnaryOp} (h : t.WritesBefore op) (operand : Expr) :
    op.layer.complaintBefore? t operand = none ↔ op.Takes operand.type := by
  cases op with
  | other text => exact absurd h id
  | _ => simp [UnaryOp.layer, complaintBefore?, UnaryOp.Takes]

end Parse.Layer

/-! ## Calls of built-in functions -/

namespace Builtin

/-- No argument is of the wrong type. -/
theorem mismatch?_eq_none_iff (i : Nat) (params : List (Option Ty)) (tys : List Ty) :
    mismatch? i params tys = none ↔
      ∀ (j : Nat) ty want, tys[j]? = some ty → params[j]? = some (some want) → ty = want := by
  fun_induction mismatch? i params tys with
  | case1 i want params args ih =>
    rw [ih]
    constructor
    · intro h j ty want' hty hw
      cases j with
      | zero => simp at hty hw; rw [← hty, ← hw]
      | succ j => exact h j ty want' (by simpa using hty) (by simpa using hw)
    · exact fun h j ty want' hty hw => h (j + 1) ty want' (by simpa using hty) (by simpa using hw)
  | case2 i want params got args hne =>
    simp only [reduceCtorEq, false_iff]
    exact fun h => hne (h 0 got want rfl rfl)
  | case3 i params got args ih =>
    rw [ih]
    constructor
    · intro h j ty want' hty hw
      cases j with
      | zero => simp at hw
      | succ j => exact h j ty want' (by simpa using hty) (by simpa using hw)
    · exact fun h j ty want' hty hw => h (j + 1) ty want' (by simpa using hty) (by simpa using hw)
  | case4 params i tys h1 h2 =>
    simp only [true_iff]
    intro j ty want hty hw
    rcases params with _ | ⟨_ | w, ps⟩
    · simp at hw
    · cases tys with
      | nil => simp at hty
      | cons a as => exact absurd rfl (h2 _ _ _ rfl)
    · cases tys with
      | nil => simp at hty
      | cons a as => exact absurd rfl (h1 _ _ _ _ rfl)

/-- The parameters of a call shape are those of an admitted call. -/
theorem Signature.admits_iff (s : Signature) (tys : List Ty) :
    (∃ params, s.params? tys.length = some params ∧ mismatch? 1 params tys = none) ↔ s.Admits tys := by
  simp only [params?, Admits, mismatch?_eq_none_iff]
  by_cases hreq : tys.length < s.required
  · simp only [hreq, if_true]
    constructor
    · rintro ⟨_, h, -⟩; cases h
    · rintro ⟨h, -⟩; omega
  simp only [hreq, if_false, Nat.le_of_not_lt hreq, true_and]
  by_cases hlen : tys.length ≤ s.params.length
  · simp only [hlen, if_true, true_or, true_and, Option.some.injEq, exists_eq_left']
    refine forall_congr' fun j => forall_congr' fun ty => forall_congr' fun want => imp_congr_right fun hty => ?_
    have hj : j < tys.length := (List.getElem?_eq_some_iff.1 hty).1
    rw [List.getElem?_take, if_pos hj, List.getElem?_eq_getElem (by omega : j < s.params.length)]
    rfl
  · simp only [hlen, if_false, false_or]
    cases hrep : s.repeated with
    | false => simp
    | true =>
      simp only [if_true, true_and, Option.some.injEq, exists_eq_left']
      refine forall_congr' fun j => forall_congr' fun ty => forall_congr' fun want => imp_congr_right fun hty => ?_
      have hj : j < tys.length := (List.getElem?_eq_some_iff.1 hty).1
      by_cases hp : j < s.params.length
      · rw [List.getElem?_append_left hp, List.getElem?_eq_getElem hp]
        rfl
      · rw [List.getElem?_append_right (by omega), List.getElem?_replicate, if_pos (by omega),
          List.getElem?_eq_none (by omega : s.params.length ≤ j)]
        cases s.params.getLast? <;> simp

/-- A function of the language takes the arguments that its parameters admit. -/
theorem takes_iff {f : Builtin} (hf : f ∈ all) (tys : List Ty) :
    (∃ params, f.params? tys.length = some params ∧ mismatch? 1 params tys = none) ↔ f.Takes tys := by
  cases f with
  | other name => simp [all] at hf
  | instr =>
    simp only [params?, Takes]
    rcases tys with _ | ⟨a, _ | ⟨b, _ | ⟨c, _ | ⟨d, tys⟩⟩⟩⟩
    · simp
    · simp
    · cases a <;> cases b <;> simp [mismatch?]
    · cases a <;> cases b <;> cases c <;> simp [mismatch?]
    · simp
  | _ => exact Signature.admits_iff _ tys

/-- The functions of the language are found by their names. -/
theorem find?_eq_some_iff {f : Builtin} {s : String} : find? s = some f ↔ f ∈ all ∧ s = f.name := by
  constructor
  · intro h
    exact ⟨List.mem_of_find?_eq_some h, (eq_of_beq (List.find?_some h :)).symm⟩
  · rintro ⟨hf, rfl⟩
    revert f
    decide

end Builtin

/-- **Calls.** A call of a built-in function is taken exactly if its arguments fit. -/
theorem Parse.builtinCall_eq_ok_iff {f : Builtin} (hf : f ∈ Builtin.all) {args : List Expr} {e : Expr} :
    builtinCall f t args = .ok e ↔ e = .call f args ∧ f.Takes (args.map Expr.type) := by
  have htakes := Builtin.takes_iff hf (args.map Expr.type)
  rw [List.length_map] at htakes
  rw [← htakes, builtinCall]
  cases f.params? args.length with
  | none => simp
  | some params =>
    dsimp only
    cases hm : Builtin.mismatch? 1 params (args.map Expr.type) with
    | some m => simp [hm]
    | none => simp [hm, eq_comm]

end Locomotive
