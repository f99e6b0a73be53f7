import Locomotive.Proofs.Emit.Outcome
import Locomotive.Proofs.Emit.Translation
import Locomotive.Proofs.Stmt.Proper

/-!
# The code of an expression and its effects

Generating the code of an expression reads nothing of the tables but the mode, so what it gives
is a function of the expression and the mode (`Expr.code`), and so is what it leaves in the
tables (`Expr.effects`). It fails only for expressions that are not well formed, to which `Expr.code`
gives the list of the codes of their parts.

* `Effect`, `Tables.undergo`: what generating code leaves in the tables.
* `Emit.Runs`: an action gives a value, has effects, or fails.
* `Emit.expr_runs`, `Emit.condition_runs`: the code of expressions and conditions.
-/

namespace Locomotive

/-! ## Effects -/

/-- The remark does not say that a label is missing. -/
def Remark.isPlain : Remark → Bool
  | noRestoreTarget _ => false
  | notSubroutine _ => false
  | _ => true

/-- What generating the code of an expression does to the tables. -/
inductive Effect where
  /-- A name of the source is used for a variable. -/
  | mention (name : String) (storage : Storage)
  | helper (name : String)
  | wait
  | warn (r : Remark) (plain : r.isPlain = true := by rfl)

/-- The tables after an effect. -/
def Effect.run (t : Tables) : Effect → Tables
  | mention name storage => (t.reference name storage).2
  | helper name => t.call name
  | wait => t.wait
  | warn r _ => t.warn r

namespace Effect

/-- The effect is that the line waits. -/
def isWait : Effect → Bool
  | wait => true
  | _ => false

/-- The helper that is noted. -/
def helper? : Effect → Option String
  | helper name => some name
  | _ => none

/-- The identifier of the variable that is used. -/
def id? : Effect → Option String
  | mention name _ => some (Js.identifier name)
  | _ => none

end Effect

namespace Tables

/-- The tables after a list of effects. -/
def undergo (t : Tables) (es : List Effect) : Tables := es.foldl Effect.run t

@[simp] theorem undergo_nil (t : Tables) : t.undergo [] = t := rfl

@[simp] theorem undergo_cons (t : Tables) (e : Effect) (es : List Effect) :
    t.undergo (e :: es) = (e.run t).undergo es := rfl

@[simp] theorem undergo_append (t : Tables) (es es' : List Effect) :
    t.undergo (es ++ es') = (t.undergo es).undergo es' := List.foldl_append

/-- Everything but the variables, the helpers, the warnings, the binding of names and the
mark for waiting is the same. -/
def Keeps (t t' : Tables) : Prop :=
  ∃ vars helpers warnings binding waits,
    t' = { t with vars := vars, helpers := helpers, warnings := warnings, binding := binding, waits := waits }

theorem Keeps.trans {t t' t'' : Tables} (h : t.Keeps t') (h' : t'.Keeps t'') : t.Keeps t'' := by
  obtain ⟨v, hs, w, b, ws, rfl⟩ := h
  obtain ⟨v', hs', w', b', ws', rfl⟩ := h'
  exact ⟨v', hs', w', b', ws', rfl⟩

theorem Keeps.refl (t : Tables) : t.Keeps t := ⟨_, _, _, _, _, rfl⟩

theorem Keeps.mode {t t' : Tables} (h : t.Keeps t') : t'.mode = t.mode := by
  obtain ⟨_, _, _, _, _, rfl⟩ := h
  rfl

/-- **What effects leave in the tables.** Only names that are used become variables, and no label is said to be
missing. -/
structure Undergone (t : Tables) (es : List Effect) (t' : Tables) : Prop where
  keeps : t.Keeps t'
  waits : t'.waits = (t.waits || es.any Effect.isWait)
  helpers : t'.helpers = (es.filterMap Effect.helper?).foldl Tally.add t.helpers
  warnings : ∃ new, t'.warnings = t.warnings ++ new ∧ ∀ w ∈ new, w.remark.isPlain = true
  vars : ∀ v ∈ t'.vars, (∃ u ∈ t.vars, v.name = u.name) ∨ v.name ∈ es.filterMap Effect.id?

theorem Undergone.trans {t t' t'' : Tables} {es es' : List Effect} (h : t.Undergone es t') (h' : t'.Undergone es' t'') :
    t.Undergone (es ++ es') t'' := by
  obtain ⟨new, hnew, hplain⟩ := h.warnings
  obtain ⟨new', hnew', hplain'⟩ := h'.warnings
  refine ⟨h.keeps.trans h'.keeps, ?_, ?_, ⟨new ++ new', ?_, List.forall_mem_append.2 ⟨hplain, hplain'⟩⟩, fun v hv => ?_⟩
  · rw [h'.waits, h.waits, List.any_append, Bool.or_assoc]
  · rw [h'.helpers, h.helpers, List.filterMap_append, List.foldl_append]
  · rw [hnew', hnew, List.append_assoc]
  · rw [List.filterMap_append, List.mem_append]
    rcases h'.vars v hv with ⟨u, hu, hname⟩ | hid
    · rw [hname]
      exact (h.vars u hu).imp_right .inl
    · exact .inr (.inr hid)

theorem reference_fst (t : Tables) (name : String) (storage : Storage) :
    (t.reference name storage).1 = Js.identifier name := by
  unfold reference
  cases t.binding <;> rfl

/-- A use of a variable adds at most it and a warning about it. -/
theorem mention_eq (t : Tables) (id : String) (storage : Storage) : ∃ vars new,
    t.mention id storage = { t with vars := vars, warnings := t.warnings ++ new } ∧
      (∀ w ∈ new, w.remark.isPlain = true) ∧ ∀ v ∈ vars, (∃ u ∈ t.vars, v.name = u.name) ∨ v.name = id := by
  have hknown : ∀ v ∈ t.vars.map fun v => if v.name = id then v.mention storage t.scope else v,
      (∃ u ∈ t.vars, v.name = u.name) ∨ v.name = id := by
    intro v hv
    obtain ⟨u, hu, rfl⟩ := List.mem_map.1 hv
    exact .inl ⟨u, hu, by split <;> rfl⟩
  have hnew : ∀ v ∈ t.vars ++ [⟨id, storage, 1, Tally.add {} t.scope⟩], (∃ u ∈ t.vars, v.name = u.name) ∨ v.name = id :=
    List.forall_mem_append.2 ⟨fun v hv => .inl ⟨v, hv, rfl⟩, by simp⟩
  unfold mention
  cases t.storageBefore? id storage with
  | none =>
    dsimp only
    split
    · exact ⟨_, [], by simp, by simp, hknown⟩
    · exact ⟨_, [], by simp, by simp, hnew⟩
  | some before =>
    dsimp only
    split
    · exact ⟨_, [_], rfl, by simp [Remark.isPlain], hknown⟩
    · exact ⟨_, [_], rfl, by simp [Remark.isPlain], hnew⟩

theorem undergone_run (t : Tables) (e : Effect) : t.Undergone [e] (e.run t) := by
  -- the variables stay, and so does what is not named
  have hsame : ∀ {t'} (es : List Effect), t.Keeps t' → t'.vars = t.vars → t'.warnings = t.warnings →
      t'.waits = (t.waits || es.any Effect.isWait) → t'.helpers = (es.filterMap Effect.helper?).foldl Tally.add t.helpers →
      t.Undergone es t' := fun es hk hv hw hwaits hhelpers =>
    ⟨hk, hwaits, hhelpers, ⟨[], by rw [hw, List.append_nil], by simp⟩, fun v hmem => .inl ⟨v, hv ▸ hmem, rfl⟩⟩
  cases e with
  | mention name storage =>
    have hmention : t.Undergone [.mention name storage] (t.mention (Js.identifier name) storage) := by
      obtain ⟨vars, new, heq, hplain, hvars⟩ := t.mention_eq (Js.identifier name) storage
      rw [heq]
      refine ⟨⟨_, _, _, _, _, rfl⟩, (Bool.or_false _).symm, rfl, ⟨new, rfl, hplain⟩, fun v hv => ?_⟩
      exact (hvars v hv).imp_right fun h => by simp [Effect.id?, h]
    unfold Effect.run reference
    cases t.binding with
    | collecting ps => exact hsame _ ⟨_, _, _, _, _, rfl⟩ rfl rfl (Bool.or_false _).symm rfl
    | body ps =>
      dsimp only
      split
      · exact hsame _ (.refl t) rfl rfl (Bool.or_false _).symm rfl
      · exact hmention
    | outside => exact hmention
  | helper name => exact hsame _ ⟨_, _, _, _, _, rfl⟩ rfl rfl (Bool.or_false _).symm rfl
  | wait => exact hsame _ ⟨_, _, _, _, _, rfl⟩ rfl rfl (Bool.or_true _).symm rfl
  | warn r plain =>
    exact ⟨⟨_, _, _, _, _, rfl⟩, (Bool.or_false _).symm, rfl, ⟨[⟨t.lineNumber, r⟩], rfl, by simpa using plain⟩,
      fun v hv => .inl ⟨v, hv, rfl⟩⟩

theorem undergone (t : Tables) (es : List Effect) : t.Undergone es (t.undergo es) := by
  induction es generalizing t with
  | nil =>
    exact ⟨.refl t, (Bool.or_false _).symm, rfl, ⟨[], (List.append_nil _).symm, by simp⟩, fun v hv => .inl ⟨v, hv, rfl⟩⟩
  | cons e es ih => exact (t.undergone_run e).trans (ih _)

@[simp] theorem mode_undergo (t : Tables) (es : List Effect) : (t.undergo es).mode = t.mode := (t.undergone es).keeps.mode

end Tables

namespace Emit

variable {α β : Type} {m : Emit α} {μ : Mode} {a : α} {b : β} {es es' : List Effect} {E E' : Prop}

/-- In the mode `μ` the action gives `a` and has the effects `es`, and it fails only if `E`. -/
def Runs (m : Emit α) (μ : Mode) (a : α) (es : List Effect) (E : Prop) : Prop :=
  ∀ t : Tables, t.mode = μ → Ends m t (fun b t' => b = a ∧ t' = t.undergo es) fun _ => E

namespace Runs

theorem pure (a : α) : Runs (pure a) μ a [] E := fun _ _ => ⟨rfl, rfl⟩

theorem bind {f : α → Emit β} (h : Runs m μ a es E) (hf : Runs (f a) μ b es' E) :
    Runs (m >>= f) μ b (es ++ es') E := by
  intro t ht
  refine (h t ht).bind ?_
  rintro _ _ ⟨rfl, rfl⟩
  rw [Tables.undergo_append]
  exact hf _ ((t.mode_undergo es).trans ht)

theorem map (f : α → β) (h : Runs m μ a es E) : Runs (do Pure.pure (f (← m))) μ (f a) es E := by
  rw [← List.append_nil es]
  exact h.bind (.pure (f a))

theorem mono (h : Runs m μ a es E) (hE : E → E') : Runs m μ a es E' := fun t ht =>
  (h t ht).mono (fun _ _ => id) fun _ => hE

theorem helper (name : String) : Runs (Emit.helper name) μ () [.helper name] E := fun _ _ => ⟨rfl, rfl⟩

theorem wait : Runs Emit.wait μ () [.wait] E := fun _ _ => ⟨rfl, rfl⟩

theorem warn (r : Remark) (h : r.isPlain = true) : Runs (Emit.warn r) μ () [.warn r h] E := fun _ _ => ⟨rfl, rfl⟩

theorem refuse (why : Refusal) (h : E) : Runs (Emit.refuse why) μ a es E := fun _ _ => h

theorem broken (fault : Fault) (h : E) : Runs (Emit.broken fault) μ a es E := fun _ _ => h

theorem mention (name : String) (storage : Storage) :
    Runs (Emit.mention name storage) μ (Js.identifier name) [.mention name storage] E := fun t _ =>
  ⟨t.reference_fst name storage, rfl⟩

end Runs

end Emit

/-! ## Induction over expressions -/

namespace Expr

/-- Induction over expressions: what holds of one if it holds of its parts holds of all. -/
theorem induct {P : Expr → Prop} (number : ∀ radix text line, P (number radix text line))
    (string : ∀ value, P (string value)) (var : ∀ name, P (var name))
    (index : ∀ name is, (∀ e ∈ is, P e) → P (index name is))
    (binary : ∀ op l r, P l → P r → P (binary op l r)) (unary : ∀ op e, P e → P (unary op e))
    (paren : ∀ e, P e → P (paren e)) (call : ∀ f args, (∀ e ∈ args, P e) → P (call f args))
    (fn : ∀ name args, (∀ e ∈ args, P e) → P (fn name args)) (missing : P missing) (e : Expr) : P e :=
  Expr.rec (motive_1 := P) (motive_2 := fun es => ∀ e ∈ es, P e) number string var index binary unary paren call fn
    missing nofun (fun _ _ he hes => List.forall_mem_cons.2 ⟨he, hes⟩) e

theorem WellFormed.bare {e : Expr} (h : e.WellFormed) : e.bare.WellFormed := by
  fun_induction Expr.bare e with
  | case1 e ih => exact ih (h.child (by simp [children]))
  | case2 => exact h

end Expr

/-! ## Built-in functions -/

/-- The code of an angle as its function wants it. -/
def Emit.angleCode (deg : Bool) (x : Js.Expr) : Js.Expr := if deg then .call "toRad" [x] else x

namespace Builtin

open Emit (math receiver before angleCode)

/-- The code of a call from the code of the arguments that the function looks at. -/
def code (deg : Bool) (f : Builtin) (args : List Js.Expr) : Js.Expr :=
  match f, args with
  | inkey, _ => .unary .await (.call "inkey$" [])
  | pi, _ => .property (.atom "Math") "PI"
  | rnd, _ => math "random" []
  | sin, [x] => math "sin" [angleCode deg x]
  | cos, [x] => math "cos" [angleCode deg x]
  | tan, [x] => math "tan" [angleCode deg x]
  | atn, [x] => if deg then .call "toDeg" [math "atan" [x]] else math "atan" [x]
  | asc, [s] => .method (receiver s) "charCodeAt" [.atom "0"]
  | len, [s] => .property (receiver s) "length"
  | lower, [s] => .method (receiver s) "toLowerCase" []
  | upper, [s] => .method (receiver s) "toUpperCase" []
  | space, [n] => .method (.atom "\" \"") "repeat" [n]
  | left, [s, n] => .method (receiver s) "substring" [.atom "0", n]
  | mid, [s, start] => .method (receiver s) "substring" [before start]
  | mid, [s, start, n] => .method (receiver s) "substr" [before start, n]
  | f, args =>
    match f.direct?, f.helper? with
    | some (object, name), _ => .method (.atom object) name args
    | none, some name => .call name args
    | none, none => .array args

/-- What a call does to the tables after its arguments. -/
def effects (deg : Bool) : Builtin → List Effect
  | inkey => [.wait]
  | sin | cos | tan => if deg then [.helper "toRad"] else []
  | atn => if deg then [.helper "toDeg"] else []
  | _ => []

variable {f : Builtin} {tys : List Ty}

/-- The number of arguments of a function whose parameters are all needed. -/
theorem length_eq (h : f.Takes tys) {n : Nat} (hr : f.signature.required = n) (hp : f.signature.params.length = n)
    (hs : f.signature.repeated = false) (hf : f ≠ .instr) : tys.length = n := by
  have h : f.signature.Admits tys := by
    cases f <;> first | exact h | exact absurd rfl hf | exact absurd h id
  obtain ⟨hl, hu, -⟩ := h
  have hu : tys.length ≤ n := hu.elim (fun h => hp ▸ h) fun h => absurd (hs ▸ h) (by decide)
  omega

/-- `MID$` takes a text, a position and perhaps a length. -/
theorem length_mid (h : Takes .mid tys) : tys.length = 2 ∨ tys.length = 3 := by
  obtain ⟨hleast, hmost, -⟩ : Signature.Admits ⟨[some .string, some .number, some .number], 2, false⟩ tys := h
  have hmost : tys.length ≤ 3 := hmost.elim id fun h => by cases h
  have hleast : 2 ≤ tys.length := hleast
  omega

/-- Every function but `RND` looks at all of its arguments. -/
theorem taken_eq (h : f.Takes tys) (hf : f ≠ .rnd) : f.taken tys.length = tys.length := by
  cases f with
  | rnd => exact absurd rfl hf
  | pi | inkey | sin | cos | tan | atn | asc | len | lower | upper | space | left =>
    exact (length_eq h rfl rfl rfl (by decide)).symm
  | mid => rcases length_mid h with hl | hl <;> rw [hl] <;> rfl
  | _ => rfl

theorem taken_le (h : f.Takes tys) : f.taken tys.length ≤ tys.length := by
  by_cases hf : f = .rnd
  · subst hf; exact Nat.zero_le _
  · exact Nat.le_of_eq (taken_eq h hf)

/-- No arguments of the function have this number. -/
theorem ne_taken {n k : Nat} (hne : k ≠ n) (hr : f.signature.required = n) (hp : f.signature.params.length = n)
    (hs : f.signature.repeated = false) (hf : f ≠ .instr) (hrnd : f ≠ .rnd) :
    ∀ tys, f.Takes tys → k ≠ f.taken tys.length := by
  intro tys ht
  rw [taken_eq ht hrnd, length_eq ht hr hp hs hf]
  exact hne

end Builtin

namespace Emit

variable {μ : Mode} {E : Prop}

theorem angle_runs (x : Js.Expr) :
    Runs (angle x) μ (angleCode μ.deg x) (if μ.deg then [.helper "toRad"] else []) E := by
  rintro t rfl
  rw [angle, ends_bind, ends_get, angleCode, show t.mode.deg = t.deg from rfl]
  cases t.deg <;> exact ⟨rfl, rfl⟩

theorem fromAngle_runs (x : Js.Expr) : Runs (fromAngle x) μ (if μ.deg then .call "toDeg" [x] else x)
    (if μ.deg then [.helper "toDeg"] else []) E := by
  rintro t rfl
  rw [fromAngle, ends_bind, ends_get, show t.mode.deg = t.deg from rfl]
  cases t.deg <;> exact ⟨rfl, rfl⟩

/-- The code of a call of a built-in function, which fails only for a wrong number of arguments. -/
theorem builtin_runs (f : Builtin) (xs : List Js.Expr) : Runs (builtin f xs) μ (f.code μ.deg xs) (f.effects μ.deg)
    (∀ tys, f.Takes tys → xs.length ≠ f.taken tys.length) := by
  cases f with
  | sin | cos | tan =>
    rcases xs with _ | ⟨x, _ | ⟨y, xs⟩⟩
    · exact .broken _ (Builtin.ne_taken (n := 1) (by simp) rfl rfl rfl (by decide) (by decide))
    · exact (angle_runs x).map _
    · exact .broken _ (Builtin.ne_taken (n := 1) (by simp) rfl rfl rfl (by decide) (by decide))
  | atn =>
    rcases xs with _ | ⟨x, _ | ⟨y, xs⟩⟩
    · exact .broken _ (Builtin.ne_taken (n := 1) (by simp) rfl rfl rfl (by decide) (by decide))
    · exact fromAngle_runs _
    · exact .broken _ (Builtin.ne_taken (n := 1) (by simp) rfl rfl rfl (by decide) (by decide))
  | asc | len | lower | upper | space =>
    rcases xs with _ | ⟨x, _ | ⟨y, xs⟩⟩
    · exact .broken _ (Builtin.ne_taken (n := 1) (by simp) rfl rfl rfl (by decide) (by decide))
    · exact .pure _
    · exact .broken _ (Builtin.ne_taken (n := 1) (by simp) rfl rfl rfl (by decide) (by decide))
  | left =>
    rcases xs with _ | ⟨x, _ | ⟨y, _ | ⟨z, xs⟩⟩⟩
    · exact .broken _ (Builtin.ne_taken (n := 2) (by simp) rfl rfl rfl (by decide) (by decide))
    · exact .broken _ (Builtin.ne_taken (n := 2) (by simp) rfl rfl rfl (by decide) (by decide))
    · exact .pure _
    · exact .broken _ (Builtin.ne_taken (n := 2) (by simp) rfl rfl rfl (by decide) (by decide))
  | mid =>
    have hlength : ∀ tys, Builtin.Takes .mid tys →
        Builtin.taken tys.length .mid = 2 ∨ Builtin.taken tys.length .mid = 3 := fun tys ht =>
      (Builtin.taken_eq ht (by decide)).symm ▸ Builtin.length_mid ht
    rcases xs with _ | ⟨x, _ | ⟨y, _ | ⟨z, _ | ⟨w, xs⟩⟩⟩⟩
    · exact .broken _ fun tys ht => by rcases hlength tys ht with h | h <;> simp [h]
    · exact .broken _ fun tys ht => by rcases hlength tys ht with h | h <;> simp [h]
    · exact .pure _
    · exact .pure _
    · exact .broken _ fun tys ht => by rcases hlength tys ht with h | h <;> simp [h]
  | inkey => exact Runs.wait.map _
  | other name => exact .broken _ fun tys ht => ht.elim
  | _ => exact .pure _

end Emit

/-! ## Expressions -/

/-- The code of an operation from that of its operands. -/
def BinaryOp.code (op : BinaryOp) (x y : Js.Expr) : Js.Expr :=
  match op with
  | intDiv => Emit.math "trunc" [Emit.operation .div x y]
  | pow => Emit.math "pow" [x, y]
  | op =>
    match op.comparison?, op.direct? with
    | some c, _ => .truth c (Emit.compared x) (Emit.compared y)
    | none, some o => Emit.operation o x y
    | none, none => .array [x, y]

/-- The code of an operation from that of its operand `e`. -/
def UnaryOp.code (op : UnaryOp) (e : Expr) (x : Js.Expr) : Js.Expr :=
  match op with
  | plus => x
  | neg => .unary .neg (x.atLeast (if e.isUnary then Js.Strength.atom else Js.Strength.unary).rank)
  | not => .unary .bitNot (x.atLeast Js.Strength.unary.rank)
  | other _ => .array [x]

/-- An octal number is warned about. -/
def numberEffects (radix : Radix) (text : String) : List Effect :=
  match Js.octal? radix text with
  | some (written, used) => [.warn (.octalNumber written used)]
  | none => []

namespace Expr

mutual

/-- **The code of an expression** in a mode. -/
def code (μ : Mode) : Expr → Js.Expr
  | number radix text _ => .atom (Js.numberLiteral radix text)
  | string value => .atom (Js.quote value)
  | var name => .atom (Js.identifier name)
  | index name is => .element (Js.identifier name) (codes μ is)
  | paren e => (e.code μ).atLeast Js.Strength.atom.rank
  | unary op e => op.code e (e.code μ)
  | binary op l r => op.code (l.code μ) (r.code μ)
  | call f args => f.code μ.deg ((codes μ args).take (f.taken args.length))
  | fn name args =>
    let call := .call (Js.identifier name) (codes μ args)
    if μ.asyncFns.contains (Js.identifier name) then .unary .await call else call
  | missing => .atom ""

/-- The code of each member of a list. -/
def codes (μ : Mode) : List Expr → List Js.Expr
  | [] => []
  | e :: es => e.code μ :: codes μ es

end

mutual

/-- **The effects of the code of an expression** in a mode. -/
def effects (μ : Mode) : Expr → List Effect
  | number radix text _ => numberEffects radix text
  | string _ => []
  | var name => [.mention name (.ofName name)]
  | index name is => .mention name .array :: (effectsOf μ is).flatten
  | paren e => e.effects μ
  | unary _ e => e.effects μ
  | binary _ l r => l.effects μ ++ r.effects μ
  | call f args =>
    f.helper?.toList.map .helper ++ ((effectsOf μ args).take (f.taken args.length)).flatten ++ f.effects μ.deg
  | fn name args => (effectsOf μ args).flatten ++ if μ.asyncFns.contains (Js.identifier name) then [.wait] else []
  | missing => []

/-- The effects of each member of a list. -/
def effectsOf (μ : Mode) : List Expr → List (List Effect)
  | [] => []
  | e :: es => e.effects μ :: effectsOf μ es

end

variable (μ : Mode)

theorem codes_eq (es : List Expr) : codes μ es = es.map (code μ) := by
  induction es with
  | nil => rfl
  | cons e es ih => rw [codes, ih, List.map_cons]

theorem effectsOf_eq (es : List Expr) : effectsOf μ es = es.map (effects μ) := by
  induction es with
  | nil => rfl
  | cons e es ih => rw [effectsOf, ih, List.map_cons]

theorem code_index (name : String) (is : List Expr) :
    (index name is).code μ = .element (Js.identifier name) (is.map (code μ)) := by rw [code, codes_eq]

theorem code_call (f : Builtin) (args : List Expr) :
    (call f args).code μ = f.code μ.deg ((args.take (f.taken args.length)).map (code μ)) := by
  rw [code, codes_eq, List.map_take]

theorem code_fn (name : String) (args : List Expr) :
    (fn name args).code μ = if μ.asyncFns.contains (Js.identifier name) then
      .unary .await (.call (Js.identifier name) (args.map (code μ)))
    else .call (Js.identifier name) (args.map (code μ)) := by rw [code, codes_eq]

theorem effects_index (name : String) (is : List Expr) :
    (index name is).effects μ = .mention name .array :: is.flatMap (effects μ) := by
  rw [effects, effectsOf_eq, List.flatMap_def]

theorem effects_call (f : Builtin) (args : List Expr) :
    (call f args).effects μ = f.helper?.toList.map .helper ++
      (args.take (f.taken args.length)).flatMap (effects μ) ++ f.effects μ.deg := by
  rw [effects, effectsOf_eq, ← List.map_take, List.flatMap_def]

theorem effects_fn (name : String) (args : List Expr) : (fn name args).effects μ =
    args.flatMap (effects μ) ++ if μ.asyncFns.contains (Js.identifier name) then [.wait] else [] := by
  rw [effects, effectsOf_eq, List.flatMap_def]

/-- The code of a condition, which stays a comparison. -/
def conditionCode (e : Expr) : Js.Expr :=
  match e.bare with
  | binary op l r =>
    match op.comparison? with
    | some c => .compare c (Emit.compared (l.code μ)) (Emit.compared (r.code μ))
    | none => op.code (l.code μ) (r.code μ)
  | e => e.code μ

theorem effects_bare (e : Expr) : e.bare.effects μ = e.effects μ := by
  fun_induction Expr.bare e with
  | case1 e ih => rw [ih, effects]
  | case2 => rfl

end Expr

namespace Emit

variable {μ : Mode} {E : Prop}

theorem number_runs (radix : Radix) (text : String) :
    Runs (number radix text) μ (Js.numberLiteral radix text) (numberEffects radix text) E := by
  intro t _
  unfold number numberEffects
  cases Js.octal? radix text <;> exact ⟨rfl, rfl⟩

theorem exprs_runs {es : List Expr} (h : ∀ e ∈ es, Runs (expr e) μ (e.code μ) (e.effects μ) E) :
    Runs (exprs es) μ (es.map (Expr.code μ)) (es.flatMap (Expr.effects μ)) E := by
  induction es with
  | nil => exact .pure _
  | cons e es ih =>
    obtain ⟨he, hes⟩ := List.forall_mem_cons.1 h
    rw [exprs]
    exact he.bind ((ih hes).map _)

theorem firsts_runs {es : List Expr} (h : ∀ e ∈ es, Runs (expr e) μ (e.code μ) (e.effects μ) E) {n : Nat}
    (hn : es.length < n → E) :
    Runs (firsts n es) μ ((es.take n).map (Expr.code μ)) ((es.take n).flatMap (Expr.effects μ)) E := by
  induction es generalizing n with
  | nil =>
    cases n with
    | zero => exact .pure _
    | succ n => exact .broken _ (hn (Nat.succ_pos n))
  | cons e es ih =>
    cases n with
    | zero => exact .pure _
    | succ n =>
      obtain ⟨he, hes⟩ := List.forall_mem_cons.1 h
      rw [firsts]
      exact he.bind ((ih hes fun hlt => hn (Nat.succ_lt_succ hlt)).map _)

/-- A call fails only if its arguments do or are not those that the function takes. -/
theorem call_runs {f : Builtin} {args : List Expr}
    (h : ∀ e ∈ args, Runs (expr e) μ (e.code μ) (e.effects μ) (¬ (Expr.call f args).WellFormed)) :
    Runs (expr (.call f args)) μ ((Expr.call f args).code μ) ((Expr.call f args).effects μ)
      (¬ (Expr.call f args).WellFormed) := by
  have htakes : (Expr.call f args).WellFormed → f.Takes (args.map Expr.type) := fun hw => hw.types _ .self
  by_cases hother : ∃ name, f = .other name
  · obtain ⟨name, rfl⟩ := hother
    rw [expr]
    exact .refuse _ htakes
  have hle : (Expr.call f args).WellFormed → f.taken args.length ≤ args.length := fun hw => by
    have := Builtin.taken_le (htakes hw)
    rwa [List.length_map] at this
  have hcall := (firsts_runs h fun hlt hw => absurd (hle hw) (Nat.not_le.2 hlt)).bind
    ((builtin_runs f ((args.take (f.taken args.length)).map (Expr.code μ))).mono fun hne hw =>
      hne _ (htakes hw) (by simp [hle hw]))
  rw [expr_call (fun name hf => hother ⟨name, hf⟩), Expr.code_call, Expr.effects_call, List.append_assoc]
  cases f.helper? with
  | none => exact hcall
  | some name => exact (Runs.helper name).bind hcall

/-- **The code of an expression**, which only fails to exist if the expression is not well formed. -/
theorem expr_runs (e : Expr) : Runs (expr e) μ (e.code μ) (e.effects μ) (¬ e.WellFormed) := by
  induction e using Expr.induct with
  | number radix text line =>
    rw [expr]
    exact (number_runs radix text).map _
  | string value =>
    rw [expr]
    exact .pure _
  | var name =>
    rw [expr]
    exact (Runs.mention name (.ofName name)).map _
  | index name is ih =>
    rw [expr, Expr.code_index, Expr.effects_index]
    exact (Runs.mention name .array).bind
      ((exprs_runs fun e he => (ih e he).mono fun hn hw => hn (hw.child he)).map _)
  | paren e ih =>
    rw [expr]
    exact (ih.mono fun hn hw => hn (hw.child (by simp [Expr.children]))).map _
  | unary op e ih =>
    have he := ih.mono fun hn (hw : (Expr.unary op e).WellFormed) => hn (hw.child (by simp [Expr.children]))
    cases op with
    | plus => rw [expr]; exact he
    | neg => rw [expr]; exact he.map _
    | not => rw [expr]; exact he.map _
    | other text => rw [expr]; exact .refuse _ fun hw => hw.types _ .self
  | binary op l r hl hr =>
    have hboth : ∀ k : Js.Expr → Js.Expr → Js.Expr, Runs (do let x ← expr l; let y ← expr r; pure (k x y)) μ
        (k (l.code μ) (r.code μ)) (l.effects μ ++ r.effects μ) (¬ (Expr.binary op l r).WellFormed) := fun k =>
      (hl.mono fun hn hw => hn (hw.child (by simp [Expr.children]))).bind
        ((hr.mono fun hn hw => hn (hw.child (by simp [Expr.children]))).map (k _))
    cases op with
    | other text => simp only [expr]; exact .refuse _ fun hw => hw.types _ .self
    | _ => simp only [expr, BinaryOp.comparison?, BinaryOp.direct?]; exact hboth _
  | call f args ih => exact call_runs fun e he => (ih e he).mono fun hn hw => hn (hw.child he)
  | fn name args ih =>
    rw [expr, Expr.code_fn, Expr.effects_fn]
    refine (exprs_runs fun e he => (ih e he).mono fun hn hw => hn (hw.child he)).bind ?_
    rintro t rfl
    rw [ends_bind, ends_get, show t.asyncFns = t.mode.asyncFns from rfl]
    split <;> exact ⟨rfl, rfl⟩
  | missing =>
    rw [expr]
    exact .refuse _ fun hw => hw.types _ .self

/-- **The code of a condition.** -/
theorem condition_runs (e : Expr) : Runs (condition e) μ (e.conditionCode μ) (e.effects μ) (¬ e.WellFormed) := by
  have hbare : ∀ {e' : Expr}, e.bare = e' →
      Runs (expr e') μ (e'.code μ) (e.effects μ) (¬ e.WellFormed) := by
    rintro e' rfl
    rw [← e.effects_bare]
    exact (expr_runs _).mono fun hn hw => hn hw.bare
  unfold condition Expr.conditionCode
  cases hb : e.bare with
  | binary op l r =>
    have hw : e.WellFormed → (Expr.binary op l r).WellFormed := fun hw => hb ▸ hw.bare
    dsimp only
    cases hop : op.comparison? with
    | none => exact hbare hb
    | some c =>
      rw [← e.effects_bare, hb, Expr.effects]
      exact ((expr_runs l).mono fun hn h => hn ((hw h).child (by simp [Expr.children]))).bind
        (((expr_runs r).mono fun hn h => hn ((hw h).child (by simp [Expr.children]))).map _)
  | _ => exact hbare hb

/-- **The code of a place that is written to.** -/
theorem target_runs (e : Expr) : Runs (target e) μ (e.code μ) (e.effects μ) (¬ (e.IsPlace ∧ e.WellFormed)) := by
  have hcode : Runs (expr e) μ (e.code μ) (e.effects μ) (¬ (e.IsPlace ∧ e.WellFormed)) :=
    (expr_runs e).mono fun hn h => hn h.2
  cases e with
  | var name => exact hcode
  | index name is => exact hcode
  | _ => exact .refuse _ fun h => h.1

end Emit

end Locomotive
