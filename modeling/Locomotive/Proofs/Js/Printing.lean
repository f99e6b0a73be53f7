import Locomotive.Proofs.Js.Unambiguous

/-!
# Code that is read as it was meant

`Denotes x t` says that the code `x` has parentheses wherever its operators need them and
that it is the tree `t` without them. Such code is lexed into its own words and signs,
whatever stands before it (`Prints.lexes`), and is read at the level of its own binding
strength as the tree it denotes (`Prints.reads`).

* `Denotes.reading_iff`: the text of such code has one reading, the tree it denotes.
-/

namespace Locomotive.Js

/-- The level that reads code of a binding strength. -/
def Strength.level : Strength → Level
  | or => .or
  | xor => .xor
  | and => .and
  | add => .sum
  | mul => .product
  | unary => .sign
  | atom => .member

/-- The code starts with a minus sign. -/
def Expr.minusFirst : Expr → Bool
  | unary .neg _ => true
  | binary _ l _ => l.minusFirst
  | _ => false

/-- The code has the parentheses that it needs and denotes the tree. -/
inductive Denotes : Expr → Tree → Prop
  | atom {s : String} : Denotes (.atom s) (.word s)
  | element {a : String} {is : List (Expr × Tree)} : (∀ i ∈ is, Denotes i.1 i.2) →
    Denotes (.element a (is.map Prod.fst)) ((is.map Prod.snd).foldl .index (.word a))
  | call {f : String} {args : List (Expr × Tree)} : (∀ a ∈ args, Denotes a.1 a.2) →
    Denotes (.call f (args.map Prod.fst)) (.call (.word f) (args.map Prod.snd))
  | method {r : Expr} {t : Tree} {name : String} {args : List (Expr × Tree)} : Denotes r t →
    r.strength = .atom → (∀ a ∈ args, Denotes a.1 a.2) →
    Denotes (.method r name (args.map Prod.fst)) (.call (.member t name) (args.map Prod.snd))
  | property {r : Expr} {t : Tree} {name : String} : Denotes r t → r.strength = .atom →
    Denotes (.property r name) (.member t name)
  | unary {op : UnaryOp} {x : Expr} {t : Tree} : Denotes x t →
    Strength.unary.rank ≤ x.strength.rank → (op = .neg → x.minusFirst = false) →
    Denotes (.unary op x) (.unary op t)
  | binary {op : BinaryOp} {l r : Expr} {tl tr : Tree} : Denotes l tl → Denotes r tr →
    op.strength.rank ≤ l.strength.rank → op.strength.rank < r.strength.rank →
    Denotes (.binary op l r) (.binary (.arith op) tl tr)
  | truth {op : Comparison} {l r : Expr} {tl tr : Tree} : Denotes l tl → Denotes r tr →
    Strength.add.rank ≤ l.strength.rank → Strength.add.rank ≤ r.strength.rank →
    Denotes (.truth op l r)
      (.choice (.binary (.compare op) tl tr) (.unary .neg (.word "1")) (.word "0"))
  | paren {x : Expr} {t : Tree} : Denotes x t → Denotes (.paren x) t

/-- Each code of a list denotes the tree at its place. -/
inductive DenotesAll : List Expr → List Tree → Prop
  | nil : DenotesAll [] []
  | cons {x : Expr} {t : Tree} {xs : List Expr} {ts : List Tree} : Denotes x t → DenotesAll xs ts →
    DenotesAll (x :: xs) (t :: ts)

namespace DenotesAll

variable {xs : List Expr} {ts : List Tree}

theorem one {x : Expr} {t : Tree} (h : Denotes x t) : DenotesAll [x] [t] := .cons h .nil

theorem pairs (h : DenotesAll xs ts) :
    ∃ ps : List (Expr × Tree), ps.map Prod.fst = xs ∧ ps.map Prod.snd = ts ∧ ∀ p ∈ ps, Denotes p.1 p.2 := by
  induction h with
  | nil => exact ⟨[], rfl, rfl, by simp⟩
  | @cons x t _ _ hx _ ih =>
    obtain ⟨ps, rfl, rfl, hps⟩ := ih
    exact ⟨(x, t) :: ps, rfl, rfl, List.forall_mem_cons.2 ⟨hx, hps⟩⟩

theorem length_eq (h : DenotesAll xs ts) : xs.length = ts.length := by
  obtain ⟨ps, rfl, rfl, -⟩ := h.pairs
  simp

theorem eq_nil (h : DenotesAll xs ts) (hl : xs.length = 0) : xs = [] ∧ ts = [] := by
  cases h with
  | nil => exact ⟨rfl, rfl⟩
  | cons => cases hl

theorem eq_cons (h : DenotesAll xs ts) {n : Nat} (hl : xs.length = n + 1) : ∃ x xs' t ts', xs = x :: xs' ∧
    ts = t :: ts' ∧ Denotes x t ∧ DenotesAll xs' ts' ∧ xs'.length = n := by
  cases h with
  | nil => cases hl
  | cons hx hr => exact ⟨_, _, _, _, rfl, rfl, hx, hr, by simpa using hl⟩

theorem eq_singleton (h : DenotesAll xs ts) (hl : xs.length = 1) : ∃ x t, xs = [x] ∧ ts = [t] ∧ Denotes x t := by
  obtain ⟨x, xs, t, ts, rfl, rfl, hx, hr, hl⟩ := h.eq_cons hl
  obtain ⟨rfl, rfl⟩ := hr.eq_nil hl
  exact ⟨x, t, rfl, rfl, hx⟩

theorem element (h : DenotesAll xs ts) (a : String) : Denotes (.element a xs) (ts.foldl .index (.word a)) := by
  obtain ⟨ps, rfl, rfl, hps⟩ := h.pairs
  exact .element hps

theorem call (h : DenotesAll xs ts) (f : String) : Denotes (.call f xs) (.call (.word f) ts) := by
  obtain ⟨ps, rfl, rfl, hps⟩ := h.pairs
  exact .call hps

theorem method (h : DenotesAll xs ts) {r : Expr} {t : Tree} (hr : Denotes r t) (hs : r.strength = .atom)
    (name : String) : Denotes (.method r name xs) (.call (.member t name) ts) := by
  obtain ⟨ps, rfl, rfl, hps⟩ := h.pairs
  exact .method hr hs hps

end DenotesAll

/-- Parentheses change nothing. -/
theorem Denotes.atLeast {x : Expr} {t : Tree} (h : Denotes x t) (rank : Nat) : Denotes (x.atLeast rank) t := by
  unfold Expr.atLeast
  split
  · exact .paren h
  · exact h

theorem Expr.rank_atLeast (x : Expr) {rank : Nat} (h : rank ≤ Strength.atom.rank) :
    rank ≤ (x.atLeast rank).strength.rank := by
  unfold Expr.atLeast
  split
  · exact h
  · omega

/-- Nothing binds tighter than an atom. -/
theorem Expr.strength_atLeast_atom (x : Expr) : (x.atLeast Strength.atom.rank).strength = .atom := by
  have h := x.rank_atLeast (Nat.le_refl Strength.atom.rank)
  revert h
  cases (x.atLeast Strength.atom.rank).strength <;> decide

/-! ## Lexing piece by piece -/

/-- With `p` pending, a text adds the lexemes `u` and leaves `q` pending. -/
def Lexes (p : Pending) (ss : List Symbol) (u : List Lexeme) (q : Pending) : Prop :=
  ∃ done, p.run ss = some (done, q) ∧ done ++ q.lexemes = p.lexemes ++ u

theorem Pending.run_append (p : Pending) (a b : List Symbol) :
    p.run (a ++ b) = (p.run a).bind fun d => (d.2.run b).map fun e => (d.1 ++ e.1, e.2) := by
  induction a generalizing p with
  | nil => simp [run]
  | cons s ss ih =>
    simp only [List.cons_append, run]
    cases p.step s with
    | none => rfl
    | some d =>
      simp only [Option.bind_eq_bind, Option.bind_some, ih]
      cases d.2.run ss with
      | none => rfl
      | some e =>
        cases hb : e.2.run b with
        | none => simp [hb]
        | some f => simp [hb]

theorem Lexes.append {p q r : Pending} {a b : List Symbol} {u v : List Lexeme} (h : Lexes p a u q)
    (h' : Lexes q b v r) : Lexes p (a ++ b) (u ++ v) r := by
  obtain ⟨d, hd, he⟩ := h
  obtain ⟨d', hd', he'⟩ := h'
  refine ⟨d ++ d', ?_, ?_⟩
  · rw [Pending.run_append, hd]; simp [hd']
  · rw [List.append_assoc, he', ← List.append_assoc, he, List.append_assoc]

theorem lexes_nil (p : Pending) : Lexes p [] [] p := ⟨[], rfl, by simp⟩

theorem lex_of_lexes {ss : List Symbol} {u : List Lexeme} {q : Pending} (h : Lexes .nothing ss u q) :
    lex ss = some u := by
  obtain ⟨d, hd, he⟩ := h
  simp only [lex, hd]
  simpa [Pending.lexemes] using he

namespace Pending

/-- No word is pending, so a word may follow. -/
def Free (p : Pending) : Prop := p = nothing ∨ ∃ cs, p = sign cs

/-- What is pending after an operand. -/
def Closed (p : Pending) : Prop := (∃ text, p = word text) ∨ p = sign [')'] ∨ p = sign [']']

/-- What may be pending before an operand: a minus sign only if the operand has no other. -/
def Ready (p : Pending) (minus : Bool) : Prop :=
  p = nothing ∨ p = sign ['('] ∨ p = sign ['['] ∨ p = sign ['~'] ∨ (p = sign ['-'] ∧ minus = false)

theorem Ready.free {p : Pending} {minus : Bool} (h : p.Ready minus) : p.Free := by
  rcases h with rfl | rfl | rfl | rfl | ⟨rfl, -⟩
  · exact .inl rfl
  all_goals exact .inr ⟨_, rfl⟩

end Pending

theorem lexes_word {p : Pending} (hp : p.Free) (text : String) :
    Lexes p [.word text] [.word text] (.word text) := by
  rcases hp with rfl | ⟨cs, rfl⟩ <;> exact ⟨_, rfl, by simp [Pending.lexemes]⟩

theorem lexes_space (p : Pending) : Lexes p (plain " ") [] .nothing := by
  cases p <;> exact ⟨_, rfl, by simp [Pending.lexemes]⟩

theorem lexes_await {p : Pending} (hp : p.Free) : Lexes p (plain "await ") [.await] .nothing := by
  rcases hp with rfl | ⟨cs, rfl⟩ <;> exact ⟨_, rfl, rfl⟩

/-- A minus sign before an operand. -/
theorem lexes_minus {p : Pending} (hp : p.Ready true) : Lexes p (plain "-") [.sign ['-']] (.sign ['-']) := by
  rcases hp with rfl | rfl | rfl | rfl | ⟨-, h⟩
  any_goals exact ⟨_, rfl, rfl⟩
  cases h

theorem lexes_tilde {p : Pending} (hp : p.Ready false) : Lexes p (plain "~") [.sign ['~']] (.sign ['~']) := by
  rcases hp with rfl | rfl | rfl | rfl | ⟨rfl, -⟩ <;> exact ⟨_, rfl, rfl⟩

theorem lexes_open {p : Pending} (hp : p.Ready false) : Lexes p (plain "(") [.sign ['(']] (.sign ['(']) := by
  rcases hp with rfl | rfl | rfl | rfl | ⟨rfl, -⟩ <;> exact ⟨_, rfl, rfl⟩

/-- A sign after an operand. -/
theorem lexes_after {p : Pending} (hp : p.Closed) {c : Char} (hc : c ∈ ['(', ')', '[', ']', '.', ',']) :
    Lexes p [.char c] [.sign [c]] (.sign [c]) := by
  simp only [List.mem_cons, List.not_mem_nil, or_false] at hc
  rcases hp with ⟨text, rfl⟩ | rfl | rfl <;> rcases hc with rfl | rfl | rfl | rfl | rfl | rfl <;>
    exact ⟨_, rfl, rfl⟩

theorem lexes_operator (op : Operator) :
    Lexes .nothing (op.chars.map .char) [.sign op.chars] (.sign op.chars) := by
  rcases op with op | op <;> cases op <;> exact ⟨_, rfl, rfl⟩

/-- An operator with a space on either side. -/
theorem lexes_spaced {p : Pending} (op : Operator) :
    Lexes p (plain " " ++ op.chars.map .char ++ plain " ") [.sign op.chars] .nothing := by
  have h := ((lexes_space p).append (lexes_operator op)).append (lexes_space _)
  simpa using h

/-! ## Reading at the level of the binding strength -/

/-- What a level reads, every looser one reads. -/
theorem Reads.lift {l l' : Level} {u : List Lexeme} {t : Tree} (h : Reads l u t) (hr : l.rank ≤ l'.rank) :
    Reads l' u t := by
  induction hn : l'.rank - l.rank generalizing l' with
  | zero =>
    obtain rfl : l = l' := by
      have : l.rank = l'.rank := by omega
      revert this; cases l <;> cases l' <;> decide
    exact h
  | succ n ih =>
    have hlt : l'.tighter.rank + 1 = l'.rank := by
      have : l'.rank ≠ 0 := by omega
      revert this; cases l' <;> decide
    exact .looser (ih (by omega) (by omega))

namespace Strength

theorem level_rank_le {s s' : Strength} (h : s.rank ≤ s'.rank) : s'.level.rank ≤ s.level.rank := by
  revert h; cases s <;> cases s' <;> decide

theorem level_rank_whole (s : Strength) : s.level.rank ≤ Level.whole.rank := by cases s <;> decide

end Strength

/-- The right operand of an operator is read by the next tighter level. -/
theorem BinaryOp.right_rank {op : BinaryOp} {s : Strength} (h : op.strength.rank < s.rank) :
    s.level.rank ≤ (Operator.arith op).level.tighter.rank := by
  revert h; cases op <;> cases s <;> decide

theorem BinaryOp.level_strength (op : BinaryOp) : op.strength.level = (Operator.arith op).level := by
  cases op <;> rfl

/-- The code is lexed as `u`, and `u` is read as the tree `t`. -/
structure Prints (x : Expr) (t : Tree) (u : List Lexeme) : Prop where
  lexes : ∀ p : Pending, p.Ready x.minusFirst → ∃ q : Pending, q.Closed ∧ Lexes p x.symbols u q
  reads : Reads x.strength.level u t

namespace Prints

variable {x : Expr} {t : Tree} {u : List Lexeme}

theorem whole (h : Prints x t u) : Reads .whole u t := h.reads.lift (Strength.level_rank_whole _)

/-- Code at the front of a text or after a space. -/
theorem lexes_nothing (h : Prints x t u) : ∃ q : Pending, q.Closed ∧ Lexes .nothing x.symbols u q :=
  h.lexes _ (.inl rfl)

end Prints

/-- A list of codes with what each is lexed as and denotes. -/
theorem prints_list {args : List (Expr × Tree)} (h : ∀ a ∈ args, ∃ u, Prints a.1 a.2 u) :
    ∃ ws : List (List Lexeme × Tree), ws.map Prod.snd = args.map Prod.snd ∧
      (∀ w ∈ ws, Reads .whole w.1 w.2) ∧
      ∀ p : Pending, (∀ minus, p.Ready minus) → ∃ q : Pending, (args = [] ∧ q = p ∨ q.Closed) ∧
        Lexes p (Expr.listSymbols (args.map Prod.fst)) (commas (ws.map Prod.fst)) q := by
  induction args with
  | nil => exact ⟨[], rfl, by simp, fun p _ => ⟨p, .inl ⟨rfl, rfl⟩, lexes_nil p⟩⟩
  | cons a as ih =>
    obtain ⟨u, hu⟩ := h a (by simp)
    obtain ⟨ws, hws, hr, hl⟩ := ih fun b hb => h b (by simp [hb])
    refine ⟨(u, a.2) :: ws, by simp [hws], ?_, ?_⟩
    · intro w hw
      rcases List.mem_cons.1 hw with rfl | hw
      · exact hu.whole
      · exact hr w hw
    · intro p hp
      obtain ⟨q, hq, hlu⟩ := hu.lexes p (hp _)
      cases as with
      | nil =>
        obtain rfl : ws = [] := by simpa using hws
        exact ⟨q, .inr hq, hlu⟩
      | cons b bs =>
        obtain ⟨w, ws, rfl⟩ : ∃ w ws', ws = w :: ws' := by cases ws with
          | nil => simp at hws
          | cons w ws => exact ⟨w, ws, rfl⟩
        obtain ⟨q', hq', hl'⟩ := hl .nothing fun _ => .inl rfl
        have hcomma := ((lexes_after hq (c := ',') (by simp)).append (lexes_space _)).append hl'
        refine ⟨q', .inr (hq'.resolve_left (by simp)), ?_⟩
        have := hlu.append hcomma
        simpa [Expr.listSymbols, commas, plain] using this

/-- Arguments in parentheses after a name. -/
theorem prints_arguments {args : List (Expr × Tree)} (h : ∀ a ∈ args, ∃ u, Prints a.1 a.2 u) :
    ∃ ws : List (List Lexeme × Tree), ws.map Prod.snd = args.map Prod.snd ∧
      (∀ w ∈ ws, Reads .whole w.1 w.2) ∧
      ∀ f, Lexes (.word f) (plain "(" ++ Expr.listSymbols (args.map Prod.fst) ++ plain ")")
        (.sign ['('] :: (commas (ws.map Prod.fst) ++ [.sign [')']])) (.sign [')']) := by
  obtain ⟨ws, hws, hr, hl⟩ := prints_list h
  refine ⟨ws, hws, hr, fun f => ?_⟩
  obtain ⟨q, hq, hl⟩ := hl (.sign ['(']) fun _ => .inr (.inl rfl)
  have hopen : Lexes (.word f) (plain "(") [.sign ['(']] (.sign ['(']) :=
    lexes_after (c := '(') (.inl ⟨f, rfl⟩) (by simp)
  have hclose : Lexes q (plain ")") [.sign [')']] (.sign [')']) := by
    rcases hq with ⟨-, rfl⟩ | hq
    · exact ⟨_, rfl, rfl⟩
    · exact lexes_after (c := ')') hq (by simp)
  simpa using (hopen.append hl).append hclose

/-- Indices in brackets after an operand. -/
theorem prints_indices {is : List (Expr × Tree)} (h : ∀ i ∈ is, ∃ u, Prints i.1 i.2 u) :
    ∃ c, (∀ {u : List Lexeme} {t : Tree}, Reads .member u t →
        Reads .member (u ++ c) ((is.map Prod.snd).foldl .index t)) ∧
      ∀ p : Pending, p.Closed → ∃ q : Pending, q.Closed ∧
        Lexes p (Expr.bracketedSymbols (is.map Prod.fst)) c q := by
  induction is with
  | nil => exact ⟨[], fun h => by simpa using h, fun p hp => ⟨p, hp, lexes_nil p⟩⟩
  | cons i is ih =>
    obtain ⟨w, hw⟩ := h i (by simp)
    obtain ⟨c, hr, hl⟩ := ih fun j hj => h j (by simp [hj])
    refine ⟨.sign ['['] :: (w ++ [.sign [']']]) ++ c, ?_, ?_⟩
    · intro u t hu
      have := hr (hu.index hw.whole)
      simpa using this
    · intro p hp
      obtain ⟨q, hq, hlw⟩ := hw.lexes (.sign ['[']) (.inr (.inr (.inl rfl)))
      obtain ⟨q', hq', hl'⟩ := hl (.sign [']']) (.inr (.inr rfl))
      refine ⟨q', hq', ?_⟩
      have hopen := lexes_after hp (c := '[') (by simp)
      have hclose := lexes_after hq (c := ']') (by simp)
      simpa [Expr.bracketedSymbols, plain] using ((hopen.append hlw).append hclose).append hl'

/-- Code of the strength of an atom does not start with a minus sign. -/
theorem Expr.minusFirst_atom {x : Expr} (h : x.strength = .atom) : x.minusFirst = false := by
  cases x with
  | unary op x => cases h
  | binary op l r => cases op <;> cases h
  | _ => rfl

/-- Two operands and the operator between them. -/
theorem prints_operands {l r : Expr} {tl tr : Tree} {ul ur : List Lexeme} (hl : Prints l tl ul)
    (hr : Prints r tr ur) (op : Operator) (p : Pending) (hp : p.Ready l.minusFirst) :
    ∃ q : Pending, q.Closed ∧
      Lexes p (l.symbols ++ plain " " ++ op.chars.map .char ++ plain " " ++ r.symbols)
        (ul ++ .sign op.chars :: ur) q := by
  obtain ⟨q, -, hlu⟩ := hl.lexes p hp
  obtain ⟨q', hq', hru⟩ := hr.lexes_nothing
  refine ⟨q', hq', ?_⟩
  simpa using (hlu.append (lexes_spaced op)).append hru

/-- Operands of a comparison bind at least as tight as sums. -/
theorem prints_compare {l r : Expr} {tl tr : Tree} {ul ur : List Lexeme} (hl : Prints l tl ul)
    (hr : Prints r tr ur) (hsl : Strength.add.rank ≤ l.strength.rank)
    (hsr : Strength.add.rank ≤ r.strength.rank) (op : Comparison) :
    Reads .comparison (ul ++ .sign (Operator.compare op).chars :: ur) (.binary (.compare op) tl tr) := by
  have hleft : Reads (Operator.compare op).level ul tl :=
    hl.reads.lift (Nat.le_trans (Strength.level_rank_le hsl) (show 3 ≤ 4 by decide))
  have hright : Reads (Operator.compare op).level.tighter ur tr := hr.reads.lift (Strength.level_rank_le hsr)
  exact .binary hleft hright

/-- **Code is lexed and read as it was meant.** -/
theorem Denotes.prints {x : Expr} {t : Tree} (h : Denotes x t) : ∃ u, Prints x t u := by
  induction h with
  | @atom s =>
    exact ⟨[.word s], fun p hp => ⟨.word s, .inl ⟨s, rfl⟩, lexes_word hp.free s⟩, .word⟩
  | @element a is _ ih =>
    obtain ⟨c, hr, hl⟩ := prints_indices ih
    refine ⟨[.word a] ++ c, fun p hp => ?_, hr .word⟩
    obtain ⟨q, hq, hlc⟩ := hl (.word a) (.inl ⟨a, rfl⟩)
    exact ⟨q, hq, (lexes_word hp.free a).append hlc⟩
  | @call f args _ ih =>
    obtain ⟨ws, hws, hr, hl⟩ := prints_arguments ih
    refine ⟨_, fun p hp => ⟨_, .inr (.inl rfl), (lexes_word hp.free f).append (hl f)⟩, ?_⟩
    rw [← hws]; exact .call .word hr
  | @method r t name args _ hatom _ ihr ih =>
    obtain ⟨u, hu⟩ := ihr
    obtain ⟨ws, hws, hr, hl⟩ := prints_arguments ih
    refine ⟨(u ++ [.sign ['.'], .word name]) ++ .sign ['('] :: (commas (ws.map Prod.fst) ++ [.sign [')']]),
      fun p hp => ⟨_, .inr (.inl rfl), ?_⟩, ?_⟩
    · obtain ⟨q, hq, hlu⟩ := hu.lexes p (by rw [Expr.minusFirst_atom hatom]; exact hp)
      have hdot := lexes_after hq (c := '.') (by simp)
      have hname := lexes_word (p := .sign ['.']) (.inr ⟨_, rfl⟩) name
      simpa [Expr.symbols, plain] using ((hlu.append hdot).append hname).append (hl name)
    · have hread := hu.reads
      rw [hatom] at hread
      rw [← hws]; exact .call (.member hread) hr
  | @property r t name _ hatom ih =>
    obtain ⟨u, hu⟩ := ih
    refine ⟨u ++ [.sign ['.'], .word name], fun p hp => ⟨.word name, .inl ⟨name, rfl⟩, ?_⟩, ?_⟩
    · obtain ⟨q, hq, hlu⟩ := hu.lexes p (by rw [Expr.minusFirst_atom hatom]; exact hp)
      have hdot := lexes_after hq (c := '.') (by simp)
      have hname := lexes_word (p := .sign ['.']) (.inr ⟨_, rfl⟩) name
      simpa [Expr.symbols, plain] using (hlu.append hdot).append hname
    · have hread := hu.reads
      rw [hatom] at hread
      exact .member hread
  | @unary op x t _ hs hm ih =>
    -- two minus signs in a row would be lexed as one sign, so the operand starts with none
    obtain ⟨u, hu⟩ := ih
    refine ⟨op.lexeme :: u, fun p hp => ?_, .unary (hu.reads.lift (Strength.level_rank_le hs))⟩
    cases op with
    | neg =>
      obtain ⟨q, hq, hlu⟩ := hu.lexes (.sign ['-']) (by rw [hm rfl]; exact .inr (.inr (.inr (.inr ⟨rfl, rfl⟩))))
      exact ⟨q, hq, (lexes_minus hp).append hlu⟩
    | bitNot =>
      obtain ⟨q, hq, hlu⟩ := hu.lexes (.sign ['~']) (.inr (.inr (.inr (.inl rfl))))
      exact ⟨q, hq, (lexes_tilde hp).append hlu⟩
    | await =>
      obtain ⟨q, hq, hlu⟩ := hu.lexes_nothing
      exact ⟨q, hq, (lexes_await hp.free).append hlu⟩
  | @binary op l r tl tr _ _ hsl hsr ihl ihr =>
    obtain ⟨ul, hl⟩ := ihl
    obtain ⟨ur, hr⟩ := ihr
    refine ⟨ul ++ .sign (Operator.arith op).chars :: ur, fun p hp => prints_operands hl hr (.arith op) p hp, ?_⟩
    have hleft := hl.reads.lift (Strength.level_rank_le hsl)
    rw [op.level_strength] at hleft
    show Reads op.strength.level _ _
    rw [op.level_strength]
    exact .binary hleft (hr.reads.lift (BinaryOp.right_rank hsr))
  | @truth op l r tl tr _ _ hsl hsr ihl ihr =>
    obtain ⟨ul, hl⟩ := ihl
    obtain ⟨ur, hr⟩ := ihr
    refine ⟨.sign ['('] :: (((ul ++ .sign (Operator.compare op).chars :: ur) ++ .sign ['?'] ::
      ([.sign ['-'], .word "1"] ++ .sign [':'] :: [.word "0"])) ++ [.sign [')']]), fun p hp => ?_, ?_⟩
    · obtain ⟨q, -, hlr⟩ := prints_operands hl hr (.compare op) (.sign ['(']) (.inr (.inl rfl))
      have hmid : Lexes q (plain " ? -" ++ .word "1" :: plain " : " ++ .word "0" :: plain ")")
          [.sign ['?'], .sign ['-'], .word "1", .sign [':'], .word "0", .sign [')']] (.sign [')']) := by
        have h := (lexes_space q).append (show Lexes .nothing (plain "? -" ++ .word "1" :: plain " : " ++
          .word "0" :: plain ")") [.sign ['?'], .sign ['-'], .word "1", .sign [':'], .word "0", .sign [')']]
          (.sign [')']) from ⟨_, rfl, rfl⟩)
        exact h
      refine ⟨_, .inr (.inl rfl), ?_⟩
      have := ((lexes_open hp).append hlr).append hmid
      simpa [Expr.symbols, Operator.chars, plain] using this
    · have hcmp := prints_compare hl hr hsl hsr op
      have hone : Reads .sign [UnaryOp.neg.lexeme, .word "1"] (.unary .neg (.word "1")) :=
        .unary (.looser .word)
      have hzero : Reads .member [.word "0"] (.word "0") := .word
      exact .paren (.choice (hcmp.lift (by decide)) (hone.lift (by decide)) (hzero.lift (by decide)))
  | @paren x t _ ih =>
    obtain ⟨u, hu⟩ := ih
    refine ⟨.sign ['('] :: (u ++ [.sign [')']]), fun p hp => ⟨_, .inr (.inl rfl), ?_⟩, ?_⟩
    · obtain ⟨q, hq, hlu⟩ := hu.lexes (.sign ['(']) (.inr (.inl rfl))
      simpa [Expr.symbols, plain] using ((lexes_open hp).append hlu).append (lexes_after hq (c := ')') (by simp))
    · exact .paren hu.whole

/-- **The text of such code has one reading, the tree it denotes.** -/
theorem Denotes.reading_iff {x : Expr} {t : Tree} (h : Denotes x t) (t' : Tree) :
    Reading x.symbols t' ↔ t' = t := by
  obtain ⟨u, hu⟩ := h.prints
  obtain ⟨q, -, hl⟩ := hu.lexes_nothing
  have hread : Reading x.symbols t := ⟨u, lex_of_lexes hl, hu.whole⟩
  exact ⟨fun h' => h'.unique hread, fun he => he ▸ hread⟩

/-- **The text of a bare comparison has one reading.** -/
theorem Denotes.compare_reading_iff {l r : Expr} {tl tr : Tree} (hl : Denotes l tl) (hr : Denotes r tr)
    (hsl : Strength.add.rank ≤ l.strength.rank) (hsr : Strength.add.rank ≤ r.strength.rank) (op : Comparison)
    (t' : Tree) : Reading (Expr.compare op l r).symbols t' ↔ t' = .binary (.compare op) tl tr := by
  obtain ⟨ul, hul⟩ := hl.prints
  obtain ⟨ur, hur⟩ := hr.prints
  obtain ⟨q, -, hlex⟩ := prints_operands hul hur (.compare op) .nothing (.inl rfl)
  have hcmp := prints_compare hul hur hsl hsr op
  have hread : Reading (Expr.compare op l r).symbols (.binary (.compare op) tl tr) :=
    ⟨_, lex_of_lexes hlex, hcmp.lift (by decide)⟩
  exact ⟨fun h' => h'.unique hread, fun he => he ▸ hread⟩

end Locomotive.Js
