import Locomotive.Proofs.Js.Grammar

/-!
# The operator grammar is unambiguous

A level stops at a lexeme that cannot go on with what the level has read (`Stops`). From a
given place on, a level reads at most one stretch of lexemes up to a place where it stops,
and reads it as one tree (`uniqueUpTo`). The proof follows the text: the rules that
have the level itself on their left are turned into a first operand and the operators after
it (`Chain`), or into an atom and what follows it (`Tail`).

* `Reads.unique`: a list of lexemes has at most one reading.
-/

namespace Locomotive.Js

/-- The lexeme can go on with what a level has read. -/
def Continues (l : Level) (x : Lexeme) : Prop :=
  x = .sign ['.'] ∨ x = .sign ['['] ∨ x = .sign ['('] ∨
    (∃ op : Operator, op.level.rank ≤ l.rank ∧ x = .sign op.chars) ∨ (l = .whole ∧ x = .sign ['?'])

/-- A level stops before the given lexemes. -/
def Stops (l : Level) (v : List Lexeme) : Prop := ∀ x ∈ v.head?, ¬ Continues l x

theorem stops_nil (l : Level) : Stops l [] := by simp [Stops]

theorem stops_cons {l : Level} {x : Lexeme} {v : List Lexeme} : Stops l (x :: v) ↔ ¬ Continues l x := by
  simp [Stops]

namespace Level

theorem rank_tighter_le (l : Level) : l.tighter.rank ≤ l.rank := by cases l <;> decide

theorem tighter_ne_whole (l : Level) : l.tighter ≠ whole := by cases l <;> decide

/-- The level of some operators between two operands. -/
def IsBinary (l : Level) : Prop := 2 ≤ l.rank ∧ l.rank ≤ 7

theorem rank_tighter_lt {l : Level} (h : l.IsBinary) : l.tighter.rank < l.rank := by
  cases l <;> first | decide | (simp [IsBinary, rank] at h)

end Level

namespace Operator

theorem level_isBinary (op : Operator) : op.level.IsBinary := by
  rcases op with op | op <;> cases op <;> exact ⟨by decide, by decide⟩

theorem level_ne (op : Operator) {l : Level} (hl : ¬ l.IsBinary) : l ≠ op.level :=
  fun h => hl (h ▸ op.level_isBinary)

/-- An operator is known by its characters. -/
theorem eq_of_chars {op op' : Operator} (h : op.chars = op'.chars) : op = op' := by
  rcases op with op | op <;> rcases op' with op' | op' <;> cases op <;> cases op' <;>
    first | rfl | exact absurd h (by decide)

/-- No operator is one of the other signs of the grammar. -/
theorem chars_not_mem (op : Operator) :
    op.chars ∉ [['.'], ['['], ['('], ['?'], [':'], [')'], [']'], [',']] := by
  rcases op with op | op <;> cases op <;> decide

end Operator

theorem Stops.tighter {l : Level} {v : List Lexeme} (h : Stops l v) : Stops l.tighter v := by
  intro x hx hc
  apply h x hx
  rcases hc with hc | hc | hc | ⟨op, hop, hc⟩ | ⟨hl, -⟩
  · exact .inl hc
  · exact .inr (.inl hc)
  · exact .inr (.inr (.inl hc))
  · exact .inr (.inr (.inr (.inl ⟨op, Nat.le_trans hop (Level.rank_tighter_le l), hc⟩)))
  · exact absurd hl (Level.tighter_ne_whole l)

/-- The operands of a level stop before its operators. -/
theorem stops_operator (op : Operator) (v : List Lexeme) :
    Stops op.level.tighter (.sign op.chars :: v) := by
  have hne := op.chars_not_mem
  rw [stops_cons]
  rintro (hc | hc | hc | ⟨op', hop, hc⟩ | ⟨hl, -⟩)
  · exact hne (by simp [Lexeme.sign.inj hc])
  · exact hne (by simp [Lexeme.sign.inj hc])
  · exact hne (by simp [Lexeme.sign.inj hc])
  · have := Operator.eq_of_chars (Lexeme.sign.inj hc)
    have := Level.rank_tighter_lt op.level_isBinary
    subst op'; omega
  · exact Level.tighter_ne_whole _ hl

/-- A sign that ends every level. -/
theorem stops_closer (l : Level) {cs : List Char} (h : cs ∈ [[':'], [')'], [']'], [',']])
    (v : List Lexeme) : Stops l (.sign cs :: v) := by
  have hcs : ∀ op : Operator, op.chars ≠ cs := by
    intro op he
    have := op.chars_not_mem
    rw [he] at this
    simp_all
  rw [stops_cons]
  rintro (hc | hc | hc | ⟨op, -, hc⟩ | ⟨-, hc⟩)
  · rw [Lexeme.sign.inj hc] at h; revert h; decide
  · rw [Lexeme.sign.inj hc] at h; revert h; decide
  · rw [Lexeme.sign.inj hc] at h; revert h; decide
  · exact hcs op (Lexeme.sign.inj hc).symm
  · rw [Lexeme.sign.inj hc] at h; revert h; decide

theorem stops_question (v : List Lexeme) : Stops .or (.sign ['?'] :: v) := by
  rw [stops_cons]
  rintro (hc | hc | hc | ⟨op, -, hc⟩ | ⟨hl, -⟩)
  · exact absurd hc (by decide)
  · exact absurd hc (by decide)
  · exact absurd hc (by decide)
  · exact op.chars_not_mem (by simp [← Lexeme.sign.inj hc])
  · exact absurd hl (by decide)

/-! ## The shape of what is read -/

/-- The lexeme can stand at the front of what is read. -/
def Opens (x : Lexeme) : Prop :=
  (∃ text, x = .word text) ∨ x = .sign ['('] ∨ ∃ op : UnaryOp, x = op.lexeme

theorem Reads.opens {l : Level} {u : List Lexeme} {t : Tree} (h : Reads l u t) :
    ∃ x r, u = x :: r ∧ Opens x := by
  induction h with
  | looser _ ih => exact ih
  | choice _ _ _ ih _ _ => obtain ⟨x, r, rfl, hx⟩ := ih; exact ⟨x, _, rfl, hx⟩
  | binary _ _ ih _ => obtain ⟨x, r, rfl, hx⟩ := ih; exact ⟨x, _, rfl, hx⟩
  | @unary op u t _ _ => exact ⟨_, u, rfl, .inr (.inr ⟨op, rfl⟩)⟩
  | member _ ih => obtain ⟨x, r, rfl, hx⟩ := ih; exact ⟨x, _, rfl, hx⟩
  | index _ _ ih _ => obtain ⟨x, r, rfl, hx⟩ := ih; exact ⟨x, _, rfl, hx⟩
  | call _ _ ih _ => obtain ⟨x, r, rfl, hx⟩ := ih; exact ⟨x, _, rfl, hx⟩
  | paren _ _ => exact ⟨_, _, rfl, .inr (.inl rfl)⟩
  | @word text => exact ⟨_, _, rfl, .inl ⟨text, rfl⟩⟩

/-- What is read is a first operand and operators of the level after it. -/
inductive Chain (l : Level) : Tree → List Lexeme → Tree → Prop
  | stop {s : Tree} : Chain l s [] s
  | more {op : Operator} {s r t : Tree} {w c : List Lexeme} : op.level = l → Reads l.tighter w r →
    Chain l (.binary op s r) c t → Chain l s (.sign op.chars :: (w ++ c)) t

theorem Chain.snoc {l : Level} {s t r : Tree} {c w : List Lexeme} {op : Operator} (h : Chain l s c t)
    (hop : op.level = l) (hw : Reads l.tighter w r) :
    Chain l s (c ++ .sign op.chars :: w) (.binary op t r) := by
  induction h with
  | @stop s => have := Chain.more hop hw (.stop (s := .binary op s r)); simpa using this
  | more hop' hw' _ ih => have := Chain.more hop' hw' ih; simpa using this

theorem Reads.spine {l : Level} (hl : l.IsBinary) {u : List Lexeme} {t : Tree} (h : Reads l u t) :
    ∃ a s c, u = a ++ c ∧ Reads l.tighter a s ∧ Chain l s c t := by
  induction h with
  | looser h _ => exact ⟨_, _, [], by simp, h, .stop⟩
  | binary _ hb iha _ =>
    obtain ⟨a, s, c, rfl, ha, hc⟩ := iha hl
    exact ⟨a, s, _, by simp, ha, hc.snoc rfl hb⟩
  | choice => exact absurd hl (by simp [Level.IsBinary, Level.rank])
  | unary => exact absurd hl (by simp [Level.IsBinary, Level.rank])
  | _ => exact absurd hl (by simp [Level.IsBinary, Level.rank])

/-- What is read is an atom and members, indices and calls after it. -/
inductive Tail : Tree → List Lexeme → Tree → Prop
  | stop {s : Tree} : Tail s [] s
  | member {s t : Tree} {name : String} {c : List Lexeme} : Tail (.member s name) c t →
    Tail s (.sign ['.'] :: .word name :: c) t
  | index {s i t : Tree} {w c : List Lexeme} : Reads .whole w i → Tail (.index s i) c t →
    Tail s (.sign ['['] :: (w ++ .sign [']'] :: c)) t
  | call {s t : Tree} {args : List (List Lexeme × Tree)} {c : List Lexeme} :
    (∀ a ∈ args, Reads .whole a.1 a.2) → Tail (.call s (args.map Prod.snd)) c t →
    Tail s (.sign ['('] :: (commas (args.map Prod.fst) ++ .sign [')'] :: c)) t

theorem Tail.trans {s t r : Tree} {c d : List Lexeme} (h : Tail s c t) (h' : Tail t d r) :
    Tail s (c ++ d) r := by
  induction h with
  | stop => exact h'
  | member _ ih => exact .member (ih h')
  | index hw _ ih => have := Tail.index hw (ih h'); simpa using this
  | call ha _ ih => have := Tail.call ha (ih h'); simpa using this

/-- A word, or a whole expression between parentheses. -/
inductive Atom : List Lexeme → Tree → Prop
  | word {text : String} : Atom [.word text] (.word text)
  | paren {u : List Lexeme} {t : Tree} : Reads .whole u t → Atom (.sign ['('] :: (u ++ [.sign [')']])) t

theorem Reads.stem {u : List Lexeme} {t : Tree} (h : Reads .member u t) :
    ∃ a s c, u = a ++ c ∧ Atom a s ∧ Tail s c t := by
  generalize hl : Level.member = l at h
  induction h with
  | looser _ ih => subst hl; exact ih rfl
  | choice => cases hl
  | @binary op => exact absurd hl (op.level_ne (by simp [Level.IsBinary, Level.rank]))
  | unary => cases hl
  | member _ ih =>
    obtain ⟨a, s, c, rfl, ha, hc⟩ := ih rfl
    exact ⟨a, s, _, by simp, ha, hc.trans (.member .stop)⟩
  | index _ hw ih _ =>
    obtain ⟨a, s, c, rfl, ha, hc⟩ := ih rfl
    exact ⟨a, s, _, by simp, ha, hc.trans (.index hw .stop)⟩
  | call _ hargs ih _ =>
    obtain ⟨a, s, c, rfl, ha, hc⟩ := ih rfl
    exact ⟨a, s, _, by simp, ha, hc.trans (.call hargs .stop)⟩
  | paren h _ => exact ⟨_, _, [], by simp, .paren h, .stop⟩
  | word => exact ⟨_, _, [], by simp, .word, .stop⟩

theorem Reads.whole_cases {u : List Lexeme} {t : Tree} (h : Reads .whole u t) :
    Reads .or u t ∨ ∃ c y n test yes no, u = c ++ .sign ['?'] :: (y ++ .sign [':'] :: n) ∧
      t = .choice test yes no ∧ Reads .or c test ∧ Reads .whole y yes ∧ Reads .whole n no := by
  generalize hl : Level.whole = l at h
  cases h with
  | looser h => subst hl; exact .inl h
  | choice hc hy hn => exact .inr ⟨_, _, _, _, _, _, rfl, rfl, hc, hy, hn⟩
  | @binary op => exact absurd hl (op.level_ne (by simp [Level.IsBinary, Level.rank]))
  | _ => cases hl

theorem Reads.sign_cases {u : List Lexeme} {t : Tree} (h : Reads .sign u t) :
    Reads .member u t ∨ ∃ (op : UnaryOp) (w : List Lexeme) (s : Tree), u = op.lexeme :: w ∧ t = .unary op s ∧
      Reads .sign w s := by
  generalize hl : Level.sign = l at h
  cases h with
  | looser h => subst hl; exact .inl h
  | unary h => exact .inr ⟨_, _, _, rfl, rfl, h⟩
  | @binary op => exact absurd hl (op.level_ne (by simp [Level.IsBinary, Level.rank]))
  | _ => cases hl

/-! ## Uniqueness -/

/-- A level reads one stretch of at most `m` lexemes from a given place on, and in one way. -/
def UniqueUpTo (m : Nat) (l : Level) : Prop :=
  ∀ ⦃u u' v v' : List Lexeme⦄ ⦃t t' : Tree⦄, u.length ≤ m → Reads l u t → Reads l u' t' →
    u ++ v = u' ++ v' → Stops l v → Stops l v' → u = u' ∧ t = t'

theorem Chain.stops {l : Level} {s t : Tree} {c v : List Lexeme} (h : Chain l s c t) (hv : Stops l v) :
    Stops l.tighter (c ++ v) := by
  cases h with
  | stop => exact hv.tighter
  | more hop _ _ => subst hop; exact stops_operator _ _

theorem not_stops_operator {op : Operator} {l : Level} {v : List Lexeme} (hop : op.level = l) :
    ¬ Stops l (.sign op.chars :: v) := by
  rw [stops_cons, Classical.not_not]
  exact .inr (.inr (.inr (.inl ⟨op, Nat.le_of_eq (by rw [hop]), rfl⟩)))

theorem Chain.unique {m : Nat} {l : Level} (hD : UniqueUpTo m l.tighter) {s t : Tree} {c : List Lexeme}
    (h : Chain l s c t) : ∀ {c' v v' : List Lexeme} {t' : Tree}, c.length ≤ m → Chain l s c' t' →
      c ++ v = c' ++ v' → Stops l v → Stops l v' → c = c' ∧ t = t' := by
  induction h with
  | stop =>
    intro c' v v' t' _ h' he hv _
    cases h' with
    | stop => exact ⟨rfl, rfl⟩
    | more hop _ _ =>
      simp only [List.nil_append] at he
      rw [he] at hv; exact absurd hv (not_stops_operator hop)
  | @more op s r t w c hop hw hc ih =>
    intro c' v v' t' hm h' he hv hv'
    -- both chains go on with an operator, since the level does not stop before one
    cases h' with
    | stop =>
      simp only [List.nil_append] at he
      rw [← he] at hv'; exact absurd hv' (not_stops_operator hop)
    | @more op' _ r' _ w' c₁ hop' hw' hc' =>
      simp only [List.cons_append, List.append_assoc, List.cons.injEq, Lexeme.sign.injEq] at he
      obtain ⟨hch, he⟩ := he
      obtain rfl := Operator.eq_of_chars hch
      simp only [List.length_cons, List.length_append] at hm
      obtain ⟨rfl, rfl⟩ := hD (by omega) hw hw' he (hc.stops hv) (hc'.stops hv')
      obtain ⟨rfl, rfl⟩ := ih (by omega) hc' (List.append_cancel_left he) hv hv'
      exact ⟨rfl, rfl⟩

/-- A closing parenthesis is not the front of an expression. -/
theorem not_opens_closer : ¬ Opens (.sign [')']) := by
  rintro (⟨text, h⟩ | h | ⟨op, h⟩)
  · cases h
  · exact absurd h (by decide)
  · cases op <;> exact absurd h (by decide)

theorem commas_cons (w : List Lexeme) (ws : List (List Lexeme)) :
    ∃ r, commas (w :: ws) = w ++ r ∧ (r = [] ∧ ws = [] ∨ r = .sign [','] :: commas ws ∧ ws ≠ []) := by
  cases ws with
  | nil => exact ⟨[], by simp [commas], .inl ⟨rfl, rfl⟩⟩
  | cons w' ws => exact ⟨_, by rw [commas], .inr ⟨rfl, by simp⟩⟩

theorem commas_unique {m : Nat} (hD : UniqueUpTo m .whole) {v v' : List Lexeme} :
    ∀ {args args' : List (List Lexeme × Tree)}, (∀ a ∈ args, Reads .whole a.1 a.2) →
      (∀ a ∈ args', Reads .whole a.1 a.2) → (commas (args.map Prod.fst)).length ≤ m →
      commas (args.map Prod.fst) ++ .sign [')'] :: v = commas (args'.map Prod.fst) ++ .sign [')'] :: v' →
      args = args' ∧ v = v' := by
  intro args
  -- an empty list is followed by the parenthesis, which no argument starts with
  induction args with
  | nil =>
    intro args' _ ha' _ he
    cases args' with
    | nil => simpa [commas] using he
    | cons a' as' =>
      obtain ⟨x, r, hx, ho⟩ := (ha' a' (by simp)).opens
      obtain ⟨q, hq, -⟩ := commas_cons a'.1 (as'.map Prod.fst)
      rw [List.map_cons, hq, hx] at he
      simp only [List.map_nil, commas, List.nil_append, List.cons_append, List.cons.injEq] at he
      rw [← he.1] at ho; exact absurd ho not_opens_closer
  | cons a as ih =>
    intro args' ha ha' hm he
    cases args' with
    | nil =>
      obtain ⟨x, r, hx, ho⟩ := (ha a (by simp)).opens
      obtain ⟨q, hq, -⟩ := commas_cons a.1 (as.map Prod.fst)
      rw [List.map_cons, hq, hx] at he
      simp only [List.map_nil, commas, List.nil_append, List.cons_append, List.cons.injEq] at he
      rw [he.1] at ho; exact absurd ho not_opens_closer
    | cons a' as' =>
      obtain ⟨q, hq, hqs⟩ := commas_cons a.1 (as.map Prod.fst)
      obtain ⟨q', hq', hqs'⟩ := commas_cons a'.1 (as'.map Prod.fst)
      rw [List.map_cons, hq] at hm
      rw [List.map_cons, List.map_cons, hq, hq', List.append_assoc, List.append_assoc] at he
      simp only [List.length_append] at hm
      -- what follows an argument, a comma or the parenthesis, ends every level
      have hend : ∀ {q : List Lexeme} {ws : List (List Lexeme)} {v : List Lexeme},
          (q = [] ∧ ws = [] ∨ q = .sign [','] :: commas ws ∧ ws ≠ []) →
          Stops .whole (q ++ .sign [')'] :: v) := by
        rintro q ws v (⟨rfl, -⟩ | ⟨rfl, -⟩)
        · exact stops_closer _ (by decide) _
        · exact stops_closer _ (by decide) _
      obtain ⟨h1, h2⟩ := hD (by omega) (ha a (by simp)) (ha' a' (by simp)) he (hend hqs) (hend hqs')
      obtain rfl : a = a' := Prod.ext h1 h2
      have he := List.append_cancel_left he
      rcases hqs with ⟨rfl, hn⟩ | ⟨rfl, hn⟩ <;> rcases hqs' with ⟨rfl, hn'⟩ | ⟨rfl, hn'⟩
      · simp only [List.map_eq_nil_iff] at hn hn'
        subst hn; subst hn'
        simpa using he
      · exact absurd (List.cons.inj he).1 (by decide)
      · exact absurd (List.cons.inj he).1 (by decide)
      · simp only [List.length_cons] at hm
        obtain ⟨rfl, rfl⟩ := ih (fun b hb => ha b (by simp [hb])) (fun b hb => ha' b (by simp [hb]))
          (by omega) (List.cons.inj he).2
        exact ⟨rfl, rfl⟩

theorem Tail.stops {s t : Tree} {c v : List Lexeme} (h : Tail s c t) (hc : c ≠ []) :
    ¬ Stops .member (c ++ v) := by
  cases h with
  | stop => exact absurd rfl hc
  | member _ => rw [List.cons_append, stops_cons, Classical.not_not]; exact .inl rfl
  | index _ _ => rw [List.cons_append, stops_cons, Classical.not_not]; exact .inr (.inl rfl)
  | call _ _ => rw [List.cons_append, stops_cons, Classical.not_not]; exact .inr (.inr (.inl rfl))

theorem Tail.unique {m : Nat} (hD : UniqueUpTo m .whole) {s t : Tree} {c : List Lexeme}
    (h : Tail s c t) : ∀ {c' v v' : List Lexeme} {t' : Tree}, c.length ≤ m → Tail s c' t' →
      c ++ v = c' ++ v' → Stops .member v → Stops .member v' → c = c' ∧ t = t' := by
  -- the first lexeme tells the kinds of tails apart, and `hD` is for what stands between brackets
  induction h with
  | stop =>
    intro c' v v' t' _ h' he hv _
    rcases List.eq_nil_or_concat c' with rfl | ⟨_, _, hne⟩
    · cases h'; exact ⟨rfl, rfl⟩
    · rw [List.nil_append] at he
      rw [he] at hv; exact absurd hv (h'.stops (by simp [hne]))
  | @member s t name c hc ih =>
    intro c' v v' t' hm h' he hv hv'
    simp only [List.length_cons] at hm
    cases h' with
    | stop => rw [List.nil_append] at he; rw [← he] at hv'; exact absurd hv' ((Tail.member hc).stops (by simp))
    | member hc' =>
      simp only [List.cons_append, List.cons.injEq, Lexeme.word.injEq, true_and] at he
      obtain ⟨rfl, he⟩ := he
      obtain ⟨rfl, rfl⟩ := ih (by omega) hc' he hv hv'
      exact ⟨rfl, rfl⟩
    | index => exact absurd (List.cons.inj he).1 (by decide)
    | call => exact absurd (List.cons.inj he).1 (by decide)
  | @index s i t w c hw hc ih =>
    intro c' v v' t' hm h' he hv hv'
    simp only [List.length_cons, List.length_append] at hm
    cases h' with
    | stop =>
      rw [List.nil_append] at he; rw [← he] at hv'; exact absurd hv' ((Tail.index hw hc).stops (by simp))
    | member => exact absurd (List.cons.inj he).1 (by decide)
    | index hw' hc' =>
      simp only [List.cons_append, List.append_assoc, List.cons.injEq, true_and] at he
      obtain ⟨rfl, rfl⟩ := hD (by omega) hw hw' he (stops_closer _ (by decide) _) (stops_closer _ (by decide) _)
      have he := (List.cons.inj (List.append_cancel_left he)).2
      obtain ⟨rfl, rfl⟩ := ih (by omega) hc' he hv hv'
      exact ⟨rfl, rfl⟩
    | call => exact absurd (List.cons.inj he).1 (by decide)
  | @call s t args c hargs hc ih =>
    intro c' v v' t' hm h' he hv hv'
    simp only [List.length_cons, List.length_append] at hm
    cases h' with
    | stop =>
      rw [List.nil_append] at he; rw [← he] at hv'; exact absurd hv' ((Tail.call hargs hc).stops (by simp))
    | member => exact absurd (List.cons.inj he).1 (by decide)
    | index => exact absurd (List.cons.inj he).1 (by decide)
    | call hargs' hc' =>
      simp only [List.cons_append, List.append_assoc, List.cons.injEq, true_and] at he
      obtain ⟨rfl, hrest⟩ := commas_unique hD hargs hargs' (by omega) he
      obtain ⟨rfl, rfl⟩ := ih (by omega) hc' hrest hv hv'
      exact ⟨rfl, rfl⟩

theorem Atom.unique {m : Nat} (hD : UniqueUpTo m .whole) {a a' v v' : List Lexeme} {s s' : Tree}
    (hm : a.length ≤ m + 1) (h : Atom a s) (h' : Atom a' s') (he : a ++ v = a' ++ v') : a = a' ∧ s = s' := by
  cases h with
  | word =>
    cases h' with
    | word => simp only [List.cons_append, List.cons.injEq] at he; rw [he.1]; cases he.1; exact ⟨rfl, rfl⟩
    | paren => exact absurd (List.cons.inj he).1 (by simp)
  | paren hu =>
    cases h' with
    | word => exact absurd (List.cons.inj he).1 (by simp)
    | paren hu' =>
      simp only [List.cons_append, List.append_assoc, List.cons.injEq, true_and] at he
      simp only [List.length_cons, List.length_append] at hm
      obtain ⟨rfl, rfl⟩ := hD (by omega) hu hu' he (stops_closer _ (by decide) _) (stops_closer _ (by decide) _)
      exact ⟨rfl, rfl⟩

theorem uniqueUpTo_member {m : Nat} (hD : UniqueUpTo (m - 1) .whole) : UniqueUpTo m .member := by
  intro u u' v v' t t' hm h h' he hv hv'
  -- the stem is a word or stands between parentheses, so it ends at the same place in both
  obtain ⟨a, s, c, rfl, ha, hc⟩ := h.stem
  obtain ⟨a', s', c', rfl, ha', hc'⟩ := h'.stem
  rw [List.append_assoc, List.append_assoc] at he
  simp only [List.length_append] at hm
  have hpos : 0 < a.length := by cases ha <;> simp
  obtain ⟨rfl, rfl⟩ := ha.unique hD (by omega) ha' he
  obtain ⟨rfl, rfl⟩ := hc.unique hD (by omega) hc' (List.append_cancel_left he) hv hv'
  exact ⟨rfl, rfl⟩

/-- The front of what is read is no operator before an operand, if nothing tighter is. -/
theorem Reads.member_front {u : List Lexeme} {t : Tree} (h : Reads .member u t) (op : UnaryOp)
    {w v v' : List Lexeme} : u ++ v ≠ op.lexeme :: w ++ v' := by
  obtain ⟨a, s, c, rfl, ha, -⟩ := h.stem
  intro he
  cases ha with
  | word => cases op <;> exact absurd (List.cons.inj he).1 (by simp [UnaryOp.lexeme])
  | paren _ => cases op <;> exact absurd (List.cons.inj he).1 (by decide)

theorem uniqueUpTo_sign {m : Nat} (hD : UniqueUpTo m .member) : UniqueUpTo m .sign := by
  intro u
  induction u with
  | nil => intro u' v v' t t' _ h; obtain ⟨x, r, hx, -⟩ := h.opens; cases hx
  | cons x u ih =>
    intro u' v v' t t' hm h h' he hv hv'
    rcases h.sign_cases with hu | ⟨op, w, s, hu, rfl, hw⟩ <;>
      rcases h'.sign_cases with hu' | ⟨op', w', s', rfl, rfl, hw'⟩
    · exact hD hm hu hu' he hv.tighter hv'.tighter
    · exact absurd he (hu.member_front op')
    · rw [hu] at he; exact absurd he.symm (hu'.member_front op)
    · obtain ⟨rfl, rfl⟩ := List.cons.inj hu
      simp only [List.cons_append, List.cons.injEq] at he
      obtain ⟨hop, he⟩ := he
      obtain rfl : op = op' := by cases op <;> cases op' <;> first | rfl | exact absurd hop (by decide)
      obtain ⟨rfl, rfl⟩ := ih (by simp only [List.length_cons] at hm; omega) hw hw' he hv hv'
      exact ⟨rfl, rfl⟩

theorem uniqueUpTo_binary {m : Nat} {l : Level} (hl : l.IsBinary) (hD : UniqueUpTo m l.tighter) :
    UniqueUpTo m l := by
  intro u u' v v' t t' hm h h' he hv hv'
  obtain ⟨a, s, c, rfl, ha, hc⟩ := h.spine hl
  obtain ⟨a', s', c', rfl, ha', hc'⟩ := h'.spine hl
  rw [List.append_assoc, List.append_assoc] at he
  simp only [List.length_append] at hm
  obtain ⟨rfl, rfl⟩ := hD (by omega) ha ha' he (hc.stops hv) (hc'.stops hv')
  obtain ⟨rfl, rfl⟩ := hc.unique hD (by omega) hc' (List.append_cancel_left he) hv hv'
  exact ⟨rfl, rfl⟩

theorem not_stops_question (v : List Lexeme) : ¬ Stops .whole (.sign ['?'] :: v) := by
  rw [stops_cons, Classical.not_not]
  exact .inr (.inr (.inr (.inr ⟨rfl, rfl⟩)))

theorem uniqueUpTo_whole {m : Nat} (hD : UniqueUpTo m .or) (hW : UniqueUpTo (m - 1) .whole) :
    UniqueUpTo m .whole := by
  intro u u' v v' t t' hm h h' he hv hv'
  rcases h.whole_cases with h | ⟨c, y, n, test, yes, no, rfl, rfl, hc, hy, hn⟩ <;>
    rcases h'.whole_cases with h' | ⟨c', y', n', test', yes', no', rfl, rfl, hc', hy', hn'⟩
  · exact hD hm h h' he hv.tighter hv'.tighter
  · -- one of the readings would end before the question mark, but this level does not
    simp only [List.append_assoc, List.cons_append] at he
    obtain ⟨rfl, rfl⟩ := hD hm h hc' he hv.tighter (stops_question _)
    rw [List.append_cancel_left he] at hv
    exact absurd hv (not_stops_question _)
  · simp only [List.append_assoc, List.cons_append] at he
    simp only [List.length_append] at hm
    obtain ⟨rfl, rfl⟩ := hD (by omega) hc h' he (stops_question _) hv'.tighter
    rw [← List.append_cancel_left he] at hv'
    exact absurd hv' (not_stops_question _)
  · simp only [List.append_assoc, List.cons_append] at he
    simp only [List.length_append, List.length_cons] at hm
    obtain ⟨rfl, rfl⟩ := hD (by omega) hc hc' he (stops_question _) (stops_question _)
    have he := (List.cons.inj (List.append_cancel_left he)).2
    obtain ⟨rfl, rfl⟩ := hW (by omega) hy hy' he (stops_closer _ (by decide) _) (stops_closer _ (by decide) _)
    have he := (List.cons.inj (List.append_cancel_left he)).2
    obtain ⟨rfl, rfl⟩ := hW (by omega) hn hn' he hv hv'
    exact ⟨rfl, rfl⟩

/-- **From a given place on, there is one reading.** Every level reads one stretch of
lexemes up to a place where it stops, and reads it in one way. -/
theorem uniqueUpTo (m : Nat) : UniqueUpTo m .whole := by
  -- what stands between brackets is shorter, so the levels follow from the tightest on
  induction m with
  | zero => intro u u' v v' t t' hm h; obtain ⟨x, r, rfl, -⟩ := h.opens; simp at hm
  | succ m ih =>
    have h0 : UniqueUpTo (m + 1) .member := uniqueUpTo_member ih
    have h1 : UniqueUpTo (m + 1) .sign := uniqueUpTo_sign h0
    have h2 : UniqueUpTo (m + 1) .product := uniqueUpTo_binary ⟨by decide, by decide⟩ h1
    have h3 : UniqueUpTo (m + 1) .sum := uniqueUpTo_binary ⟨by decide, by decide⟩ h2
    have h4 : UniqueUpTo (m + 1) .comparison := uniqueUpTo_binary ⟨by decide, by decide⟩ h3
    have h5 : UniqueUpTo (m + 1) .and := uniqueUpTo_binary ⟨by decide, by decide⟩ h4
    have h6 : UniqueUpTo (m + 1) .xor := uniqueUpTo_binary ⟨by decide, by decide⟩ h5
    have h7 : UniqueUpTo (m + 1) .or := uniqueUpTo_binary ⟨by decide, by decide⟩ h6
    exact uniqueUpTo_whole h7 ih

/-- **A list of lexemes has at most one reading.** -/
theorem Reads.unique {u : List Lexeme} {t t' : Tree} (h : Reads .whole u t) (h' : Reads .whole u t') :
    t = t' :=
  (uniqueUpTo u.length (Nat.le_refl _) h h' rfl (stops_nil _) (stops_nil _)).2

/-- A text has at most one reading. -/
theorem Reading.unique {ss : List Symbol} {t t' : Tree} (h : Reading ss t) (h' : Reading ss t') : t = t' := by
  obtain ⟨u, hu, h⟩ := h
  obtain ⟨u', hu', h'⟩ := h'
  rw [hu] at hu'; cases hu'
  exact h.unique h'

end Locomotive.Js
