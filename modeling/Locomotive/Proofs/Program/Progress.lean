import Locomotive.Proofs.Stmt.Sound

/-!
# Reading goes forward

A program is read in a loop over its lines. Whatever the tokens are, each turn of the loop takes at least one of them,
so it comes to its end. The place that is reached never moves back and never lies past the end, also where reading
fails. Each expression and each statement takes a token as well, and a statement never takes the end of a line.

* `Parse.Reply.Advances`: what is read from a place ends at a later one.
* `Parse.turn`, `Parse.Run`: one turn of the loop, and the turns up to its end.
* `Program.parse_makes_progress`: all of this, for any tokens.
-/

namespace Locomotive

namespace Parse

variable {α : Type} {s : Setting} {tokens r rest : List Token} {t : Token} {i : Nat}

/-! ## Places -/

/-- **What is read from the place `i` ends at a later one**, or reading fails at the place `i` or a later one. None of
them lies past the end. -/
def Reply.Advances (tokens : List Token) (i : Nat) (o : Reply α) : Prop :=
  match o with
  | .error f => ∃ j, i ≤ j ∧ j ≤ tokens.length ∧ f.rest = tokens.drop j
  | .ok (_, rest) => ∃ j, i < j ∧ j ≤ tokens.length ∧ rest = tokens.drop j

/-- The same for what may be read without taking a token. -/
def Reply.Stays (tokens : List Token) (i : Nat) (o : Reply α) : Prop :=
  match o with
  | .error f => ∃ j, i ≤ j ∧ j ≤ tokens.length ∧ f.rest = tokens.drop j
  | .ok (_, rest) => ∃ j, i ≤ j ∧ j ≤ tokens.length ∧ rest = tokens.drop j

/-- The place where this is left. -/
theorem place_of_suffix (hi : i ≤ tokens.length) (h : rest <:+ tokens.drop i) :
    i ≤ tokens.length - rest.length ∧ rest = tokens.drop (tokens.length - rest.length) := by
  have hrest := h.trans (List.drop_suffix i tokens)
  have hlen := h.length_le
  have hlen' := hrest.length_le
  rw [List.length_drop] at hlen
  exact ⟨by omega, List.suffix_iff_eq_drop.1 hrest⟩

theorem exists_place (hi : i ≤ tokens.length) (h : rest <:+ tokens.drop i) :
    ∃ j, i ≤ j ∧ j ≤ tokens.length ∧ rest = tokens.drop j :=
  ⟨_, (place_of_suffix hi h).1, Nat.sub_le _ _, (place_of_suffix hi h).2⟩

theorem lt_of_drop_eq_cons (h : tokens.drop i = t :: r) : i < tokens.length := by
  refine Nat.lt_of_not_le fun hi => ?_
  rw [List.drop_eq_nil_of_le hi] at h
  cases h

theorem drop_succ_of_cons (h : tokens.drop i = t :: r) : tokens.drop (i + 1) = r := by
  rw [← List.tail_drop, h, List.tail_cons]

/-- What is read from a token on leaves some of those behind it. -/
theorem Reply.advances (h : tokens.drop i = t :: r) {o : Reply α} (hfails : ∀ f, o = .error f → f.rest <:+ t :: r)
    (hreads : ∀ a rest, o = .ok (a, rest) → rest <:+ r) : o.Advances tokens i := by
  have hi := lt_of_drop_eq_cons h
  rcases o with f | ⟨a, rest⟩
  · exact exists_place (Nat.le_of_lt hi) (h ▸ hfails f rfl)
  · exact exists_place hi (drop_succ_of_cons h ▸ hreads a rest rfl)

theorem atLayer_advances (l : Layer) (hi : i ≤ tokens.length) : (atLayer l (tokens.drop i)).read.Advances tokens i := by
  have hwithin := atLayer_reads l (tokens.drop i)
  cases h : tokens.drop i with
  | nil =>
    rw [read_atLayer_nil]
    exact exists_place hi List.nil_suffix
  | cons t r =>
    rw [h] at hwithin
    refine Reply.advances h (fun f hf => ?_) fun e rest he => suffix_of_read he
    rw [hf] at hwithin
    exact hwithin.2

theorem Reply.KeepsLine.stays {source : List Char} {o : Reply α} (hi : i ≤ tokens.length)
    (h : o.KeepsLine source (tokens.drop i)) : o.Stays tokens i := by
  rcases o with f | ⟨a, rest⟩
  · exact exists_place hi h.2.1
  · exact exists_place hi h.suffix

theorem statement_advances (s : Setting) (h : tokens.drop i = t :: r) : (statement s t r).read.Advances tokens i := by
  have hkeeps := statement_keepsLine s t r
  refine Reply.advances h (fun f hf => ?_) fun st rest hst => suffix_of_read hst
  rw [hf] at hkeeps
  exact hkeeps.2.1

theorem line_fails {seen : List Line} {f : Failure} (h : line s seen t r = .error f) : f.rest <:+ t :: r := by
  unfold line at h
  split at h
  · rename_i hlabel
    obtain ⟨c, rest, rfl, hrest⟩ := lineLabel_error hlabel
    cases h
    exact hrest
  · rename_i label _
    have hkeeps := statements_keepLine s false (afterLabel label t r)
    rcases hss : (statements s false (afterLabel label t r)).read with e | ⟨ss, rest⟩ <;> rw [hss] at h hkeeps <;> cases h
    exact hkeeps.2.1.trans (afterLabel_suffix label t r)

theorem line_reads {seen : List Line} {l : Line} (h : line s seen t r = .ok (l, rest)) : rest <:+ r := by
  unfold line at h
  split at h
  · cases h
  · rename_i label _
    obtain ⟨ss, mid, hss, h⟩ := Reply.andThen_eq_ok h
    cases h
    -- where the statements take no token, the one that is left is taken as the end of the line
    rcases List.suffix_cons_iff.1 ((suffix_of_read hss).trans (afterLabel_suffix label t r)) with rfl | hmid
    · exact List.suffix_refl r
    · exact (List.tail_suffix mid).trans hmid

/-! ## The loop over the lines -/

/-- **Where the loop stands**: how many tokens are taken, the lines that are read, and the value of the last label. -/
structure Stand where
  place : Nat
  seen : List Line
  last : Int

/-- **One turn of the loop**, to the next stand if there is something left to read. -/
def turn (s : Setting) (tokens : List Token) (c : Stand) : Except Failure (Option Stand) :=
  match tokens.drop c.place with
  | [] => .ok none
  | t :: r =>
    if t.kind = .eof then .ok none
    else if t.kind = .eol then .ok (some { c with place := c.place + 1 })
    else
      match line s c.seen t r with
      | .error f => .error f
      | .ok (l, rest) =>
        match if s.strict then strictComplaint? c.last l else none with
        | some e => .error (.rejected (lastTaken (t :: r) rest) e rest)
        | none => .ok (some ⟨tokens.length - rest.length, c.seen ++ [l], (l.label.map labelValue).getD c.last⟩)

/-- **The turns of the loop** from a stand up to its end: the places where they start, and the result. -/
inductive Run (s : Setting) (tokens : List Token) : Stand → List Nat → Except Failure Program → Prop
  | done {c : Stand} (h : turn s tokens c = .ok none) : Run s tokens c [c.place] (.ok ⟨c.seen⟩)
  | failed {c : Stand} {f : Failure} (h : turn s tokens c = .error f) : Run s tokens c [c.place] (.error f)
  | next {c c' : Stand} {path : List Nat} {o : Except Failure Program} (h : turn s tokens c = .ok (some c'))
      (run : Run s tokens c' path o) : Run s tokens c (c.place :: path) o

/-- The program, from a stand on. -/
def Stand.resume (s : Setting) (tokens : List Token) (c : Stand) : Except Failure Program :=
  (lines s c.seen c.last (tokens.drop c.place)).map fun ls => ⟨c.seen ++ ls⟩

/-- **What a turn comes to**: the end, a failure at this place or behind it, or a stand at a later place. -/
theorem turn_cases (s : Setting) (c : Stand) :
    turn s tokens c = .ok none ∧ c.resume s tokens = .ok ⟨c.seen⟩ ∨
    (∃ f, turn s tokens c = .error f ∧ c.resume s tokens = .error f ∧ f.rest <:+ tokens.drop c.place) ∨
    ∃ c', turn s tokens c = .ok (some c') ∧ c.resume s tokens = c'.resume s tokens ∧ c.place < c'.place ∧
      c'.place ≤ tokens.length := by
  unfold turn Stand.resume
  cases h : tokens.drop c.place with
  | nil =>
    rw [lines_nil]
    exact .inl ⟨rfl, by simp [Except.map]⟩
  | cons t r =>
    have hlt := lt_of_drop_eq_cons h
    have hr := drop_succ_of_cons h
    dsimp only
    split
    · rw [lines_eof _ _ _ ‹_›]
      exact .inl ⟨rfl, by simp [Except.map]⟩
    split
    · refine .inr (.inr ⟨_, rfl, ?_, Nat.lt_succ_self _, hlt⟩)
      rw [lines_eol _ _ _ ‹_›, hr]
    rw [lines_line s _ _ (not_or.2 ⟨‹_›, ‹_›⟩)]
    cases hline : line s c.seen t r with
    | error f => exact .inr (.inl ⟨f, rfl, rfl, line_fails hline⟩)
    | ok p =>
      obtain ⟨l, rest⟩ := p
      have hrest := line_reads hline
      dsimp only
      cases (if s.strict then strictComplaint? c.last l else none) with
      | some e => exact .inr (.inl ⟨_, rfl, rfl, hrest.trans (List.suffix_cons t r)⟩)
      | none =>
        obtain ⟨hplace, hleft⟩ := place_of_suffix hlt (hr ▸ hrest)
        refine .inr (.inr ⟨_, rfl, ?_, hplace, Nat.sub_le _ _⟩)
        dsimp only
        rw [← hleft]
        cases lines s (c.seen ++ [l]) ((l.label.map labelValue).getD c.last) rest <;> simp [Except.map]

/-- **The places of a run** ascend from the first one on, so there are not many of them. None lies past the end, and
where reading fails lies behind them all. -/
structure Ascends (tokens : List Token) (first : Nat) (path : List Nat) (o : Except Failure Program) : Prop where
  ascending : path.Pairwise (· < ·)
  bounds : ∀ i ∈ path, first ≤ i ∧ i ≤ tokens.length
  count : path.length + first ≤ tokens.length + 1
  fails : ∀ f, o = .error f → ∃ j, first ≤ j ∧ j ≤ tokens.length ∧ f.rest = tokens.drop j ∧ ∀ i ∈ path, i ≤ j

/-- **The loop comes to its end** from every stand. -/
theorem exists_run (s : Setting) {c : Stand} (hc : c.place ≤ tokens.length) :
    ∃ path, Run s tokens c path (c.resume s tokens) ∧ Ascends tokens c.place path (c.resume s tokens) := by
  -- each turn leaves fewer tokens
  induction hn : tokens.length - c.place using Nat.strongRecOn generalizing c with
  | ind n ih =>
    have hsingle : ∀ i ∈ [c.place], c.place ≤ i ∧ i ≤ tokens.length := by simpa using hc
    have hone : [c.place].length + c.place ≤ tokens.length + 1 := by rw [List.length_singleton]; omega
    rcases turn_cases s c with ⟨hturn, ho⟩ | ⟨f, hturn, ho, hf⟩ | ⟨c', hturn, ho, hlt, hc'⟩ <;> rw [ho]
    · exact ⟨_, .done hturn, List.pairwise_singleton _ _, hsingle, hone, fun f h => by cases h⟩
    · obtain ⟨j, hj, hjn, hleft⟩ := exists_place hc hf
      refine ⟨_, .failed hturn, List.pairwise_singleton _ _, hsingle, hone, fun f h => ?_⟩
      cases h
      exact ⟨j, hj, hjn, hleft, List.forall_mem_singleton.2 hj⟩
    · obtain ⟨path, hrun, hpath⟩ := ih _ (by omega) hc' rfl
      have hcount := hpath.count
      have hlater : ∀ i ∈ path, c.place < i := fun i hi => Nat.lt_of_lt_of_le hlt (hpath.bounds i hi).1
      refine ⟨_, .next hturn hrun, List.pairwise_cons.2 ⟨hlater, hpath.ascending⟩, ?_, ?_, fun f hf => ?_⟩
      · exact List.forall_mem_cons.2 ⟨⟨Nat.le_refl _, hc⟩, fun i hi => ⟨Nat.le_of_lt (hlater i hi), (hpath.bounds i hi).2⟩⟩
      · rw [List.length_cons]
        omega
      · obtain ⟨j, hj, hjn, hleft, hbehind⟩ := hpath.fails f hf
        have hfirst : c.place ≤ j := by omega
        exact ⟨j, hfirst, hjn, hleft, List.forall_mem_cons.2 ⟨hfirst, hbehind⟩⟩

/-- **Reading goes forward**, from whatever place of the tokens. -/
structure Progress (s : Setting) (tokens : List Token) (o : Except Failure Program) : Prop where
  /-- The loop over the lines starts at the first token and comes to its end with this result, at ever later places. -/
  ends : ∃ path, Run s tokens ⟨0, [], -1⟩ path o ∧ Ascends tokens 0 path o
  expression : ∀ i ≤ tokens.length, (Parse.expression (tokens.drop i)).read.Advances tokens i
  /-- The operands of an expression, and those of all operators in it. -/
  layer : ∀ i ≤ tokens.length, ∀ l, (atLayer l (tokens.drop i)).read.Advances tokens i
  /-- A statement, with its first token; it takes nothing that ends a line. -/
  statement : ∀ i t r, tokens.drop i = t :: r → (Parse.statement s t r).read.Advances tokens i ∧
    ∀ st rest, (Parse.statement s t r).read = .ok (st, rest) → Within (t :: r) rest
  /-- Where no token is left, no statement is found. -/
  noStatement : (Parse.statement s Token.endMark []).read =
    .error (.rejected Token.endMark (.expected "statement" Token.endMark) [Token.endMark])
  /-- Lists of statements and the branches of an `IF`, which may be empty. -/
  statements : ∀ i ≤ tokens.length, ∀ inBranch, (Parse.statements s inBranch (tokens.drop i)).read.Stays tokens i
  consequence : ∀ i ≤ tokens.length, (Parse.consequence s (tokens.drop i)).read.Stays tokens i
  alternative : ∀ i kw r, tokens.drop i = kw :: r → ¬ kw.EndsLine → (Parse.alternative s kw r).read.Stays tokens i
  /-- A line, with its first token. -/
  line : ∀ i t r seen, tokens.drop i = t :: r → (Parse.line s seen t r).Advances tokens i

end Parse

/-- **Any tokens at all are read with progress**, strictly or not, whether or not they come from a source text. -/
theorem Program.parse_makes_progress (strict : Bool) (tokens : List Token) (source : List Char) :
    Parse.Progress ⟨strict, Source.normalize source⟩ tokens (Program.parse strict tokens source) where
  ends := Parse.exists_run _ (c := ⟨0, [], -1⟩) (Nat.zero_le _)
  expression := fun _ hi => by rw [Parse.read_expression]; exact Parse.atLayer_advances _ hi
  layer := fun _ hi l => Parse.atLayer_advances l hi
  statement := by
    intro i t r h
    have hkeeps := Parse.statement_keepsLine ⟨strict, Source.normalize source⟩ t r
    refine ⟨Parse.statement_advances _ h, fun st rest hread => ?_⟩
    rwa [hread] at hkeeps
  noStatement := by rw [Parse.statement, if_neg (by decide)]; rfl
  statements := fun _ hi b => (Parse.statements_keepLine _ b _).stays hi
  consequence := fun _ hi => (Parse.consequence_keepsLine _ _).stays hi
  alternative := fun i kw r h hkw =>
    (h ▸ Parse.alternative_keepsLine _ hkw r).stays (Nat.le_of_lt (Parse.lt_of_drop_eq_cons h))
  line := fun i t r seen h => Parse.Reply.advances h (fun _ => Parse.line_fails) fun _ _ => Parse.line_reads

end Locomotive
