import Locomotive.Parse

/-!
# What a parser gives

`Outcome.read` is the value and the remaining tokens of a parser, without the proof that
these are a suffix; what a parser computes is stated of it.
-/

namespace Locomotive

/-- A result that passes a test is there. -/
theorem exists_ok_of_any {ε α : Type} {x : Except ε α} {q : α → Bool} (h : x.toOption.any q = true) :
    ∃ a, x = .ok a ∧ q a = true := by
  cases x with
  | error e => cases h
  | ok a => exact ⟨a, rfl, h⟩

theorem exists_ok_of_isSome {ε α : Type} {x : Except ε α} (h : x.toOption.isSome = true) : ∃ a, x = .ok a := by
  cases x with
  | error e => cases h
  | ok a => exact ⟨a, rfl⟩

end Locomotive

namespace Locomotive.Parse

variable {α β : Type} {ts : List Token}

/-- What a parser gives: a value and the tokens after it, or a failure. -/
abbrev Reply (α : Type) := Except Failure (α × List Token)

/-- Goes on with the value from the tokens after it. -/
def Reply.andThen (o : Reply α) (f : α → List Token → Reply β) : Reply β :=
  match o with
  | .error e => .error e
  | .ok (a, rest) => f a rest

@[simp] theorem Reply.andThen_ok (a : α) (rest : List Token) (f : α → List Token → Reply β) :
    Reply.andThen (.ok (a, rest)) f = f a rest := rfl

theorem Reply.andThen_eq_ok {o : Reply α} {f : α → List Token → Reply β} {x : β × List Token}
    (h : o.andThen f = .ok x) : ∃ a rest, o = .ok (a, rest) ∧ f a rest = .ok x := by
  rcases o with e | ⟨a, rest⟩
  · cases h
  · exact ⟨a, rest, rfl, h⟩

/-- The value and the tokens after it. -/
def Outcome.read (o : Outcome α ts) : Reply α :=
  match o with
  | .error f => .error f
  | .ok p => .ok (p.value, p.rest)

@[simp] theorem read_ok (p : Parsed α ts) : Outcome.read (.ok p) = .ok (p.value, p.rest) := rfl

@[simp] theorem read_error (f : Failure) : Outcome.read (.error f : Outcome α ts) = .error f := rfl

@[simp] theorem read_widen {r : List Token} (o : Outcome α r) (h : r <:+ ts) : (o.widen h).read = o.read := by
  cases o <;> rfl

theorem exists_of_read {o : Outcome α ts} {a : α} {rest : List Token} (h : o.read = .ok (a, rest)) :
    ∃ q, o = .ok q ∧ q.value = a ∧ q.rest = rest := by
  cases o with
  | error e => cases h
  | ok q =>
    cases h
    exact ⟨q, rfl, rfl, rfl⟩

theorem read_eq_ok_iff {o : Outcome α ts} {q : Parsed α ts} : o.read = .ok (q.value, q.rest) ↔ o = .ok q := by
  constructor
  · intro h
    obtain ⟨⟨a, rest, hsuf⟩, rfl, rfl, rfl⟩ := exists_of_read h
    rfl
  · rintro rfl
    rfl

theorem suffix_of_read {o : Outcome α ts} {a : α} {rest : List Token} (h : o.read = .ok (a, rest)) : rest <:+ ts := by
  obtain ⟨q, -, -, rfl⟩ := exists_of_read h
  exact q.suffix

theorem read_bind (p : Parser α) (f : α → Parser β) (ts : List Token) :
    Outcome.read ((p >>= f) ts) = (p ts).read.andThen fun a rest => (f a rest).read := by
  simp only [bind]
  cases p ts with
  | error e => rfl
  | ok q => exact read_widen _ _

/-- The failure is a complaint about a token. -/
def Failure.Rejects : Failure → Prop
  | rejected _ _ _ => True
  | outsideSource _ => False

namespace Parser

/-- The token that a kind is expected of. -/
theorem read_expect (kind : Token.Kind) (ts : List Token) :
    (expect kind ts).read = if (ts.headD Token.endMark).kind = kind then .ok (ts.headD Token.endMark, ts.tail)
      else .error (.rejected (ts.headD Token.endMark) (.expected kind.name (ts.headD Token.endMark)) ts.tail) := by
  rw [expect, read_bind]
  cases ts with
  | nil => by_cases h : Token.endMark.kind = kind <;> simp [next, h] <;> rfl
  | cons t r => by_cases h : t.kind = kind <;> simp [next, h] <;> rfl

end Parser

end Locomotive.Parse
