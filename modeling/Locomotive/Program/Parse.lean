import Locomotive.Stmt.Parse

/-!
# Reading programs

A program is read line by line; empty lines leave no trace. A label may occur once
only. Strict reading is the same reading with three more rules, checked after each
line: it has a label, its label is greater than the one before, and no statement
without a counterpart occurs.

* `Program.parse`: the program of a list of tokens.
-/

namespace Locomotive.Parse

/-- The label at the front of a line that starts with the token `t`, if it has one;
`seen` are the lines before it. -/
def lineLabel (seen : List Line) (t : Token) (ts : List Token) : Except Failure (Option String) :=
  if t.kind = .number then
    match label? t.lexeme with
    | none => .error (.rejected t (.badLabel t.lexeme) (t :: ts))
    | some l =>
      match seen.find? fun line => line.label == some l with
      | some line => .error (.rejected t (.duplicateLabel l line.number) ts)
      | none => .ok (some l)
  else .ok none

/-- The tokens of a line after its label; `t` is its first token. -/
def afterLabel (label : Option String) (t : Token) (ts : List Token) : List Token :=
  if label.isSome then ts else t :: ts

theorem length_afterLabel_le (label : Option String) (t : Token) (ts : List Token) :
    (afterLabel label t ts).length ≤ ts.length + 1 := by
  unfold afterLabel; split <;> simp

/-- The last token of the list that was taken when `rest` was left of it. -/
def lastTaken (ts rest : List Token) : Token :=
  (ts.take (ts.length - rest.length)).getLastD Token.endMark

/-- The value of a line's label. -/
def labelValue (label : String) : Int := (Text.integer? label).getD 0

/-- What strict reading finds wrong with a line; `last` is the label value before it. -/
def strictComplaint? (last : Int) (line : Line) : Option Complaint :=
  match line.label with
  | none => some .noLabel
  | some l => if labelValue l ≤ last then some (.descendingLabel l last) else none

/-- The lines from a place on; `seen` are the lines before it and `last` the value of the
last label. -/
def lines (s : Setting) (seen : List Line) (last : Int) (ts : List Token) :
    Except Failure (List Line) :=
  match ts with
  | [] => .ok []
  | t :: r =>
    if t.kind = .eof then .ok []
    else if t.kind = .eol then lines s seen last r
    else
      match lineLabel seen t r with
      | .error e => .error e
      | .ok label =>
        match statements s false (afterLabel label t r) with
        | .error e => .error e
        | .ok q =>
          let line : Line := ⟨t.line, label, q.value⟩
          match if s.strict then strictComplaint? last line else none with
          | some c => .error (.rejected (lastTaken (t :: r) q.rest.tail) c q.rest.tail)
          | none =>
            (lines s (seen ++ [line]) ((label.map labelValue).getD last) q.rest.tail).map (line :: ·)
termination_by ts.length
decreasing_by
  · simp only [List.length_cons]
    omega
  · simp only [List.length_cons, List.length_tail]
    have := q.suffix.length_le
    have := length_afterLabel_le label t r
    omega

end Locomotive.Parse

namespace Locomotive.Program

/-- The program of a list of tokens that come from the given source text. -/
def parse (strict : Bool) (tokens : List Token) (source : List Char) :
    Except Parse.Failure Program :=
  (Parse.lines ⟨strict, Source.normalize source⟩ [] (-1) tokens).map Program.mk

end Locomotive.Program
