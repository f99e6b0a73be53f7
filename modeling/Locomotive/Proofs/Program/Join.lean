import Locomotive.Proofs.Program.Alike
import Locomotive.Proofs.Token.Join

/-!
# Programs one behind the other

A program can be read in parts that end with a line: the lines of the second part follow those of the first, further
down by the number of lines of the first. Only their labels tie the parts together, since a label may occur once only.

* `Program.lines_join`: the lines of two texts.
* `Program.read_in_parts`: the program of two texts.
-/

namespace Locomotive

/-- The number of lines of a source text whose last line has ended. -/
def Source.lineCount (source : List Char) : Nat := (Source.normalize source).count '\n'

theorem Program.isOf_iff {source : List Char} {p : Program} : Program.IsOf source p ↔
    (Token.scan source).error = none ∧
      Parse.lines ⟨false, Source.normalize source⟩ [] (-1) (Token.scan source).tokens = .ok p.lines := by
  unfold IsOf Program.parse
  refine and_congr_right fun _ => ?_
  cases Parse.lines ⟨false, Source.normalize source⟩ [] (-1) (Token.scan source).tokens with
  | error e => simp [Except.map]
  | ok ls =>
    cases p
    simp [Except.map]

namespace Parse

/-! ## Quotations -/

/-- A stretch of the first of two texts. -/
theorem slice?_append_left {a b x : List Char} {i j : Int} (h : slice? a i j = some x) :
    slice? (a ++ b) i j = some x := by
  unfold slice? at h ⊢
  split at h
  · rename_i hbounds
    rw [List.length_append, if_pos ⟨hbounds.1, hbounds.2.1, by omega⟩, ← h, List.drop_append_of_le_length (by omega),
      List.take_append_of_le_length (by rw [List.length_drop]; omega)]
  · cases h

/-- A stretch of the second of two texts. -/
theorem slice?_append_right {a b x : List Char} {i j : Int} (h : slice? b i j = some x) :
    slice? (a ++ b) (i + a.length) (j + a.length) = some x := by
  unfold slice? at h ⊢
  split at h
  · rename_i hbounds
    have hstart : (i + a.length).toNat = a.length + i.toNat := by omega
    have hwidth : (j + a.length - (i + a.length)).toNat = (j - i).toNat := by omega
    rw [List.length_append, if_pos ⟨by omega, by omega, by omega⟩, hstart, hwidth, ← List.drop_drop, List.drop_left, h]
  · cases h

theorem setting_alike_left (strict : Bool) (a b : List Char) :
    Setting.Alike (fun t t' => t' = t) id ⟨strict, a⟩ ⟨strict, a ++ b⟩ := by
  refine ⟨rfl, ?_⟩
  rintro t _ u _ x x' rfl rfl hx hx'
  rw [slice?_append_left hx] at hx'
  cases hx'
  rfl

theorem setting_alike_right (strict : Bool) (a b : List Char) (m : Nat) :
    Setting.Alike (fun t t' => t' = t.shift a.length m) id ⟨strict, b⟩ ⟨strict, a ++ b⟩ := by
  refine ⟨rfl, ?_⟩
  rintro t _ u _ x x' rfl rfl hx hx'
  have hsame : slice? (a ++ b) (t.shift a.length m).pos (u.shift a.length m).stop = some x := slice?_append_right hx
  rw [hsame] at hx'
  cases hx'
  rfl

/-! ## Lines -/

theorem map_recast_id {ls ls' : List Line} {g : Int → Int}
    (h : ls'.map (Line.recast id id) = ls.map (Line.recast g id)) : ls' = ls.map (Line.recast g id) := by
  rwa [List.map_id'' Line.recast_id] at h

section

variable {strict : Bool} {a b : List Char} {init ts : List Token} {e : Token}

/-- **The lines of the first text**, and whatever comes behind them. -/
theorem lines_append_left (hinit : Token.WholeLines init) (he : e.kind = .eof)
    (hrejects : ∀ f, lines ⟨strict, a⟩ [] (-1) (init ++ [e]) = .error f → f.Rejects)
    (hrejects' : ∀ f, lines ⟨strict, a ++ b⟩ [] (-1) (init ++ ts) = .error f → f.Rejects) :
    (∃ f f', lines ⟨strict, a⟩ [] (-1) (init ++ [e]) = .error f ∧
      lines ⟨strict, a ++ b⟩ [] (-1) (init ++ ts) = .error f') ∨
    ∃ ls, lines ⟨strict, a⟩ [] (-1) (init ++ [e]) = .ok ls ∧
      lines ⟨strict, a ++ b⟩ [] (-1) (init ++ ts) =
        (lines ⟨strict, a ++ b⟩ ls (lastLabel (-1) ls) ts).map (ls ++ ·) := by
  have hsame : SameLines (fun t t' => t' = t) [e] ts (init ++ [e]) (init ++ ts) := by
    cases hlast : init.getLast? with
    | none =>
      rw [List.getLast?_eq_none_iff.1 hlast]
      exact .done
    | some l =>
      obtain ⟨front, rfl⟩ := List.getLast?_eq_some_iff.1 hlast
      rw [List.append_assoc, List.append_assoc]
      refine sameLines_of_forall₂ (List.forall₂_same.2 fun t _ => rfl) (fun t ht => ?_) rfl (.inl (hinit.last l hlast))
      exact hinit.inside t (List.mem_append_left _ ht)
  have halike : ∀ t t' : Token, t' = t → Token.Alike id t t' := by
    rintro t _ rfl
    exact ⟨rfl, rfl, rfl⟩
  rcases lines_alike halike (setting_alike_left strict a b) hsame rfl (fun _ => rfl) hrejects hrejects' with
    ⟨f, f', h, h', -⟩ | ⟨ls, ls', hread, hread', hls, -⟩
  · exact .inl ⟨f, f', h, h'⟩
  · have hsameLines : ls' = ls := by
      rw [map_recast_id hls]
      exact List.map_id'' Line.recast_id ls
    subst hsameLines
    rw [lines_eof _ _ _ he, Except.map, List.append_nil] at hread
    exact .inr ⟨ls', hread, hread'⟩

/-- **The lines of the second text**, further on. -/
theorem lines_append_right (m : Nat) (hinside : ∀ t ∈ init, t.kind ≠ .eof) (he : e.kind = .eof)
    (hrejects : ∀ f, lines ⟨false, b⟩ [] (-1) (init ++ [e]) = .error f → f.Rejects)
    (hrejects' : ∀ f, lines ⟨false, a ++ b⟩ [] (-1) ((init ++ [e]).map (Token.shift a.length m)) = .error f → f.Rejects)
    (ls' : List Line) :
    lines ⟨false, a ++ b⟩ [] (-1) ((init ++ [e]).map (Token.shift a.length m)) = .ok ls' ↔
      ∃ ls, lines ⟨false, b⟩ [] (-1) (init ++ [e]) = .ok ls ∧ ls' = ls.map (Line.recast (· + (m : Int)) id) := by
  have hsame : SameLines (fun t t' => t' = t.shift a.length m) [] [] (init ++ [e])
      ((init ++ [e]).map (Token.shift a.length m)) := by
    rw [List.map_append, List.map_singleton]
    exact sameLines_of_forall₂ (List.forall₂_map_right_iff.2 (List.forall₂_same.2 fun t _ => rfl)) hinside rfl
      (.inr ⟨he, rfl, rfl⟩)
  have halike : ∀ t t' : Token, t' = t.shift a.length m → Token.Alike (· + (m : Int)) t t' := by
    rintro t _ rfl
    exact ⟨rfl, rfl, rfl⟩
  rcases lines_alike_all halike (setting_alike_right false a b m) hsame rfl (fun _ => rfl) hrejects hrejects' with
    ⟨f, f', h, h'⟩ | ⟨ls, ls₀, h, h', hls, -⟩
  · rw [h, h']
    simp
  · rw [h, h', map_recast_id hls]
    constructor
    · rintro ⟨⟩
      exact ⟨ls, rfl, rfl⟩
    · rintro ⟨_, ⟨⟩, rfl⟩
      rfl

theorem labelsOf_map_recast (g : Int → Int) (f : String → String) (ls : List Line) :
    labelsOf (ls.map (Line.recast g f)) = labelsOf ls := by
  rw [labelsOf, labelsOf, List.filterMap_map]
  rfl

end

end Parse

/-! ## Programs -/

section

variable {a b : List Char}

/-- **The lines of two texts**, where both are scanned without an error. -/
theorem Program.lines_join {init : List Token} {e : Token} (hinit : Token.WholeLines init) (he : e.kind = .eof)
    (ha : (Token.scan a).tokens = init ++ [e]) (herror : (Token.scan b).error = none)
    (hnorm : Source.normalize (a ++ b) = Source.normalize a ++ Source.normalize b)
    (hab : (Token.scan (a ++ b)).tokens =
      init ++ (Token.scan b).tokens.map (Token.shift (Source.normalize a).length (Source.lineCount a)))
    (ls : List Line) :
    Parse.lines ⟨false, Source.normalize (a ++ b)⟩ [] (-1) (Token.scan (a ++ b)).tokens = .ok ls ↔
      ∃ la lb, Parse.lines ⟨false, Source.normalize a⟩ [] (-1) (Token.scan a).tokens = .ok la ∧
        Parse.lines ⟨false, Source.normalize b⟩ [] (-1) (Token.scan b).tokens = .ok lb ∧
        (∀ l ∈ labelsOf la, l ∉ labelsOf lb) ∧ ls = la ++ lb.map (Line.recast (· + (Source.lineCount a : Int)) id) := by
  have hrejectsA := Parse.lines_rejects false _ (List.suffix_refl (Token.scan a).tokens) [] (-1)
  have hrejectsB := Parse.lines_rejects false _ (List.suffix_refl (Token.scan b).tokens) [] (-1)
  have hrejects := Parse.lines_rejects false _ (List.suffix_refl (Token.scan (a ++ b)).tokens) [] (-1)
  have hrejectsTail := Parse.lines_rejects false (Source.normalize (a ++ b)) (hab ▸ List.suffix_append init _) [] (-1)
  obtain ⟨tokens, eof, hb, heof, -, -, hinside⟩ := ((Token.scanned _ 0 1).tiles herror).last
  have htokens : (Token.scan b).tokens = tokens ++ [eof] := hb
  rw [hnorm] at hrejects hrejectsTail ⊢
  rw [hab] at hrejects ⊢
  rw [ha] at hrejectsA ⊢
  rw [htokens] at hrejectsB hrejects hrejectsTail ⊢
  rcases Parse.lines_append_left hinit he hrejectsA hrejects with ⟨f, f', h, h'⟩ | ⟨la, h, h'⟩
  · rw [h, h']
    simp
  · -- the lines of the second text are read after those of the first, so their labels must be others
    have hright := Parse.lines_append_right (Source.lineCount a) hinside heof hrejectsB hrejectsTail
    have hlabels : ∀ l, l ∈ labelsOf la ↔ l ∈ labelsOf la ∨ l ∈ labelsOf [] := by simp [labelsOf]
    have hseen := Parse.lines_narrows_seen (s := ⟨false, Source.normalize a ++ Source.normalize b⟩) rfl hlabels (-1)
      (Parse.lastLabel (-1) la)
      ((tokens ++ [eof]).map (Token.shift (Source.normalize a).length (Source.lineCount a)))
    rw [h, h']
    constructor
    · intro hls
      cases hx : Parse.lines ⟨false, Source.normalize a ++ Source.normalize b⟩ la (Parse.lastLabel (-1) la)
          ((tokens ++ [eof]).map (Token.shift (Source.normalize a).length (Source.lineCount a))) with
      | error f =>
        rw [hx] at hls
        cases hls
      | ok x =>
        rw [hx] at hls
        cases hls
        obtain ⟨hread, hnew⟩ := (hseen.ok_iff x).1 hx
        obtain ⟨lb, hlb, rfl⟩ := (hright x).1 hread
        rw [Parse.labelsOf_map_recast] at hnew
        exact ⟨la, lb, rfl, hlb, fun l hl hl' => hnew l hl' hl, rfl⟩
    · rintro ⟨_, lb, ⟨⟩, hlb, hnew, rfl⟩
      have hread := (hseen.ok_iff _).2 ⟨(hright _).2 ⟨lb, hlb, rfl⟩, by
        rw [Parse.labelsOf_map_recast]
        exact fun l hl hl' => hnew l hl' hl⟩
      rw [hread]
      rfl

/-- **A program can be read in parts.** Two source texts, the first of which ends with a line break, are a program
together if each is one by itself and they share no label. It has the lines of the first and then those of the second,
with everything they record further down by the lines of the first; and so do the warnings of scanning. -/
theorem Program.read_in_parts (ha : a.getLast? = some '\n') (hb : b.head? ≠ some Source.byteOrderMark) :
    (∀ p, Program.IsOf (a ++ b) p ↔ ∃ pa pb, Program.IsOf a pa ∧ Program.IsOf b pb ∧
      (∀ l ∈ labelsOf pa.lines, l ∉ labelsOf pb.lines) ∧
      p.lines = pa.lines ++ pb.lines.map (Line.recast (· + (Source.lineCount a : Int)) id)) ∧
    ((Token.scan a).error = none → (Token.scan (a ++ b)).warnings =
      (Token.scan a).warnings ++ (Token.scan b).warnings.map fun w => (w.1 + Source.lineCount a, w.2)) := by
  have hnorm := Source.normalize_append ha hb
  rcases Token.scan_append ha hb with ⟨herror, herror'⟩ | ⟨hinit, -, he, htokens, herror, hwhole⟩
  · refine ⟨fun p => ?_, fun h => absurd h herror⟩
    simp [Program.IsOf, herror, herror']
  · refine ⟨fun p => ?_, fun _ => by rw [hwhole]; rfl⟩
    have hjoined : (Token.scan (a ++ b)).error = none ↔ (Token.scan b).error = none := by
      rw [hwhole]
      exact Option.map_eq_none_iff
    by_cases herrorB : (Token.scan b).error = none
    · have hjoin := Program.lines_join hinit he htokens herrorB hnorm (by rw [hwhole]; rfl) p.lines
      simp only [Program.isOf_iff, herror, herrorB, hjoined.2 herrorB, true_and, hjoin]
      constructor
      · rintro ⟨la, lb, hla, hlb, hrest⟩
        exact ⟨⟨la⟩, ⟨lb⟩, hla, hlb, hrest⟩
      · rintro ⟨pa, pb, hla, hlb, hrest⟩
        exact ⟨pa.lines, pb.lines, hla, hlb, hrest⟩
    · have herrorAB : (Token.scan (a ++ b)).error ≠ none := mt hjoined.1 herrorB
      simp [Program.IsOf, herrorB, herrorAB]

end

/-- A jump and a string without its second quote, behind a line with a number. -/
theorem Program.read_in_parts_two_lines :
    "10 PRINT 1.5\r\n".toList.getLast? = some '\n' ∧ "20 GOTO 10:PRINT \"x".toList.head? ≠ some Source.byteOrderMark ∧
    (∃ pa pb p, Program.IsOf "10 PRINT 1.5\r\n".toList pa ∧ Program.IsOf "20 GOTO 10:PRINT \"x".toList pb ∧
      Program.IsOf ("10 PRINT 1.5\r\n".toList ++ "20 GOTO 10:PRINT \"x".toList) p ∧
      p.lines = pa.lines ++ pb.lines.map (Line.recast (· + 1) id)) ∧
    (Token.scan ("10 PRINT 1.5\r\n".toList ++ "20 GOTO 10:PRINT \"x".toList)).warnings =
      [(2, .unterminated ['x'])] := by
  have hread : ∀ (source : List Char) (label : String), (Token.scan source).error = none →
      (Program.parse false (Token.scan source).tokens source).toOption.map (fun p => labelsOf p.lines) = some [label] →
      ∃ p, Program.IsOf source p ∧ labelsOf p.lines = [label] := by
    intro source label herror hlabels
    cases hp : Program.parse false (Token.scan source).tokens source with
    | error f =>
      rw [hp] at hlabels
      cases hlabels
    | ok p =>
      rw [hp] at hlabels
      exact ⟨p, ⟨herror, hp⟩, Option.some.inj hlabels⟩
  have hcount : Source.lineCount "10 PRINT 1.5\r\n".toList = 1 := by decide +kernel
  obtain ⟨pa, hpa, hla⟩ := hread "10 PRINT 1.5\r\n".toList "10" (by decide +kernel) (by decide +kernel)
  obtain ⟨pb, hpb, hlb⟩ := hread "20 GOTO 10:PRINT \"x".toList "20" (by decide +kernel) (by decide +kernel)
  have hlast : "10 PRINT 1.5\r\n".toList.getLast? = some '\n' := by decide
  have hmark : "20 GOTO 10:PRINT \"x".toList.head? ≠ some Source.byteOrderMark := by decide
  obtain ⟨hprogram, hwarnings⟩ := Program.read_in_parts hlast hmark
  rw [hcount] at hprogram hwarnings
  refine ⟨hlast, hmark, ⟨pa, pb, ⟨_⟩, hpa, hpb, (hprogram _).2 ⟨pa, pb, hpa, hpb, ?_, rfl⟩, rfl⟩, ?_⟩
  · rw [hla, hlb]
    decide
  · rw [hwarnings hpa.1]
    decide +kernel

end Locomotive
