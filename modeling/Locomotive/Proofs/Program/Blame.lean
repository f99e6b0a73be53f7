import Locomotive.Compiler
import Locomotive.Proofs.Program.Join
import Locomotive.Proofs.Program.Numbered
import Locomotive.Proofs.Split

/-!
# The line that is to blame

A program is read line by line, and no parser looks behind the end of its line. So where reading fails, the token that
is blamed stands on the line that is read, and the message shows this line. The lines before it are a program by
themselves, and with it they are none.

* `Source.firstLines`: the first lines of a text.
* `Parse.sameLine_row`: the tokens of a line, whatever follows it.
* `Parse.lines_blames`: where a line cannot be read, a token of it is blamed.
* `Program.parse_blames_first_line`: the message names the first line that cannot be read.
-/

namespace Locomotive

/-! ## The first lines of a text -/

namespace Source

/-- The first `n` lines of a text, with their line breaks. -/
def firstLines : Nat → List Char → List Char
  | 0, _ => []
  | _ + 1, [] => []
  | n + 1, c :: cs => c :: firstLines (if c = '\n' then n else n + 1) cs

theorem firstLines_zero (cs : List Char) : firstLines 0 cs = [] := by
  cases cs <;> rfl

theorem firstLines_break (n : Nat) (cs : List Char) : firstLines (n + 1) ('\n' :: cs) = '\n' :: firstLines n cs := by
  rw [firstLines, if_pos rfl]

theorem firstLines_other {c : Char} (hc : c ≠ '\n') (n : Nat) (cs : List Char) :
    firstLines (n + 1) (c :: cs) = c :: firstLines (n + 1) cs := by
  rw [firstLines, if_neg hc]

theorem lines_break (cs : List Char) : lines ('\n' :: cs) = [] :: lines cs := Text.splitAt_self '\n' cs

/-- A character that ends no line belongs to the first one. -/
theorem lines_other {c : Char} (hc : c ≠ '\n') (cs : List Char) :
    ∃ l ls, lines cs = l :: ls ∧ lines (c :: cs) = (c :: l) :: ls := Text.splitAt_other hc cs

theorem firstLines_prefix (n : Nat) (cs : List Char) : firstLines n cs <+: cs := by
  fun_induction firstLines n cs with
  | case1 cs => exact List.nil_prefix
  | case2 n => exact List.nil_prefix
  | case3 n c cs ih => exact List.cons_prefix_cons.2 ⟨rfl, ih⟩

/-- All lines are the text. -/
theorem firstLines_all (cs : List Char) : firstLines (lines cs).length cs = cs := by
  induction cs with
  | nil => rfl
  | cons c cs ih =>
    by_cases hc : c = '\n'
    · subst hc
      rw [lines_break, List.length_cons, firstLines_break, ih]
    · obtain ⟨l, ls, hcs, hlines⟩ := lines_other hc cs
      rw [hcs, List.length_cons] at ih
      rw [hlines, List.length_cons, firstLines_other hc, ih]

/-- **A text at the line behind its first `n`**: the line, and what follows it, which starts with its line break. -/
structure At (n : Nat) (cs line rest : List Char) : Prop where
  text : cs = firstLines n cs ++ (line ++ rest)
  closed : Text.Closed (firstLines n cs)
  count : (firstLines n cs).count '\n' = n
  shown : (lines cs)[n]? = some line
  unbroken : '\n' ∉ line
  ends : rest = [] ∨ ∃ more, rest = '\n' :: more
  next : firstLines (n + 1) cs = firstLines n cs ++ (line ++ rest.take 1)

/-- Every line of a text stands at such a place. -/
theorem exists_at {n : Nat} {cs : List Char} (h : n < (lines cs).length) : ∃ line rest, At n cs line rest := by
  have hnil : Text.Closed [] := fun c hc => by cases hc
  -- a character in front belongs to the first line, or is a line of its own with its break
  induction cs generalizing n with
  | nil =>
    obtain rfl : n = 0 := Nat.lt_one_iff.1 h
    exact ⟨[], [], rfl, hnil, rfl, rfl, List.not_mem_nil, .inl rfl, rfl⟩
  | cons c cs ih =>
    by_cases hc : c = '\n'
    · subst hc
      cases n with
      | zero =>
        refine ⟨[], '\n' :: cs, rfl, hnil, rfl, by rw [lines_break]; rfl, List.not_mem_nil, .inr ⟨cs, rfl⟩, ?_⟩
        rw [firstLines_break, firstLines_zero]
        rfl
      | succ n =>
        rw [lines_break, List.length_cons] at h
        obtain ⟨line, rest, hat⟩ := ih (Nat.lt_of_succ_lt_succ h)
        refine ⟨line, rest, ?_, ?_, ?_, ?_, hat.unbroken, hat.ends, ?_⟩
        · rw [firstLines_break, List.cons_append, ← hat.text]
        · rw [firstLines_break]
          exact hat.closed.cons fun _ => rfl
        · rw [firstLines_break, List.count_cons_self, hat.count]
        · rw [lines_break, List.getElem?_cons_succ, hat.shown]
        · rw [firstLines_break, firstLines_break, hat.next, List.cons_append]
    · obtain ⟨l, ls, hcs, hlines⟩ := lines_other hc cs
      have hlen : (lines (c :: cs)).length = (lines cs).length := by rw [hcs, hlines]; rfl
      rw [hlen] at h
      obtain ⟨line, rest, hat⟩ := ih h
      have hshown := hat.shown
      rw [hcs] at hshown
      cases n with
      | zero =>
        obtain rfl : l = line := Option.some.inj hshown
        refine ⟨c :: l, rest, ?_, hnil, rfl, by rw [hlines]; rfl, ?_, hat.ends, ?_⟩
        · have htext := hat.text
          rw [firstLines_zero, List.nil_append] at htext
          exact congrArg (c :: ·) htext
        · exact List.not_mem_cons_of_ne_of_not_mem (Ne.symm hc) hat.unbroken
        · rw [firstLines_other hc, hat.next, firstLines_zero]
          rfl
      | succ n =>
        refine ⟨line, rest, ?_, ?_, ?_, ?_, hat.unbroken, hat.ends, ?_⟩
        · rw [firstLines_other hc, List.cons_append, ← hat.text]
        · rw [firstLines_other hc]
          refine hat.closed.cons fun hempty => ?_
          have hcount := hat.count
          rw [hempty] at hcount
          cases hcount
        · rw [firstLines_other hc, List.count_cons_of_ne hc, hat.count]
        · rw [hlines, ← hshown]
          rfl
        · rw [firstLines_other hc, firstLines_other hc, hat.next, List.cons_append]

end Source

/-! ## The tokens of a line -/

namespace Token

/-- A text that starts with a byte order mark is not scanned. -/
theorem head?_ne_mark {cs : List Char} {pos line : Nat} (h : (scanFrom cs pos line).error = none) :
    cs.head? ≠ some Source.byteOrderMark := by
  intro hhead
  obtain ⟨r, rfl⟩ := List.head?_eq_some_iff.1 hhead
  have he : piece Source.byteOrderMark r = .error (.unexpected Source.byteOrderMark) := rfl
  rw [scanFrom_failed (by decide) he] at h
  cases h

end Token

namespace Parse

open Token (scanFrom scanned)

/-- **The tokens of a line** are the same whatever follows it, and have its number. -/
theorem sameLine_row {line rest : List Char} (hline : '\n' ∉ line) (hrest : rest = [] ∨ ∃ more, rest = '\n' :: more)
    {pos n : Nat} (h : (scanFrom (line ++ rest) pos n).error = none) :
    ∃ v v', SameLine (fun t t' => t' = t ∧ t.line = n) v v' (scanFrom (line ++ rest.take 1) pos n).tokens
        (scanFrom (line ++ rest) pos n).tokens ∧ (v = [] ∨ ∃ e : Token, v = [e] ∧ e.kind = .eof) := by
  rcases hrest with rfl | ⟨more, rfl⟩
  · -- the last line ends with the text
    obtain ⟨body, e, v, hfirst⟩ := (scanned _ pos n).firstLine h hline (by simp) rfl
    obtain ⟨-, he, rfl⟩ | ⟨more, pos', row, s, hmore, -⟩ := hfirst.ends
    · rw [List.take_nil, hfirst.tokens]
      exact ⟨[], [], sameLine_self (fun t ht => ⟨rfl, hfirst.row t ht⟩) hfirst.inLine (.inr ⟨he, rfl, rfl⟩), .inl rfl⟩
    · cases hmore
  · -- the line with its line break is scanned by itself
    have hclosed : Text.Closed (line ++ ['\n']) := fun c hc => by simpa using hc.symm
    have hjoined := (scanned _ pos n).append hclosed more
    rw [List.append_assoc, List.singleton_append] at hjoined
    rw [List.take_succ_cons, List.take_zero]
    cases hjoined with
    | failed _ h' => exact absurd h h'
    | @found init last _ _ hlast htokens herror hwhole =>
      obtain ⟨body, e, v, hfirst⟩ := (scanned _ pos n).firstLine herror hline (by simp) rfl
      obtain ⟨hnil, -⟩ | ⟨more', pos', row, s, hmore, he, rfl, run, -⟩ := hfirst.ends
      · cases hnil
      cases (List.cons.inj hmore).2
      cases run
      have hinit : init = body ++ [e] := by
        have hsplit := hfirst.tokens
        rw [htokens, List.append_cons body e] at hsplit
        exact (List.append_inj' hsplit rfl).1
      rw [hwhole, hfirst.tokens, hinit, Token.Scan.behind, List.append_assoc, List.singleton_append]
      exact ⟨_, _, sameLine_self (fun t ht => ⟨rfl, hfirst.row t ht⟩) hfirst.inLine (.inl he), .inr ⟨_, rfl, rfl⟩⟩

/-! ## Blame -/

/-- **Where a line cannot be read**, a token of it is blamed. -/
theorem lines_blames {s s' : Setting} (hs : Setting.Alike (fun t t' => t' = t) id s s') {n : Int}
    {v v' ts ts' : List Token} (h : SameLine (fun t t' => t' = t ∧ t.line = n) v v' ts ts')
    (hv : v = [] ∨ ∃ e : Token, v = [e] ∧ e.kind = .eof) {seen : List Line} {last : Int}
    (hrejects : ∀ f, lines s seen last ts = .error f → f.Rejects)
    (hrejects' : ∀ f, lines s' seen last ts' = .error f → f.Rejects) :
    (∃ t c rest, lines s' seen last ts' = .error (.rejected t c rest) ∧ t.line = n) ∨
      ∃ ls, lines s seen last ts = .ok ls := by
  have halike : ∀ t t' : Token, t' = t ∧ t.line = n → Token.Alike id t t' := by
    rintro t _ ⟨rfl, -⟩
    exact ⟨rfl, rfl, rfl⟩
  -- tokens are related only to themselves and only on this line, so the two readings blame one token of it
  have hsetting : Setting.Alike (fun t t' => t' = t ∧ t.line = n) id s s' :=
    ⟨hs.strict, fun _ _ _ _ _ _ ha hb => hs.quotes _ _ _ _ _ _ ha.1 hb.1⟩
  rcases lines_alike halike hsetting (.cons h .done) rfl (fun _ => rfl) hrejects hrejects' with
    ⟨f, f', hf, hf', hblamed⟩ | ⟨ls, ls', hread, -⟩
  · left
    have hr := hrejects f hf
    have hr' := hrejects' f' hf'
    cases f with
    | outsideSource => exact hr.elim
    | rejected t c rest =>
      cases f' with
      | outsideSource => exact hr'.elim
      | rejected t' c' rest' =>
        obtain ⟨rfl, hn⟩ : t' = t ∧ t.line = n := hblamed
        exact ⟨t', c', rest', hf', hn⟩
  · right
    rcases hv with rfl | ⟨e, rfl, he⟩
    · exact ⟨ls, by rw [hread, lines_nil, Except.map, List.append_nil]⟩
    · exact ⟨ls, by rw [hread, lines_eof _ _ _ he, Except.map, List.append_nil]⟩

/-- The lines of a text that is normalized already. -/
def linesOf (strict : Bool) (cs : List Char) : Except Failure (List Line) :=
  lines ⟨strict, cs⟩ [] (-1) (scanFrom cs 0 1).tokens

/-- **Lines behind others** are read after them. -/
theorem linesOf_append {strict : Bool} {a : List Char} (ha : Text.Closed a) {ls : List Line}
    (hls : linesOf strict a = .ok ls) {b : List Char} (herror : (scanFrom (a ++ b) 0 1).error = none) :
    (scanFrom b (0 + a.length) (1 + a.count '\n')).tokens <:+ (scanFrom (a ++ b) 0 1).tokens ∧
      (scanFrom b (0 + a.length) (1 + a.count '\n')).error = none ∧
      linesOf strict (a ++ b) = (lines ⟨strict, a ++ b⟩ ls (lastLabel (-1) ls)
        (scanFrom b (0 + a.length) (1 + a.count '\n')).tokens).map (ls ++ ·) := by
  have hrejects := lines_rejects strict a (List.suffix_refl _) [] (-1)
  have hrejects' := lines_rejects strict (a ++ b) (List.suffix_refl _) [] (-1)
  unfold linesOf at hls ⊢
  cases (scanned a 0 1).append ha b with
  | failed _ h' => exact absurd herror h'
  | @found init e hinit _ he htokens _ hwhole =>
    rw [hwhole] at herror hrejects' ⊢
    rw [htokens] at hrejects hls
    refine ⟨List.suffix_append _ _, herror, ?_⟩
    rcases lines_append_left hinit he hrejects hrejects' with ⟨f, f', h, -⟩ | ⟨ls', h, hread⟩
    · rw [hls] at h
      cases h
    · rw [hls] at h
      cases h
      exact hread

/-- **The line with which reading starts to fail** is the one that is blamed. -/
theorem linesOf_blames {strict : Bool} {n : Nat} {cs line rest : List Char} (hat : Source.At n cs line rest)
    (herror : (scanFrom cs 0 1).error = none) (herror' : (scanFrom (Source.firstLines (n + 1) cs) 0 1).error = none)
    {ls : List Line} (hbefore : linesOf strict (Source.firstLines n cs) = .ok ls) {f f' : Failure}
    (hwith : linesOf strict (Source.firstLines (n + 1) cs) = .error f) (hall : linesOf strict cs = .error f') :
    ∃ t c r, f' = .rejected t c r ∧ t.line = (n + 1 : Nat) := by
  have htext := hat.text
  have hcount := hat.count
  have hclosed := hat.closed
  rw [hat.next] at herror' hwith
  generalize Source.firstLines n cs = a at *
  subst htext
  -- both readings come to the line behind the same lines
  obtain ⟨hsuffix, hrow, hread⟩ := linesOf_append hclosed hbefore herror
  obtain ⟨hsuffix', -, hread'⟩ := linesOf_append hclosed hbefore herror'
  rw [hcount, Nat.add_comm 1 n] at hsuffix hrow hread hsuffix' hread'
  obtain ⟨v, v', hsame, hv⟩ := sameLine_row hat.unbroken hat.ends hrow
  have hsetting := setting_alike_left strict (a ++ (line ++ rest.take 1)) (rest.drop 1)
  rw [List.append_assoc, List.append_assoc, List.take_append_drop] at hsetting
  rcases lines_blames hsetting hsame hv (lines_rejects strict _ hsuffix' ls _)
      (lines_rejects strict _ hsuffix ls (lastLabel (-1) ls)) with ⟨t, c, r, hblamed, hn⟩ | ⟨more, hmore⟩
  · rw [hread, hblamed] at hall
    cases hall
    exact ⟨t, c, r, rfl, hn⟩
  · rw [hread', hmore] at hwith
    cases hwith

end Parse

/-! ## Messages -/

/-- The source text is scanned without an error and read as a program. -/
def Program.Reads (strict : Bool) (source : List Char) : Prop :=
  (Token.scan source).error = none ∧ ∃ p, Program.parse strict (Token.scan source).tokens source = .ok p

theorem Program.parse_scan (strict : Bool) (source : List Char) :
    Program.parse strict (Token.scan source).tokens source =
      (Parse.linesOf strict (Source.normalize source)).map Program.mk := rfl

/-- A text that is normalized already is a program if its lines can be read. -/
theorem Program.reads_iff {strict : Bool} {cs : List Char} (hcs : Source.normalize cs = cs)
    (herror : (Token.scanFrom cs 0 1).error = none) :
    Program.Reads strict cs ↔ ∃ ls, Parse.linesOf strict cs = .ok ls := by
  rw [Program.Reads, Program.parse_scan, Token.scan, hcs]
  cases Parse.linesOf strict cs with
  | error f =>
    constructor
    · rintro ⟨-, p, hp⟩
      cases hp
    · rintro ⟨ls, hls⟩
      cases hls
  | ok ls => exact ⟨fun _ => ⟨ls, rfl⟩, fun _ => ⟨herror, ⟨ls⟩, rfl⟩⟩

theorem Parse.snippet_of_line {lines : List (List Char)} {n : Nat} {line : List Char} (h : lines[n]? = some line) :
    Parse.snippet lines (n + 1 : Nat) = String.ofList (Text.trimChars line) := by
  have hindex : (((n + 1 : Nat) : Int) - 1).toNat = n := by omega
  rw [Parse.snippet, if_pos (by omega), hindex, h]

/-- **The lines of a source text**, up to one of them, are normalized and scanned like the text. -/
theorem Token.scan_firstLines {source : List Char} (hscan : (Token.scan source).error = none) {n : Nat}
    (hn : n ≤ (Source.lines (Source.normalize source)).length) :
    Source.normalize (Source.firstLines n (Source.normalize source)) =
        Source.firstLines n (Source.normalize source) ∧
      (Token.scanFrom (Source.firstLines n (Source.normalize source)) 0 1).error = none := by
  have herror : (Token.scanFrom (Source.normalize source) 0 1).error = none := hscan
  have hmark := Token.head?_ne_mark herror
  have hreturn := Source.return_not_mem_normalize source
  generalize Source.normalize source = cs at *
  have hfront := Source.firstLines_prefix n cs
  constructor
  · refine Source.normalize_eq_self (fun hc => hreturn (hfront.mem hc)) fun hhead => hmark ?_
    obtain ⟨r, hr⟩ := List.head?_eq_some_iff.1 hhead
    obtain ⟨more, hmore⟩ := hfront
    rw [← hmore, hr]
    rfl
  · rcases Nat.lt_or_eq_of_le hn with hlt | rfl
    · obtain ⟨line, rest, hat⟩ := Source.exists_at hlt
      rw [hat.text] at herror
      cases (Token.scanned _ 0 1).append hat.closed (line ++ rest) with
      | failed _ h' => exact absurd herror h'
      | found _ _ _ _ hfound _ => exact hfound
    · rw [Source.firstLines_all]
      exact herror

/-- Where lines cannot be read, one of them is the first with which they cannot. -/
theorem Parse.exists_first_unread {strict : Bool} {cs : List Char} {n : Nat} {f : Parse.Failure}
    (h : Parse.linesOf strict (Source.firstLines n cs) = .error f) :
    ∃ k ls f', k < n ∧ Parse.linesOf strict (Source.firstLines k cs) = .ok ls ∧
      Parse.linesOf strict (Source.firstLines (k + 1) cs) = .error f' := by
  induction n generalizing f with
  | zero =>
    rw [Source.firstLines_zero, Parse.linesOf, Token.scanFrom, Parse.lines_eof _ _ _ rfl] at h
    cases h
  | succ n ih =>
    cases hread : Parse.linesOf strict (Source.firstLines n cs) with
    | ok ls => exact ⟨n, ls, f, Nat.lt_succ_self n, hread, h⟩
    | error f' =>
      obtain ⟨k, ls, g, hk, hbefore, hwith⟩ := ih hread
      exact ⟨k, ls, g, Nat.lt_succ_of_lt hk, hbefore, hwith⟩

/-- **The first line that cannot be read is the `n`-th**, and the message is about it. -/
structure Program.BlamesLine (strict : Bool) (source : List Char) (f : Parse.Failure) (n : Nat) : Prop where
  /-- The text has such a line. -/
  among : 1 ≤ n ∧ n ≤ (Source.lines (Source.normalize source)).length
  /-- The message starts with its number and ends with its text, without the blanks around it. -/
  message : ∃ line complaint, (Source.lines (Source.normalize source))[n - 1]? = some line ∧
    (CompileError.parse f).message source =
      "line " ++ toString n ++ ": " ++ Parse.Complaint.text complaint ++ "\n  |> " ++
        String.ofList (Text.trimChars line)
  /-- The lines before it are a program by themselves. -/
  before : Program.Reads strict (Source.firstLines (n - 1) (Source.normalize source))
  /-- With it they are scanned, but they are no program. -/
  scanned : (Token.scan (Source.firstLines n (Source.normalize source))).error = none
  unread : ¬ Program.Reads strict (Source.firstLines n (Source.normalize source))

/-- **The message names the first line that cannot be read**, where a source text is scanned without an error but is no
program. -/
theorem Program.parse_blames_first_line (strict : Bool) {source : List Char} {f : Parse.Failure}
    (hscan : (Token.scan source).error = none)
    (hparse : Program.parse strict (Token.scan source).tokens source = .error f) :
    ∃ n, Program.BlamesLine strict source f n := by
  have hall : Parse.linesOf strict (Source.normalize source) = .error f := by
    rw [Program.parse_scan] at hparse
    cases h : Parse.linesOf strict (Source.normalize source) with
    | error g =>
      rw [h] at hparse
      exact congrArg _ (Except.error.inj hparse)
    | ok ls =>
      rw [h] at hparse
      cases hparse
  have hlast := hall
  rw [← Source.firstLines_all (Source.normalize source)] at hlast
  obtain ⟨n, ls, g, hn, hbefore, hwith⟩ := Parse.exists_first_unread hlast
  obtain ⟨line, rest, hat⟩ := Source.exists_at hn
  obtain ⟨hself, herror⟩ := Token.scan_firstLines hscan (Nat.le_of_lt hn)
  obtain ⟨hself', herror'⟩ := Token.scan_firstLines hscan hn
  obtain ⟨t, c, r, rfl, ht⟩ := Parse.linesOf_blames hat hscan herror' hbefore hwith hall
  refine ⟨n + 1, ⟨Nat.le_add_left 1 n, hn⟩, ⟨line, c, hat.shown, ?_⟩, (Program.reads_iff hself herror).2 ⟨ls, hbefore⟩,
    ?_, ?_⟩
  · rw [CompileError.message, Parse.message, ht, Parse.snippet_of_line hat.shown]
    rfl
  · rw [Token.scan, hself']
    exact herror'
  · rw [Program.reads_iff hself' herror', hwith]
    rintro ⟨ls, hls⟩
    cases hls

/-- A parenthesis that is not closed on its line. -/
theorem Program.parse_blames_open_parenthesis :
    (Token.scan "10 CLS\n20 PRINT (1\n30 END".toList).error = none ∧
    ∃ f, Program.parse true (Token.scan "10 CLS\n20 PRINT (1\n30 END".toList).tokens
        "10 CLS\n20 PRINT (1\n30 END".toList = .error f ∧
      ∃ n, Program.BlamesLine true "10 CLS\n20 PRINT (1\n30 END".toList f n := by
  have hscan : (Token.scan "10 CLS\n20 PRINT (1\n30 END".toList).error = none := by decide +kernel
  have hfails : (Program.parse true (Token.scan "10 CLS\n20 PRINT (1\n30 END".toList).tokens
      "10 CLS\n20 PRINT (1\n30 END".toList).toOption.isNone = true := by decide +kernel
  refine ⟨hscan, ?_⟩
  cases hparse : Program.parse true (Token.scan "10 CLS\n20 PRINT (1\n30 END".toList).tokens
      "10 CLS\n20 PRINT (1\n30 END".toList with
  | error f => exact ⟨f, rfl, Program.parse_blames_first_line true hscan hparse⟩
  | ok p =>
    rw [hparse] at hfails
    cases hfails

end Locomotive
