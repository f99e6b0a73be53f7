import Locomotive.Proofs.Token.Near
import Locomotive.Proofs.Token.Step

/-!
# Texts one behind the other

A line break ends every token, so a text that ends with one is scanned by itself: behind its tokens come those of the
text that follows, further on and on later lines.

* `Source.normalize_append`: line endings are unified in each part by itself.
* `Scanned.append`: scanning a text that ends with a line break, and one behind it.
* `Scanned.shift`: scanning from another place on.
-/

namespace Locomotive

/-- The text is empty or ends with a line break. -/
def Text.Closed (cs : List Char) : Prop := ∀ c ∈ cs.getLast?, c = '\n'

namespace Text.Closed

variable {a b : List Char}

theorem mem (h : Closed a) (ha : a ≠ []) : '\n' ∈ a := by
  have hlast : a.getLast? = some (a.getLast ha) := List.getLast?_eq_some_getLast ha
  rw [← h _ hlast]
  exact List.getLast_mem ha

theorem right (h : Closed (a ++ b)) : Closed b := by
  intro c hc
  refine h c ?_
  rw [List.getLast?_append, Option.mem_def.1 hc]
  rfl

/-- What follows a part without line breaks. -/
theorem rest (h : Closed (a ++ b)) (ha : a ≠ []) (hline : '\n' ∉ a) : b ≠ [] ∧ Closed b := by
  have hb : b ≠ [] := by
    rintro rfl
    rw [List.append_nil] at h
    exact hline (h.mem ha)
  exact ⟨hb, h.right⟩

theorem tail {c : Char} (h : Closed (c :: a)) : Closed a := right (a := [c]) h

theorem cons {c : Char} (h : Closed a) (hc : a = [] → c = '\n') : Closed (c :: a) := by
  cases a with
  | nil =>
    intro d hd
    rw [← hc rfl]
    exact (Option.some.inj hd).symm
  | cons d a =>
    intro e he
    rw [List.getLast?_cons_cons] at he
    exact h e he

end Text.Closed

open Text (Closed)

/-! ## Line endings -/

namespace Source

theorem unifyEndings_append {a : List Char} (h : a.getLast? ≠ some '\r') (b : List Char) :
    unifyEndings (a ++ b) = unifyEndings a ++ unifyEndings b := by
  fun_induction unifyEndings a with
  | case1 => rfl
  | case2 cs ih =>
    have hcs : cs.getLast? ≠ some '\r' := by
      intro hcs
      cases cs with
      | nil => cases hcs
      | cons d cs => exact h (by rw [List.getLast?_cons_cons, List.getLast?_cons_cons]; exact hcs)
    show '\n' :: unifyEndings (cs ++ b) = '\n' :: (unifyEndings cs ++ unifyEndings b)
    rw [ih hcs]
  | case3 c cs hpair ih =>
    have hcs : cs.getLast? ≠ some '\r' := by
      intro hcs
      cases cs with
      | nil => cases hcs
      | cons d cs => exact h (by rw [List.getLast?_cons_cons]; exact hcs)
    rw [List.cons_append, unifyEndings, ih hcs, List.cons_append]
    -- a carriage return is not the last character, so no line feed of the second text joins it
    rintro rest rfl hrest
    cases cs with
    | nil => exact h rfl
    | cons d cs =>
      rw [List.cons_append] at hrest
      exact hpair cs rfl (by rw [(List.cons.inj hrest).1])

theorem unifyEndings_ne_nil {a : List Char} (h : a ≠ []) : unifyEndings a ≠ [] := by
  fun_cases unifyEndings a with
  | case1 => exact absurd rfl h
  | case2 => simp
  | case3 => simp

theorem closed_unifyEndings {a : List Char} (h : Closed a) : Closed (unifyEndings a) := by
  fun_induction unifyEndings a with
  | case1 => exact h
  | case2 cs ih => exact (ih h.tail.tail).cons fun _ => rfl
  | case3 c cs _ ih =>
    refine (ih h.tail).cons fun hcs => ?_
    have hnil : cs = [] := by
      by_contra hne
      exact unifyEndings_ne_nil hne hcs
    subst hnil
    rw [h c rfl]
    rfl

theorem dropMark_eq_self {cs : List Char} (h : cs.head? ≠ some byteOrderMark) : dropMark cs = cs := by
  cases cs with
  | nil => rfl
  | cons c cs => exact if_neg fun hc => h (congrArg some hc)

section

variable {a b : List Char} (ha : a.getLast? = some '\n')
include ha

theorem closed_dropMark : (dropMark a).getLast? = some '\n' := by
  cases a with
  | nil => cases ha
  | cons c cs =>
    rw [dropMark]
    split
    · rename_i hc
      cases cs with
      | nil =>
        -- a text of one character is no byte order mark if it is a line break
        rw [hc] at ha
        exact absurd (Option.some.inj ha) (by decide)
      | cons d cs => rwa [List.getLast?_cons_cons] at ha
    · exact ha

/-- **Two texts are normalized one by one** if the first ends with a line break and the second has no mark. -/
theorem normalize_append (hb : b.head? ≠ some byteOrderMark) : normalize (a ++ b) = normalize a ++ normalize b := by
  have hmark : dropMark (a ++ b) = dropMark a ++ b := by
    cases a with
    | nil => cases ha
    | cons c cs =>
      rw [List.cons_append, dropMark, dropMark]
      split <;> rfl
  have hlast : (dropMark a).getLast? ≠ some '\r' := by
    rw [closed_dropMark ha]
    decide
  rw [normalize, normalize, normalize, hmark, dropMark_eq_self hb, unifyEndings_append hlast]

theorem closed_normalize : Closed (normalize a) := by
  refine closed_unifyEndings fun c hc => ?_
  rw [closed_dropMark ha] at hc
  exact (Option.some.inj hc).symm

end

end Source

namespace Token

/-! ## Tokens -/

/-- What follows a line break does not matter for the token before it. -/
theorem piece_break {c : Char} {tail x y y' : List Char} {p : Piece}
    (hp : piece c (tail ++ (x ++ '\n' :: y)) = .ok p) (htail : p.tail = tail) :
    piece c (tail ++ (x ++ '\n' :: y')) = .ok p := by
  subst htail
  refine piece_near hp rfl (.inl rfl) (.of_break x y y') fun _ _ => ?_
  cases x <;> rfl

/-- **A token before the end of its line** stands there whatever comes behind the text. -/
theorem piece_append {c : Char} {r : List Char} (hr : c = '\n' ∨ '\n' ∈ r) (ds : List Char) (p : Piece) :
    piece c (r ++ ds) = .ok p ↔ piece c r = .ok p := by
  rcases hr with rfl | hr
  · exact Iff.rfl
  -- the token ends before the line does, so the line break stands behind it
  have hsplit : ∀ cs : List Char, piece c (r ++ cs) = .ok p → c ≠ '\n' → ∃ x y, r = p.tail ++ (x ++ '\n' :: y) := by
    intro cs hp hc
    have hlaid := piece_laid hp
    have hline : '\n' ∉ c :: p.tail := hlaid.inLine fun heol => hc (hlaid.eol heol).1
    rcases List.prefix_or_prefix_of_prefix hlaid.front (List.prefix_append r cs) with ⟨rest, hrest⟩ | hbefore
    · have hmem : '\n' ∈ rest := by
        rw [← hrest, List.mem_append] at hr
        exact hr.resolve_left fun htail => hline (List.mem_cons_of_mem c htail)
      obtain ⟨x, y, rfl⟩ := List.append_of_mem hmem
      exact ⟨x, y, hrest.symm⟩
    · exact absurd (List.mem_cons_of_mem c (hbefore.mem hr)) hline
  by_cases hc : c = '\n'
  · subst hc
    exact Iff.rfl
  constructor
  · intro hp
    obtain ⟨x, y, hxy⟩ := hsplit ds hp hc
    rw [hxy, List.append_assoc, List.append_assoc, List.cons_append] at hp
    rw [hxy]
    exact piece_break hp rfl
  · intro hp
    obtain ⟨x, y, hxy⟩ := hsplit [] (by rwa [List.append_nil]) hc
    rw [hxy] at hp
    rw [hxy, List.append_assoc, List.append_assoc, List.cons_append]
    exact piece_break hp rfl

/-! ## Scanning -/

/-- The tokens of whole lines: none, or the last one ends a line; and the text does not end in between. -/
structure WholeLines (ts : List Token) : Prop where
  last : ∀ t ∈ ts.getLast?, t.kind = .eol
  inside : ∀ t ∈ ts, t.kind ≠ .eof

theorem WholeLines.nil : WholeLines [] := ⟨by simp, by simp⟩

/-- Tokens in front of whole lines. -/
theorem WholeLines.append {ts init : List Token} (h : WholeLines init) (hts : ∀ t ∈ ts, t.kind ≠ .eof)
    (hlast : init = [] → ∀ t ∈ ts.getLast?, t.kind = .eol) : WholeLines (ts ++ init) := by
  refine ⟨fun t ht => ?_, List.forall_mem_append.2 ⟨hts, h.inside⟩⟩
  by_cases hinit : init = []
  · rw [hinit, List.append_nil] at ht
    exact hlast hinit t ht
  · rw [List.getLast?_append_of_ne_nil ts hinit] at ht
    exact h.last t ht

/-- **What is scanned of two texts** one behind the other, in terms of what is scanned of each. -/
inductive Joined (cs : List Char) (single whole behind : Scan) : Prop
  | failed (h : single.error ≠ none) (h' : whole.error ≠ none)
  | found {init : List Token} {e : Token} (hinit : WholeLines init) (hempty : init = [] → cs = []) (he : e.kind = .eof)
      (htokens : single.tokens = init ++ [e]) (herror : single.error = none)
      (hwhole : whole = behind.behind init single.warnings)

/-- A step in front of both. -/
theorem Joined.step {cs rest : List Char} {single whole behind : Scan} (h : Joined rest single whole behind)
    {ts : List Token} {ws : List (Nat × ScanWarning)} (hne : ts ≠ []) (hts : ∀ t ∈ ts, t.kind ≠ .eof)
    (hlast : rest = [] → ∀ t ∈ ts.getLast?, t.kind = .eol) :
    Joined cs (single.behind ts ws) (whole.behind ts ws) behind := by
  cases h with
  | failed h h' => exact .failed h h'
  | @found init e hinit hempty he htokens herror hwhole =>
    refine .found (hinit.append hts fun hnil => hlast (hempty hnil)) (fun hnil => ?_) he ?_ herror ?_
    · exact absurd (List.append_eq_nil_iff.1 hnil).1 hne
    · rw [Scan.behind, htokens, List.append_assoc]
    · rw [hwhole]
      simp only [Scan.behind, List.append_assoc]

/-- Blanks in front of both. -/
theorem Joined.mono {cs rest : List Char} {single whole behind : Scan} (h : Joined rest single whole behind)
    (hrest : rest ≠ []) : Joined cs single whole behind := by
  cases h with
  | failed h h' => exact .failed h h'
  | found hinit hempty he htokens herror hwhole =>
    exact .found hinit (fun hnil => absurd (hempty hnil) hrest) he htokens herror hwhole

theorem isGap_ne_break {c : Char} (h : isGap c = true) : c ≠ '\n' := by
  rcases eq_of_isGap h with rfl | rfl <;> decide

/-- The items behind the word `DATA` stand on its line. -/
theorem break_not_mem_data {c : Char} {blanks items rest : List Char} {p : Piece}
    (hp : piece c (p.tail ++ (blanks ++ (items ++ rest))) = .ok p) (hdata : p.isData = true)
    (hblanks : (blanks ++ (items ++ rest)).takeWhile isGap = blanks) (hitems : itemList false (items ++ rest) = items) :
    '\n' ∉ c :: p.tail ++ (blanks ++ items) := by
  have hkind : p.kind = .keyword := beq_iff_eq.1 (Bool.and_eq_true_iff.1 hdata).1
  have hspan : '\n' ∉ c :: p.tail := (piece_laid hp).inLine (by rw [hkind]; decide)
  have hblank : '\n' ∉ blanks := by
    rw [← hblanks]
    exact break_not_mem_takeWhile (by decide) _
  have hitem : '\n' ∉ items := by
    rw [← hitems]
    exact (itemList_spec false _).2
  simp only [List.mem_append, not_or]
  exact ⟨hspan, hblank, hitem⟩

/-- **A text that ends with a line break, and one behind it**: the first is scanned by itself. -/
theorem Scanned.append {cs : List Char} {pos line : Nat} {s : Scan} (run : Scanned cs pos line s) (h : Closed cs)
    (ds : List Char) :
    Joined cs s (scanFrom (cs ++ ds) pos line) (scanFrom ds (pos + cs.length) (line + cs.count '\n')) := by
  induction run with
  | done => exact .found .nil (fun _ => rfl) rfl rfl rfl rfl
  | @blank c r pos line s hgap run ih =>
    have hc : '\n' ∉ [c] := by simpa using (isGap_ne_break hgap).symm
    obtain ⟨hne, hr⟩ := Closed.rest (a := [c]) h (by simp) hc
    have hplace : pos + (c :: r).length = pos + 1 + r.length := by rw [List.length_cons]; omega
    have hcount : (c :: r).count '\n' = r.count '\n' := List.count_cons_of_ne (isGap_ne_break hgap)
    rw [List.cons_append, scanFrom_blank hgap, hplace, hcount]
    exact (ih hr).mono hne
  | @failed c r pos line e hgap he =>
    have hc : c ≠ '\n' := by
      rintro rfl
      cases he
    have hr : '\n' ∈ r := (List.mem_cons.1 (h.mem (by simp))).resolve_left (Ne.symm hc)
    cases hp : Token.piece c (r ++ ds) with
    | error e' =>
      rw [List.cons_append, scanFrom_failed hgap hp]
      exact .failed (by simp) (by simp)
    | ok p =>
      rw [piece_append (.inr hr), he] at hp
      cases hp
  | @token c rest p pos line s hgap hp hdata run ih =>
    have hbreak : c = '\n' ∨ '\n' ∈ p.tail ++ rest := (List.mem_cons.1 (h.mem (by simp))).imp_left Eq.symm
    have hp' := (piece_append hbreak ds p).2 hp
    rw [List.append_assoc] at hp'
    have hplace : pos + (c :: (p.tail ++ rest)).length = pos + 1 + p.tail.length + rest.length := by
      rw [List.length_cons, List.length_append]
      omega
    have hcount : line + (c :: (p.tail ++ rest)).count '\n' =
        (if p.kind = .eol then line + 1 else line) + rest.count '\n' := by
      rw [← count_break_piece hp, ← List.cons_append, List.count_append]
      omega
    rw [List.cons_append, List.append_assoc, scanFrom_token hgap hp' rfl hdata, hplace, hcount]
    refine (ih (Closed.right (a := c :: p.tail) h)).step (by simp) ?_ ?_
    · exact List.forall_mem_singleton.2 (piece_kind_ne_eof hp)
    · -- nothing follows, so the line break is the token itself
      rintro hnil t ht
      rw [List.getLast?_singleton] at ht
      rw [← Option.some.inj ht]
      by_contra heol
      exact (Closed.rest (a := c :: p.tail) h (by simp) ((piece_laid hp).inLine heol)).1 hnil
  | @data c blanks items rest p pos line s hgap hp hdata hblanks hitems run ih =>
    have hfront := break_not_mem_data hp hdata hblanks hitems
    have htext : c :: (p.tail ++ (blanks ++ (items ++ rest))) = c :: p.tail ++ (blanks ++ items) ++ rest := by
      simp only [List.cons_append, List.append_assoc]
    obtain ⟨hne, hclosed⟩ := Closed.rest (htext ▸ h) (by simp) hfront
    -- the items end where they did, since more of the line follows
    have hhead : (rest ++ ds).head? = rest.head? := List.head?_append_of_ne_nil rest hne
    have hblanks' : (blanks ++ (items ++ (rest ++ ds))).takeWhile isGap = blanks :=
      takeWhile_same hblanks (by rw [List.head?_append, hhead, ← List.head?_append])
    have hitems' : itemList false (items ++ (rest ++ ds)) = items := itemList_same hitems hhead
    have hbreak : '\n' ∈ p.tail ++ (blanks ++ (items ++ rest)) := by simp [hclosed.mem hne]
    have hp' := (piece_append (.inr hbreak) ds p).2 hp
    have hplace : pos + (c :: (p.tail ++ (blanks ++ (items ++ rest)))).length =
        pos + 1 + p.tail.length + blanks.length + items.length + rest.length := by
      simp only [List.length_cons, List.length_append]
      omega
    have hcount : (c :: (p.tail ++ (blanks ++ (items ++ rest)))).count '\n' = rest.count '\n' := by
      rw [htext, List.count_append, List.count_eq_zero.2 hfront, Nat.zero_add]
    rw [hplace, hcount]
    simp only [List.cons_append, List.append_assoc] at hp' ⊢
    rw [scanFrom_data hgap hp' rfl hdata hblanks' hitems']
    refine (ih hclosed).step (by simp) ?_ fun hnil => absurd hnil hne
    refine List.forall_mem_cons.2 ⟨piece_kind_ne_eof hp, List.forall_mem_singleton.2 ?_⟩
    show Kind.dataItems ≠ .eof
    decide

/-! ## Scanning from another place on -/

/-- The token further on by `k` characters and `m` lines. -/
def shift (k m : Nat) (t : Token) : Token := ⟨t.kind, t.lexeme, t.line + m, t.pos + k, t.stop + k⟩

/-- The same for what is scanned. -/
def Scan.shift (k m : Nat) (s : Scan) : Scan :=
  ⟨s.tokens.map (Token.shift k m), s.warnings.map fun w => (w.1 + m, w.2), s.error.map fun e => (e.1 + m, e.2)⟩

theorem Scan.shift_behind (k m : Nat) (ts : List Token) (ws : List (Nat × ScanWarning)) (s : Scan) :
    (s.behind ts ws).shift k m =
      (s.shift k m).behind (ts.map (Token.shift k m)) (ws.map fun w => (w.1 + m, w.2)) := by
  simp only [shift, behind, List.map_append]

theorem Piece.shift_token (p : Piece) (k m pos line : Nat) :
    (p.token pos line).shift k m = p.token (pos + k) (line + m) := by
  simp only [Token.shift, Piece.token, Token.mk.injEq, true_and]
  omega

/-- **Scanning further on** gives the same tokens further on. -/
theorem Scanned.shift (k m : Nat) {cs : List Char} {pos line : Nat} {s : Scan} (h : Scanned cs pos line s) :
    scanFrom cs (pos + k) (line + m) = s.shift k m := by
  induction h with
  | done =>
    rw [scanFrom]
    rfl
  | blank hgap run ih => rw [scanFrom_blank hgap, ← ih, Nat.add_right_comm]
  | failed hgap he =>
    rw [scanFrom_failed hgap he]
    rfl
  | @token c rest p pos line s hgap hp hdata run ih =>
    have hplace : pos + k + 1 + p.tail.length = pos + 1 + p.tail.length + k := by omega
    have hline : (if p.kind = .eol then line + m + 1 else line + m) =
        (if p.kind = .eol then line + 1 else line) + m := by
      split <;> omega
    rw [scanFrom_token hgap hp rfl hdata, Scan.shift_behind, hplace, hline, ih, List.map_singleton, Piece.shift_token,
      List.map_map]
    rfl
  | @data c blanks items rest p pos line s hgap hp hdata hblanks hitems run ih =>
    have hstart : pos + k + 1 + p.tail.length + blanks.length = pos + 1 + p.tail.length + blanks.length + k := by
      omega
    rw [scanFrom_data hgap hp rfl hdata hblanks hitems, Scan.shift_behind, hstart, Nat.add_right_comm _ k items.length,
      ih, List.map_cons, Piece.shift_token, List.map_singleton]
    rfl

/-- **Two source texts**, the first of which ends with a line break: what is scanned of both. -/
theorem scan_append {a b : List Char} (ha : a.getLast? = some '\n') (hb : b.head? ≠ some Source.byteOrderMark) :
    Joined (Source.normalize a) (scan a) (scan (a ++ b))
      ((scan b).shift (Source.normalize a).length ((Source.normalize a).count '\n')) := by
  have h := (scanned _ 0 1).append (Source.closed_normalize ha) (Source.normalize b)
  rw [(scanned _ _ _).shift] at h
  rw [scan, scan, scan, Source.normalize_append ha hb]
  exact h

end Token

end Locomotive
