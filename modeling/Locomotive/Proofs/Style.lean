import Locomotive.Compiler
import Locomotive.Proofs.Program.Alike
import Locomotive.Proofs.Token.Style
import Mathlib.Logic.Relation

/-!
# Style does not matter

The case of the letters of words and the blanks between tokens do not matter to a compilation: only the quotation of a
statement without a counterpart shows how it is written.

* `Program.outline?`: the program of a source text without its quotations.
* `outline?_restyled`: it stays the same in another style.
-/

namespace Locomotive

theorem Token.alike_of_content {t t' : Token} (h : t'.content = t.content) : Token.Alike id t t' := by
  simp only [Token.content, Prod.mk.injEq] at h
  exact ⟨h.1, h.2.1, h.2.2⟩

/-- The lines of the program that the source text is read as, without what they quote. -/
def Program.outline? (strict : Bool) (source : List Char) : Option (List Line) :=
  (Program.parse strict (Token.scan source).tokens source).toOption.map fun p =>
    p.lines.map (Line.recast id fun _ => "")

section

variable {source source' : List Char}

/-- Tokens that differ in their places agree line by line. -/
theorem sameLines_of_content (herror : (Token.scan source).error = none)
    (h : (Token.scan source').tokens.map Token.content = (Token.scan source).tokens.map Token.content) :
    Parse.SameLines (fun t t' => t'.content = t.content) [] [] (Token.scan source).tokens
      (Token.scan source').tokens := by
  obtain ⟨init, e, htokens, he, -, -, hinside⟩ := ((Token.scanned (Source.normalize source) 0 1).tiles herror).last
  have hscan : (Token.scan source).tokens = init ++ [e] := htokens
  rw [hscan, List.map_append] at h
  obtain ⟨init', last', hscan', hinit, hlast⟩ := List.map_eq_append_iff.1 h
  obtain ⟨e', rfl, he'⟩ : ∃ e', last' = [e'] ∧ e'.content = e.content := by
    obtain ⟨e', rest, rfl, he', hrest⟩ := List.map_eq_cons_iff.1 hlast
    rw [List.map_nil, List.map_eq_nil_iff] at hrest
    exact ⟨e', by rw [hrest], he'⟩
  have hpairs : List.Forall₂ (fun t t' : Token => t'.content = t.content) init init' := by
    have hsame : List.Forall₂ (fun a b => b = a) (init.map Token.content) (init'.map Token.content) := by
      rw [hinit]
      exact List.forall₂_same.2 fun _ _ => rfl
    rwa [List.forall₂_map_left_iff, List.forall₂_map_right_iff] at hsame
  rw [hscan, hscan']
  exact Parse.sameLines_of_forall₂ hpairs hinside he' (.inr ⟨he, rfl, rfl⟩)

/-- **In another style the program is the same** but for what it quotes. -/
theorem outline?_restyled (strict : Bool) (h : Token.Restyles source source') :
    Program.outline? strict source' = Program.outline? strict source := by
  have hsetting : Parse.Setting.Alike (fun t t' : Token => t'.content = t.content) (fun _ => "")
      ⟨strict, Source.normalize source⟩ ⟨strict, Source.normalize source'⟩ := ⟨rfl, fun _ _ _ _ _ _ _ _ _ _ => rfl⟩
  have hlines := Parse.lines_alike_all (fun _ _ => Token.alike_of_content) hsetting
    (sameLines_of_content h.1 h.alike.tokens) rfl (fun _ => rfl)
    (Parse.lines_rejects strict _ (List.suffix_refl _) [] (-1))
    (Parse.lines_rejects strict _ (List.suffix_refl _) [] (-1))
  unfold Program.outline? Program.parse
  rcases hlines with ⟨e, e', hread, hread'⟩ | ⟨ls, ls', hread, hread', hls, -⟩
  · rw [hread, hread']
    rfl
  · rw [hread, hread']
    exact congrArg some hls

end

/-! ## Programs without quotations -/

theorem Line.map_recast_eq_self {f : String → String} {ls : List Line} (h : ∀ l ∈ ls, Stmt.AllSupported l.stmts) :
    ls.map (Line.recast id f) = ls := by
  have hsame : ∀ l ∈ ls, l.recast id f = l := by
    intro l hl
    have hstmts : Stmt.recastAll id f l.stmts = l.stmts := by
      refine Stmt.recastAll_eq_self l.stmts fun x hx => ?_
      rw [h l hl] at hx
      cases hx
    rw [Line.recast, hstmts]
    rfl
  calc ls.map (Line.recast id f) = ls.map id := List.map_congr_left hsame
    _ = ls := List.map_id ls

theorem Line.allSupported_map_recast {f : String → String} {ls : List Line} :
    (∀ l ∈ ls.map (Line.recast id f), Stmt.AllSupported l.stmts) ↔ ∀ l ∈ ls, Stmt.AllSupported l.stmts := by
  rw [List.forall_mem_map]
  exact forall₂_congr fun l _ => Stmt.allSupported_recastAll id

theorem Program.parse_not_strict {strict : Bool} {tokens : List Token} {source : List Char} {p : Program}
    (h : Program.parse strict tokens source = .ok p) : Program.parse false tokens source = .ok p := by
  cases strict with
  | false => exact h
  | true =>
    have hnarrows : Parse.Narrows Program.Strict (Program.parse true tokens source)
        (Program.parse false tokens source) :=
      (Parse.lines_narrows (Source.normalize source) [] (-1) tokens).map fun _ => Program.strict_iff_from
    exact ((hnarrows.ok_iff p).1 h).1

section

variable {source source' : List Char}

/-- **A program that quotes nothing** is its outline. -/
theorem Program.parse_eq_of_outline {strict : Bool}
    (hsupported : ∀ p, Program.parse false (Token.scan source).tokens source = .ok p →
      ∀ l ∈ p.lines, Stmt.AllSupported l.stmts)
    (h : Program.outline? strict source' = Program.outline? strict source) :
    (Program.parse strict (Token.scan source').tokens source').toOption =
      (Program.parse strict (Token.scan source).tokens source).toOption := by
  unfold Program.outline? at h
  cases hp : Program.parse strict (Token.scan source).tokens source with
  | error e =>
    rw [hp] at h
    exact Option.map_eq_none_iff.1 h
  | ok p =>
    cases hp' : Program.parse strict (Token.scan source').tokens source' with
    | error e =>
      rw [hp, hp'] at h
      cases h
    | ok p' =>
      rw [hp, hp'] at h
      have hall := hsupported p (Program.parse_not_strict hp)
      have hlines : p'.lines.map (Line.recast id fun _ => "") = p.lines :=
        (Option.some.inj h).trans (Line.map_recast_eq_self hall)
      have hall' : ∀ l ∈ p'.lines, Stmt.AllSupported l.stmts := by
        rw [← hlines] at hall
        exact Line.allSupported_map_recast.1 hall
      rw [Line.map_recast_eq_self hall'] at hlines
      cases p
      cases p'
      cases hlines
      rfl

/-- **Compilation** depends on the program and on how scanning went. -/
theorem compile_eq_of_parse {strict : Bool} (hscan : (Token.scan source).Alike (Token.scan source'))
    (hparse : (Token.scan source).error = none → (Program.parse strict (Token.scan source').tokens source').toOption =
      (Program.parse strict (Token.scan source).tokens source).toOption) :
    (∀ text, (compile strict source').result = .ok text ↔ (compile strict source).result = .ok text) ∧
      (compile strict source').warnings = (compile strict source).warnings ∧
      (compile strict source').tables = (compile strict source).tables := by
  have htexts : (Token.scan source').warningTexts = (Token.scan source).warningTexts := by
    rw [Token.Scan.warningTexts, hscan.warnings]
    rfl
  cases herror : (Token.scan source).error with
  | some e =>
    have hcompile : compile strict source' = compile strict source := by
      simp only [compile, hscan.error, herror, htexts]
    rw [hcompile]
    exact ⟨fun _ => Iff.rfl, rfl, rfl⟩
  | none =>
    have hsame := hparse herror
    cases hp : Program.parse strict (Token.scan source).tokens source with
    | error e =>
      cases hp' : Program.parse strict (Token.scan source').tokens source' with
      | error e' => simp [compile, hscan.error, herror, hp, hp', htexts, Compilation.warnings]
      | ok p' =>
        rw [hp, hp'] at hsame
        cases hsame
    | ok p =>
      cases hp' : Program.parse strict (Token.scan source').tokens source' with
      | error e' =>
        rw [hp, hp'] at hsame
        cases hsame
      | ok p' =>
        rw [hp, hp'] at hsame
        cases hsame
        have hcompile : compile strict source' = compile strict source := by
          simp only [compile, hscan.error, herror, hp, hp', htexts]
        rw [hcompile]
        exact ⟨fun _ => Iff.rfl, rfl, rfl⟩

/-- A chain of changes of style, one way or the other, keeps what one change keeps. -/
theorem restyled_chain (h : Relation.EqvGen Token.Restyles source source') :
    (Token.scan source).Alike (Token.scan source') ∧
      ∀ strict, Program.outline? strict source' = Program.outline? strict source := by
  induction h with
  | rel x y h => exact ⟨h.alike, fun strict => outline?_restyled strict h⟩
  | refl x => exact ⟨⟨rfl, rfl, rfl⟩, fun _ => rfl⟩
  | symm x y _ ih => exact ⟨⟨ih.1.tokens.symm, ih.1.warnings.symm, ih.1.error.symm⟩, fun strict => (ih.2 strict).symm⟩
  | trans x y z _ _ ih ih' =>
    refine ⟨⟨?_, ?_, ?_⟩, fun strict => (ih'.2 strict).trans (ih.2 strict)⟩
    · exact ih'.1.tokens.trans ih.1.tokens
    · exact ih'.1.warnings.trans ih.1.warnings
    · exact ih'.1.error.trans ih.1.error

/-- **Style does not matter.** Take two source texts that changes of style lead to from one another, one way or the
other: they differ in the case of letters in words and in numbers with a base, and in blanks before tokens that do not
follow a string, a comment or items of data. They are scanned as the same kinds of tokens with the same lexemes on the
same lines, with the same warnings. If every statement has a counterpart, they are compiled to the same text or both
are not, with the same warnings and tables. -/
theorem compile_in_any_style (h : Relation.EqvGen Token.Restyles source source') :
    ((Token.scan source').error = (Token.scan source).error ∧
      (Token.scan source').tokens.map Token.content = (Token.scan source).tokens.map Token.content ∧
      (Token.scan source').warnings = (Token.scan source).warnings) ∧
    ((∀ p, Program.IsOf source p → ∀ l ∈ p.lines, Stmt.AllSupported l.stmts) → ∀ strict,
      (∀ text, (compile strict source').result = .ok text ↔ (compile strict source).result = .ok text) ∧
      (compile strict source').warnings = (compile strict source).warnings ∧
      (compile strict source').tables = (compile strict source).tables) := by
  obtain ⟨halike, houtline⟩ := restyled_chain h
  refine ⟨⟨halike.error, halike.tokens, halike.warnings⟩, fun hsupported strict => ?_⟩
  refine compile_eq_of_parse halike fun herror => Program.parse_eq_of_outline (fun p hp => ?_) (houtline strict)
  exact hsupported p ⟨herror, hp⟩

end

/-- A keyword and a name in other letters, with blanks before them and before a string. -/
theorem compile_in_any_style_print :
    Token.Restyles "10 print\"x\";a".toList "10\t Print \"x\";\tA".toList ∧
    (∀ p, Program.IsOf "10 print\"x\";a".toList p → ∀ l ∈ p.lines, Stmt.AllSupported l.stmts) ∧
    ∃ text, (compile true "10 print\"x\";a".toList).result = .ok text ∧
      (compile true "10\t Print \"x\";\tA".toList).result = .ok text := by
  have htokens : (Token.scan "10 print\"x\";a".toList).tokens =
      [⟨.number, "10", 1, 0, 2⟩, ⟨.keyword, "PRINT", 1, 3, 8⟩, ⟨.string, "x", 1, 8, 11⟩, ⟨.semicolon, ";", 1, 11, 12⟩,
        ⟨.identifier, "a", 1, 12, 13⟩, ⟨.eof, "", 1, 13, 13⟩] := by decide +kernel
  have hfree : ∀ (k : Token.Kind) (blanks blanks' : List Char), k ∉ Token.greedy →
      ∀ g ∈ some k, g ∈ Token.greedy → blanks' = blanks := by
    rintro k _ _ hk _ ⟨⟩ hg
    exact absurd hg hk
  have hrestyles : Token.Restyles "10 print\"x\";a".toList "10\t Print \"x\";\tA".toList := by
    refine ⟨by decide +kernel, ?_⟩
    have hend := @Token.Restyled.token (some .identifier) 13 [] [] [] [] [] [] ⟨.eof, "", 1, 13, 13⟩ [] rfl rfl
      (.refl _) (by simp) (hfree _ _ _ (by decide)) (.inl rfl) .done
    have hname := @Token.Restyled.token (some .semicolon) 12 [] ['\t'] ['a'] ['A'] _ _ ⟨.identifier, "a", 1, 12, 13⟩ _
      rfl rfl (List.nil_sublist _) (Text.forall_of_all (by decide)) (hfree _ _ _ (by decide))
      (.inr ⟨by decide, .cons rfl .nil⟩) hend
    have hsemicolon := @Token.Restyled.token (some .string) 11 [] [] [';'] [';'] _ _ ⟨.semicolon, ";", 1, 11, 12⟩ _
      rfl rfl (.refl _) (by simp) (fun _ _ _ => rfl) (.inl rfl) hname
    have hstring := @Token.Restyled.token (some .keyword) 8 [] [' '] ['"', 'x', '"'] ['"', 'x', '"'] _ _
      ⟨.string, "x", 1, 8, 11⟩ _ rfl rfl (List.nil_sublist _) (Text.forall_of_all (by decide))
      (hfree _ _ _ (by decide)) (.inl rfl) hsemicolon
    have hprint := @Token.Restyled.token (some .number) 2 [' '] ['\t', ' '] ['p', 'r', 'i', 'n', 't']
      ['P', 'r', 'i', 'n', 't'] _ _ ⟨.keyword, "PRINT", 1, 3, 8⟩ _ rfl rfl (.cons _ (.refl _))
      (Text.forall_of_all (by decide)) (hfree _ _ _ (by decide))
      (.inr ⟨by decide, .cons rfl (Token.SameLetters.refl _)⟩) hstring
    have hlabel := @Token.Restyled.token none 0 [] [] ['1', '0'] ['1', '0'] _ _ ⟨.number, "10", 1, 0, 2⟩ _ rfl rfl
      (.refl _) (by simp) (fun _ _ _ => rfl) (.inl rfl) hprint
    have hbefore : Source.normalize "10 print\"x\";a".toList =
        ['1', '0', ' ', 'p', 'r', 'i', 'n', 't', '"', 'x', '"', ';', 'a'] := by decide
    have hafter : Source.normalize "10\t Print \"x\";\tA".toList =
        ['1', '0', '\t', ' ', 'P', 'r', 'i', 'n', 't', ' ', '"', 'x', '"', ';', '\t', 'A'] := by decide
    rw [htokens, hbefore, hafter]
    exact hlabel
  have hsupported : ∀ p, Program.IsOf "10 print\"x\";a".toList p → ∀ l ∈ p.lines, Stmt.AllSupported l.stmts := by
    intro p hp
    have hall : (Program.parse false (Token.scan "10 print\"x\";a".toList).tokens "10 print\"x\";a".toList).toOption.all
        (fun p => p.lines.all fun l => (Stmt.gatherOf Stmt.unsupported? l.stmts).isEmpty) = true := by decide +kernel
    rw [hp.2] at hall
    exact fun l hl => List.isEmpty_iff.1 (List.all_eq_true.1 hall l hl)
  refine ⟨hrestyles, hsupported, ?_⟩
  have hsame := ((compile_in_any_style (.rel _ _ hrestyles)).2 hsupported true).1
  have hcompiles : (compile true "10 print\"x\";a".toList).result.toOption.isSome = true := by decide +kernel
  obtain ⟨text, hresult⟩ := exists_ok_of_isSome hcompiles
  exact ⟨text, hresult, (hsame text).2 hresult⟩

end Locomotive
