import Mathlib.Data.List.Forall2
import Mathlib.Tactic.NormNum
import Locomotive.Proofs.Restore
import Locomotive.Proofs.Stmt.Gather
import Locomotive.Proofs.Stmt.Item

/-!
# Data from the source to the generated program

A `DATA` statement goes a long way: scanning finds where its items end, parsing splits them at their
commas and tells strings and numbers apart, and the literals of all items of the program become one array.
In the end each element of the array has the value that its item had in the source.

* `DataItem.SpelledAt`: the values of the items behind a `DATA` keyword.
* `compile_data_survives`: the array of the generated program has these values.
-/

namespace Locomotive

/-- **Behind a `DATA` keyword** of a text, items with these values are spelled, up to a colon, the end of
the line or the end of the text. -/
def DataItem.SpelledAt (source : List Char) (t : Token) (vs : List Value) : Prop :=
  ∃ raw rest, source.drop t.stop.toNat = raw ++ rest ∧ SpelledList raw vs ∧ ∀ c ∈ rest.head?, c = ':' ∨ c = '\n'

/-- The literal is read as the value. -/
def Js.ReadAs (literal : String) (v : Value) : Prop := Js.literal? literal = some v

/-- The items behind a keyword. -/
theorem DataItem.SpelledAt.itemsAt {source : List Char} {t : Token} {vs : List Value} (h : SpelledAt source t vs) :
    List.Forall₂ Js.ReadAs ((Parse.itemsAt source t).map DataItem.literal) vs := by
  obtain ⟨raw, rest, htext, hraw, hrest⟩ := h
  unfold Parse.itemsAt Token.itemsFrom
  rw [htext, List.forall₂_map_left_iff]
  exact hraw.scanned hrest

theorem Program.flatMap_items (p : Program) :
    p.lines.flatMap Line.items = (p.lines.flatMap fun l => Stmt.dataListsOf l.stmts).flatten := by
  rw [List.flatten_eq_flatMap, List.flatMap_assoc]
  exact List.flatMap_congr fun l _ => List.flatten_eq_flatMap

/-- **The array of data** of a generated program has the values. -/
structure Stages.Carries {p : Program} {text : String} (o : Stages p text) (vs : List Value) : Prop where
  /-- One literal for each value, in order. -/
  literals : List.Forall₂ Js.ReadAs o.tables.data vs
  /-- If there are values, the program has these literals as its array. -/
  array : vs ≠ [] → ∃ behind : String, text = o.tables.globalText ++ "const _data = [" ++
    ", ".intercalate o.tables.data ++ "];\nconst _restoreMap = \x7b" ++ o.tables.restoreEntries ++
    "\x7d;\nlet _dataPtr = 0;\n" ++ behind

/-- **Data survives.** If the `DATA` statements of a text spell lists of items, then the array of the
generated program has one literal for each of them, in order, and it is read as the value of the item. -/
theorem compile_data_survives (strict : Bool) (source : List Char) (lists : List (List Value))
    (h : List.Forall₂ (DataItem.SpelledAt (Source.normalize source))
      (Parse.dataWords false (Token.scan source).tokens) lists) :
    match (compile strict source).result with
    | .error _ => True
    | .ok text => ∃ (p : Program) (o : Stages p text), o.Carries lists.flatten := by
  rcases hresult : (compile strict source).result with why | text
  · trivial
  obtain ⟨p, ⟨o⟩, haccepted⟩ := compile_accepted hresult
  have hlists := Program.dataLists_eq haccepted.parsed
  have hdata : o.tables.data = ((Parse.dataWords false (Token.scan source).tokens).map fun t =>
      (Parse.itemsAt (Source.normalize source) t).map DataItem.literal).flatten := by
    rw [o.data_eq haccepted.proper, Program.flatMap_items, hlists, List.map_flatten, List.map_map]
    rfl
  have hvalues : List.Forall₂ Js.ReadAs o.tables.data lists.flatten := by
    rw [hdata]
    apply List.rel_flatten
    rw [List.forall₂_map_left_iff]
    exact h.imp fun t vs ht => ht.itemsAt
  refine ⟨p, o, hvalues, fun hne => ?_⟩
  have hhas : o.tables.hasData = true := by
    have hsome : o.tables.data ≠ [] := by
      intro hnone
      rw [hnone] at hvalues
      exact hne (List.forall₂_nil_left_iff.1 hvalues)
    simp [Tables.hasData, hsome]
  obtain ⟨body, -, htext⟩ := o.exists_body haccepted.proper
  refine ⟨body ++ o.tables.helperText, (htext.trans (Tables.around_data hhas body)).trans ?_⟩
  simp only [String.append_assoc]

/-- A string with a comma and a colon in it and a negative number on one line, a hexadecimal number on the
next. -/
theorem data_survives_on_two_lines : ∃ text : String,
    (compile false "10 DATA \"a, b:😀\" , -01.5e1: READ a$\n20 DATA &hfF".toList).result = .ok text ∧
    ∃ (p : Program) (o : Stages p text), o.Carries [.text "a, b:😀", .number (-15), .number 255] := by
  have hspace : DataItem.IsSpace [' '] := by decide
  have hnone : DataItem.IsSpace [] := by decide
  have htext : DataItem.Spelled ('"' :: ("a, b:😀".toList ++ ['"'])) (.text "a, b:😀") :=
    .quoted (Text.forall_of_all (by decide))
  have hnegative : DataItem.Spelled (DataItem.sign true ++ (['0', '1'] ++ '.' :: (['5'] ++ ['e', '1'])))
      (.number (-15)) := by
    have hdigits : Text.digitsValue (['0', '1'] ++ ['5']) = 15 := by decide
    have hexponent : DataItem.Exponent ['e', '1'] 1 := .bare (.inl rfl) (by simp) (by simp)
    have hsome : ['0', '1'] ++ ['5'] ≠ [] := by simp
    have hnumeral := DataItem.Numeral.point hsome (Text.forall_of_all (by decide)) hexponent
    rw [hdigits] at hnumeral
    convert DataItem.Spelled.number true hnumeral using 2
    norm_num
  have hhex : DataItem.Spelled (DataItem.sign false ++ '&' :: 'h' :: ['f', 'F']) (.number 255) := by
    have hdigits : Text.valueIn 16 ['f', 'F'] = 255 := by decide
    have hnumber : Text.IsNumberIn 16 ['f', 'F'] := by decide
    have hnumeral := DataItem.Numeral.hexMarked (.inl rfl : 'h' = 'h' ∨ 'h' = 'H') hnumber
    rw [hdigits] at hnumeral
    exact .number false hnumeral
  have hwords : Parse.dataWords false
      (Token.scan "10 DATA \"a, b:😀\" , -01.5e1: READ a$\n20 DATA &hfF".toList).tokens =
      [⟨.keyword, "DATA", 1, 3, 7⟩, ⟨.keyword, "DATA", 2, 39, 43⟩] := by decide +kernel
  have hspelled : List.Forall₂
      (DataItem.SpelledAt (Source.normalize "10 DATA \"a, b:😀\" , -01.5e1: READ a$\n20 DATA &hfF".toList))
      (Parse.dataWords false (Token.scan "10 DATA \"a, b:😀\" , -01.5e1: READ a$\n20 DATA &hfF".toList).tokens)
      [[.text "a, b:😀", .number (-15)], [.number 255]] := by
    rw [hwords]
    have hcolon : ∀ c ∈ (": READ a$\n20 DATA &hfF".toList).head?, c = ':' ∨ c = '\n' :=
      fun c hc => .inl (Option.some.inj hc).symm
    have hend : ∀ c ∈ ([] : List Char).head?, c = ':' ∨ c = '\n' := by simp
    refine .cons ⟨_, _, ?_, .more hspace htext hspace (.one hspace hnegative hnone), hcolon⟩
      (.cons ⟨_, _, ?_, .one hspace hhex hnone, hend⟩ .nil)
    all_goals decide +kernel
  have hrun : (compile false "10 DATA \"a, b:😀\" , -01.5e1: READ a$\n20 DATA &hfF".toList).result.toOption.isSome =
      true := by decide +kernel
  have hcarries := compile_data_survives false _ _ hspelled
  obtain ⟨text, hresult⟩ := exists_ok_of_isSome hrun
  rw [hresult] at hcarries
  exact ⟨text, hresult, hcarries⟩

end Locomotive
