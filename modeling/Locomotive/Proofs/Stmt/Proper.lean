import Locomotive.Proofs.Expr.Proper
import Locomotive.Proofs.Stmt.Label
import Locomotive.Proofs.Stmt.Word
import Locomotive.Program.Parse

/-!
# Proper statements

The statements that reading a program can give: expressions are well formed, places that are
written to are variables or elements, commands are those of the language, and labels are written in
decimal digits. The words of a program need no escape.

* `Stmt.Proper`, `Line.Proper`, `Program.Proper`: the property, for statements, lines and programs.
* `DataItem.split_plain`: the items of a `DATA` statement.
-/

namespace Locomotive

open Js (Unmarked)

/-- A variable or an array element. -/
def Expr.IsPlace : Expr → Prop
  | var _ => True
  | index _ _ => True
  | _ => False

/-- An array with its dimensions. -/
def Expr.IsArray : Expr → Prop
  | index _ sizes => ∀ e ∈ sizes, e.Proper
  | _ => False

theorem Expr.IsArray.parts {e : Expr} (h : e.IsArray) :
    ∃ name sizes, e = .index name sizes ∧ ∀ s ∈ sizes, s.Proper := by
  cases e with
  | index name sizes => exact ⟨name, sizes, rfl, h⟩
  | _ => exact h.elim

/-- A place that values can be stored in. -/
structure Expr.Target (e : Expr) : Prop where
  isPlace : e.IsPlace
  proper : e.Proper

/-- The number of an item holds no mark. -/
def DataItem.Plain : DataItem → Prop
  | text _ => True
  | number _ written => Unmarked written

/-- The expressions of an element are proper. -/
def PrintItem.Proper : PrintItem → Prop
  | value e => e.Proper
  | tab e => e.Proper
  | spc e => e.Proper
  | formatted f v => f.Proper ∧ v.Proper
  | _ => True

/-- The argument is proper, and a place if it is written to. -/
structure RsxArg.Fits (a : RsxArg) : Prop where
  proper : a.expr.Proper
  place : a.out = true → a.expr.IsPlace

namespace Stmt

/-- The keywords of graphics statements. -/
def graphicsWords : List String := ["DRAW", "DRAWR", "MOVE", "MOVER", "PLOT", "PLOTR"]

/-- The keywords of timer statements. -/
def timerWords : List String := ["AFTER", "EVERY"]

mutual

/-- **Proper statements.** -/
def Proper : Stmt → Prop
  | assign place value => place.Target ∧ value.Proper
  | print _ items => ∀ i ∈ items, i.Proper
  | write _ args => ∀ e ∈ args, e.Proper
  | command c args => c ∈ Command.all ∧ ∀ e ∈ args, e.Proper
  | graphics name x y pen => name ∈ graphicsWords ∧ x.Proper ∧ y.Proper ∧ ∀ e ∈ pen, e.Proper
  | forLoop _ start stop step => start.Proper ∧ stop.Proper ∧ ∀ e ∈ step, e.Proper
  | whileLoop cond => cond.Proper
  | branch cond yes no => cond.Proper ∧ AllProper yes ∧ ElseProper no
  | gosub label => IsLabel label
  | onGosub selector labels => selector.Proper ∧ ∀ l ∈ labels, IsLabel l
  | data items => ∀ i ∈ items, i.Plain
  | read targets => targets ≠ [] ∧ ∀ e ∈ targets, e.Target
  | restore label => ∀ l ∈ label, IsLabel l
  | dim arrays => arrays ≠ [] ∧ ∀ e ∈ arrays, e.IsArray
  | defFn _ _ body => body.Proper
  | input _ _ targets => targets ≠ [] ∧ ∀ e ∈ targets, e.Target
  | timer name interval which label =>
    name ∈ timerWords ∧ interval.Proper ∧ (∀ e ∈ which, e.Proper) ∧ IsLabel label
  | rsx _ args => ∀ a ∈ args, a.Fits
  | missing => False
  | _ => True

/-- The statements of a list are proper. -/
def AllProper : List Stmt → Prop
  | [] => True
  | s :: ss => s.Proper ∧ AllProper ss

/-- The statements of an `ELSE` are proper. -/
def ElseProper : Option (List Stmt) → Prop
  | none => True
  | some ss => AllProper ss

end

end Stmt

/-- The label and the statements of the line are proper, and their words need no escape. -/
structure Line.Proper (l : Line) : Prop where
  label : ∀ s ∈ l.label, IsLabel s
  stmts : Stmt.AllProper l.stmts
  words : Stmt.AllSpelled Js.Plain l.stmts

/-- The labels of lines. -/
def labelsOf (ls : List Line) : List String := ls.filterMap Line.label

/-- **A proper program**: its lines are proper, and no two of them have the same label. -/
structure Program.Proper (p : Program) : Prop where
  line : ∀ l ∈ p.lines, l.Proper
  nodup : (labelsOf p.lines).Nodup

theorem mem_labelsOf {ls : List Line} {l : String} : l ∈ labelsOf ls ↔ ∃ line ∈ ls, line.label = some l :=
  List.mem_filterMap

theorem labelsOf_cons (l : Line) (ls : List Line) : labelsOf (l :: ls) = l.label.toList ++ labelsOf ls := by
  rw [labelsOf, List.filterMap_cons]
  cases hl : l.label <;> simp [labelsOf]

theorem labelsOf_snoc (ls : List Line) (l : Line) : labelsOf (ls ++ [l]) = labelsOf ls ++ l.label.toList := by
  rw [labelsOf, List.filterMap_append]
  cases hl : l.label <;> simp [labelsOf, hl]

/-! ## Data items -/

namespace DataItem

theorem based?_clean {cs : List Char} {radix : Radix} {ds : List Char} (h : based? cs = some (radix, ds)) :
    ∀ c ∈ ds, Js.Clean c := by
  have hhex : ∀ es : List Char, Token.isHexText es = true → ∀ c ∈ es.map Char.toLower, Js.Clean c := by
    intro es hes c hc
    obtain ⟨d, hd, rfl⟩ := List.mem_map.1 hc
    simp only [Token.isHexText, Bool.and_eq_true, List.all_eq_true] at hes
    exact Js.clean_toLower (Token.plain_of_isHexDigit (hes.2 d hd)).clean
  unfold based? at h
  split at h
  · cases h
  · rename_i x es
    split at h
    · rename_i hb
      cases h
      simp only [Bool.and_eq_true, List.all_eq_true, Bool.or_eq_true, beq_iff_eq] at hb
      intro c hc
      rcases hb.2 c hc with rfl | rfl <;> decide
    split at h
    · rename_i hx
      cases h
      simp only [Bool.and_eq_true] at hx
      exact hhex es hx.2
    split at h
    · rename_i hx
      cases h
      exact hhex (x :: es) hx
    · cases h

theorem isExponent_clean {cs : List Char} (h : isExponent cs = true) : ∀ c ∈ cs, Js.Clean c := by
  have hdigits : ∀ es : List Char, es.all Char.isDigit = true → ∀ c ∈ es, Js.Clean c := by
    intro es hes c hc
    exact Js.clean_of_isDigit (List.all_eq_true.1 hes c hc)
  unfold isExponent at h
  split at h
  · cases h
  · rename_i s ds
    split at h
    · rename_i hs
      simp only [Bool.or_eq_true, beq_iff_eq] at hs
      simp only [Bool.and_eq_true] at h
      refine List.forall_mem_cons.2 ⟨?_, hdigits ds h.2⟩
      rcases hs with rfl | rfl <;> decide
    · exact hdigits (s :: ds) h

/-- What follows the digits of a decimal number. -/
theorem exponentPart_clean {rest : List Char} (h : (match rest with
    | [] => true
    | e :: ds => (e == 'e' || e == 'E') && isExponent ds) = true) : ∀ c ∈ rest, Js.Clean c := by
  cases rest with
  | nil => simp
  | cons e ds =>
    simp only [Bool.and_eq_true, Bool.or_eq_true, beq_iff_eq] at h
    refine List.forall_mem_cons.2 ⟨?_, isExponent_clean h.2⟩
    rcases h.1 with rfl | rfl <;> decide

/-- A decimal number is made of digits, a point, signs and the letter of the exponent. -/
theorem isDecimal_clean {cs : List Char} (h : isDecimal cs = true) : ∀ c ∈ cs, Js.Clean c := by
  have hdigits : ∀ es : List Char, ∀ c ∈ es.takeWhile Char.isDigit, Js.Clean c := fun es c hc =>
    Js.clean_of_isDigit (List.all_eq_true.1 List.all_takeWhile c hc)
  have hsplit : ∀ es : List Char, es = es.takeWhile Char.isDigit ++ es.drop (es.takeWhile Char.isDigit).length := by
    intro es
    exact (List.prefix_iff_eq_append.1 <| List.takeWhile_prefix _).symm
  unfold isDecimal at h
  dsimp only at h
  rw [hsplit cs]
  refine List.forall_mem_append.2 ⟨hdigits cs, ?_⟩
  generalize cs.drop (cs.takeWhile Char.isDigit).length = after at h ⊢
  split at h
  · rename_i ds
    refine List.forall_mem_cons.2 ⟨by decide, ?_⟩
    rw [hsplit ds]
    by_cases hdigit : ((cs.takeWhile Char.isDigit).isEmpty && (ds.takeWhile Char.isDigit).isEmpty) = true
    · rw [if_pos hdigit] at h; exact absurd h (by decide)
    · rw [if_neg hdigit] at h
      exact List.forall_mem_append.2 ⟨hdigits ds, exponentPart_clean h⟩
  · by_cases hdigit : ((cs.takeWhile Char.isDigit).isEmpty && ([] : List Char).isEmpty) = true
    · rw [if_pos hdigit] at h; exact absurd h (by decide)
    · rw [if_neg hdigit] at h
      exact exponentPart_clean h

theorem number?_plain {cs : List Char} {i : DataItem} (h : number? cs = some i) : i.Plain := by
  obtain ⟨sign, hsign, hcs, hclean⟩ : ∃ sign : List Char, (if cs.head? == some '-' then ['-'] else []) = sign ∧
      cs = sign ++ cs.drop sign.length ∧ ∀ c ∈ sign, Js.Clean c := by
    cases cs with
    | nil => exact ⟨[], rfl, rfl, by simp⟩
    | cons d r =>
      by_cases hd : d = '-'
      · subst hd; exact ⟨['-'], rfl, rfl, by decide⟩
      · exact ⟨[], by simp [hd], rfl, by simp⟩
  unfold number? at h
  rw [hsign] at h
  dsimp only at h
  split at h
  · rename_i ds hds
    obtain ⟨⟨radix, es⟩, hes, rfl⟩ := Option.map_eq_some_iff.1 h
    exact Js.unmarked_ofList.2 (List.forall_mem_append.2 ⟨hclean, based?_clean hes⟩)
  · split at h
    · rename_i hd
      cases h
      refine Js.unmarked_ofList.2 ?_
      rw [hcs]
      exact List.forall_mem_append.2 ⟨hclean, isDecimal_clean hd⟩
    · cases h

theorem classify_plain (cs : List Char) : (classify cs).Plain := by
  unfold classify
  split
  · trivial
  · cases h : number? cs with
    | none => trivial
    | some i => exact number?_plain h

theorem split_plain (raw : List Char) : ∀ i ∈ split raw, i.Plain := by
  intro i hi
  obtain ⟨cs, -, rfl⟩ := List.mem_map.1 hi
  exact classify_plain _

end DataItem

end Locomotive
