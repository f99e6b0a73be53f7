import Locomotive.Emit.Site
import Locomotive.Proofs.Emit.Stmt
import Locomotive.Proofs.Js.Marked

/-!
# Replacing marks

A text with marks can always be resolved: each mark has the number of a reference, and each
reference has a text. What comes out is the text with every mark replaced (`FilledChars`). Nothing but warnings is added
to the tables.

* `Reference.text`: the text of a reference, with an `await` before it if it is awaited.
* `Functions.complaints`: the warnings about labels that no function has.
* `Emit.resolve_ends`: what resolving a text gives.
-/

namespace Locomotive

/-! ## The pieces of a marked text -/

theorem pieces_eq (cs : List Char) : pieces cs =
    match cs.dropWhile (· != Js.markOpen) with
    | [] => [.plain (cs.takeWhile (· != Js.markOpen))]
    | _ :: r =>
      match r.dropWhile (· != Js.markClose) with
      | [] => [.plain (cs.takeWhile (· != Js.markOpen)), .unclosed]
      | _ :: rest =>
        .plain (cs.takeWhile (· != Js.markOpen)) :: .mark (r.takeWhile (· != Js.markClose)) :: pieces rest := by
  rw [pieces]
  split
  · rename_i hopen
    rw [hopen]
  · rename_i hopen
    rw [hopen]
    split <;> rename_i hclose <;> dsimp only <;> rw [hclose]

/-- A character that opens no mark belongs to the first plain stretch. -/
theorem pieces_cons {c : Char} (hc : c ≠ Js.markOpen) (cs : List Char) :
    ∃ text rest, pieces cs = .plain text :: rest ∧ pieces (c :: cs) = .plain (c :: text) :: rest := by
  have htake : (c :: cs).takeWhile (· != Js.markOpen) = c :: cs.takeWhile (· != Js.markOpen) := by simp [hc]
  have hdrop : (c :: cs).dropWhile (· != Js.markOpen) = cs.dropWhile (· != Js.markOpen) := by simp [hc]
  rw [pieces_eq cs, pieces_eq (c :: cs), htake, hdrop]
  split
  · exact ⟨_, _, rfl, rfl⟩
  · split <;> exact ⟨_, _, rfl, rfl⟩

/-- A mark is a piece of its own. -/
theorem pieces_mark (i : Nat) (cs : List Char) :
    pieces ((Js.siteMark i).toList ++ cs) = .plain [] :: .mark (toString i).toList :: pieces cs := by
  have hmark : (Js.siteMark i).toList ++ cs = Js.markOpen :: ((toString i).toList ++ Js.markClose :: cs) := by
    simp [Js.siteMark]
  have hdigits : ∀ c ∈ (toString i).toList, (c != Js.markClose) = true := fun c hc =>
    bne_iff_ne.2 (Js.unmarked_toString i c hc).2
  have hinside : ((toString i).toList ++ Js.markClose :: cs).takeWhile (· != Js.markClose) = (toString i).toList := by
    rw [List.takeWhile_append_of_pos hdigits]
    simp
  have hrest : ((toString i).toList ++ Js.markClose :: cs).dropWhile (· != Js.markClose) = Js.markClose :: cs := by
    rw [List.dropWhile_append_of_pos hdigits]
    simp
  rw [hmark, pieces_eq, List.dropWhile_cons_of_neg (by simp), List.takeWhile_cons_of_neg (by simp)]
  dsimp only
  rw [hinside, hrest]

/-- The number of a mark is read back. -/
theorem signed?_toString (i : Nat) : Text.signed? (toString i).toList = some (i : Int) := by
  have hne : (toString i).toList ≠ [] := by simp
  rw [Text.signed?_digits hne fun c hc => isDigit_of_mem_toString hc, Text.digitsValue_toString]

/-! ## The texts of references -/

/-- How a function is named where it is not called. -/
def Functions.name (f : Functions) (label : String) : String := if f.has label then "_" ++ label else "undefined"

namespace Reference

/-- The call of a reference waits for an asynchronous function. -/
def isAwaited (f : Functions) : Reference → Bool
  | call label => f.has label && f.isAsync label
  | select labels => labels.any f.isAsync
  | schedule _ => false

/-- The text of a reference without the `await`. -/
def bareText (f : Functions) (selector : String) : Reference → String
  | call label => if f.has label then "_" ++ label ++ "()" else "/* GOSUB " ++ label ++ " */"
  | select labels => "[" ++ ", ".intercalate (labels.map f.name) ++ "][" ++ selector ++ " - 1]?.()"
  | schedule label => f.name label

/-- The text of a reference. -/
def text (f : Functions) (selector : String) (r : Reference) : String :=
  (if r.isAwaited f then "await " else "") ++ r.bareText f selector

/-- The reference with the given kind and labels. -/
def ofShape? : CallKind × List String → Option Reference
  | (.direct, [label]) => some (call label)
  | (.indexed, labels) => some (select labels)
  | (.reference, [label]) => some (schedule label)
  | _ => none

@[simp] theorem ofShape?_shape (r : Reference) : ofShape? r.shape = some r := by cases r <;> rfl

end Reference

/-- The text of a reference in the tables. -/
def CallSite.text (f : Functions) (s : CallSite) : String :=
  ((Reference.ofShape? s.shape).map (Reference.text f s.selector)).getD ""

theorem CallSite.text_eq {s : CallSite} {r : Reference} (h : s.shape = r.shape) (f : Functions) :
    s.text f = r.text f s.selector := by
  unfold CallSite.text
  rw [h, Reference.ofShape?_shape]
  rfl

/-- The text of the reference with the given number. -/
def siteText (f : Functions) (sites : List CallSite) (i : Nat) : String :=
  ((sites[i]?).map (CallSite.text f)).getD ""

/-- **Marks replaced.** The second text is the first one with each mark replaced by the text
of the reference. -/
inductive FilledChars (ref : Nat → String) : List Char → List Char → Prop
  | nil : FilledChars ref [] []
  | char {c : Char} {cs out : List Char} : Js.Clean c → FilledChars ref cs out → FilledChars ref (c :: cs) (c :: out)
  | mark {i : Nat} {cs out : List Char} : FilledChars ref cs out →
    FilledChars ref ((Js.siteMark i).toList ++ cs) ((ref i).toList ++ out)

namespace FilledChars

variable {ref : Nat → String}

/-- A character that belongs to no mark stays as it is. -/
theorem cons_inv {c : Char} {cs out : List Char} (hc : Js.Clean c)
    (h : FilledChars ref (c :: cs) out) : ∃ rest, out = c :: rest ∧ FilledChars ref cs rest := by
  generalize hall : c :: cs = all at h
  cases h with
  | nil => cases hall
  | char _ hrest =>
    cases hall
    exact ⟨_, rfl, hrest⟩
  | mark _ =>
    -- a mark starts with a character of its own
    have hopen : c = Js.markOpen := by simpa [Js.siteMark] using congrArg List.head? hall
    exact absurd hopen hc.1

/-- A text without marks at the front stays as it is. -/
theorem append_inv {as cs out : List Char} (has : ∀ c ∈ as, Js.Clean c)
    (h : FilledChars ref (as ++ cs) out) : ∃ rest, out = as ++ rest ∧ FilledChars ref cs rest := by
  induction as generalizing out with
  | nil => exact ⟨out, rfl, h⟩
  | cons a as ih =>
    obtain ⟨ha, has⟩ := List.forall_mem_cons.1 has
    obtain ⟨rest, rfl, hrest⟩ := cons_inv ha h
    obtain ⟨rest', rfl, hrest'⟩ := ih has hrest
    exact ⟨rest', rfl, hrest'⟩

end FilledChars

/-! ## Complaints -/

/-- The warnings about labels that are used on a line: one for each that no function has. -/
def Functions.complaints (f : Functions) (line : Int) (labels : List String) : List Warning :=
  (labels.filter fun label => !f.has label).map fun label => ⟨line, .notSubroutine label⟩

theorem Functions.complaints_cons (f : Functions) (line : Int) (label : String) (labels : List String) :
    f.complaints line (label :: labels) = f.complaints line [label] ++ f.complaints line labels := by
  unfold complaints
  rw [← List.map_append, ← List.filter_append]
  rfl

/-- The labels of a reference. -/
def Reference.labels (r : Reference) : List String := r.shape.2

/-- **Only warnings are added**, and the line that they are about is noted. -/
def Complains (ws : List Warning) (t t' : Tables) : Prop :=
  ∃ n, t' = { t with warnings := t.warnings ++ ws, lineNumber := n }

namespace Complains

variable {t t₁ t₂ : Tables} {ws ws' : List Warning}

theorem refl (t : Tables) : Complains [] t t := ⟨t.lineNumber, by rw [List.append_nil]⟩

theorem trans (h : Complains ws t t₁) (h' : Complains ws' t₁ t₂) : Complains (ws ++ ws') t t₂ := by
  obtain ⟨n, rfl⟩ := h
  obtain ⟨n', rfl⟩ := h'
  exact ⟨n', by rw [← List.append_assoc]⟩

theorem sites (h : Complains ws t t₁) : t₁.callSites = t.callSites := by
  obtain ⟨n, rfl⟩ := h
  rfl

end Complains

/-! ## Resolving -/

namespace Emit

/-- The warnings about the reference with the given number. -/
def complaintsAt (f : Functions) (sites : List CallSite) (i : Nat) : List Warning :=
  ((sites[i]?).map fun s => f.complaints s.lineNumber s.labels).getD []

variable {t : Tables} {f : Functions}

theorem functionName_ends (line : Int) (label : String) : Ends (functionName f line label) t
    (fun out t' => out = f.name label ∧ Complains (f.complaints line [label]) t t') fun _ => False := by
  unfold functionName Functions.name
  by_cases h : f.has label = true
  · have hnone : f.complaints line [label] = [] := by simp [Functions.complaints, h]
    rw [if_pos h, if_pos h, hnone]
    exact ⟨rfl, .refl t⟩
  · have hone : f.complaints line [label] = [⟨line, .notSubroutine label⟩] := by simp [Functions.complaints, h]
    rw [if_neg h, if_neg h, hone]
    exact ⟨rfl, line, rfl⟩

theorem functionNames_ends (line : Int) (labels : List String) : Ends (functionNames f line labels) t
    (fun out t' => out = labels.map f.name ∧ Complains (f.complaints line labels) t t') fun _ => False := by
  induction labels generalizing t with
  | nil => exact ⟨rfl, .refl t⟩
  | cons label labels ih =>
    rw [functionNames, Functions.complaints_cons]
    refine (functionName_ends line label).bind fun n t₁ ⟨hn, h₁⟩ => ?_
    exact ih.bind fun ns t₂ ⟨hns, h₂⟩ => ⟨by rw [hn, hns, List.map_cons], h₁.trans h₂⟩

/-- **Every reference has a text**, and it is complained about once for each of its labels that no function has. -/
theorem reference_ends {s : CallSite} {r : Reference} (hs : s.shape = r.shape) : Ends (reference f s) t
    (fun out t' => out = s.text f ∧ Complains (f.complaints s.lineNumber s.labels) t t') fun _ => False := by
  have htext := CallSite.text_eq hs f
  obtain ⟨hkind, hlabels⟩ := Prod.mk.inj (show (s.kind, s.labels) = (r.shape.1, r.shape.2) from hs)
  rw [htext]
  unfold reference
  rw [hkind, hlabels]
  cases r with
  | call label =>
    have hawait : "await _" = "await " ++ "_" := by decide
    -- the warning is that of naming the function, only the text is another
    have hname := functionName_ends (t := t) (f := f) s.lineNumber label
    unfold functionName at hname
    dsimp only [Reference.shape]
    by_cases hhas : f.has label = true
    · rw [if_pos hhas] at hname ⊢
      refine ⟨?_, hname.2⟩
      simp only [Reference.text, Reference.isAwaited, Reference.bareText, hhas, Bool.true_and, if_true]
      cases f.isAsync label with
      | true =>
        show "await _" ++ label ++ "()" = "await " ++ ("_" ++ label ++ "()")
        rw [hawait, String.append_assoc, String.append_assoc, String.append_assoc]
      | false => exact String.empty_append.symm
    · rw [if_neg hhas] at hname ⊢
      exact ⟨by simp [Reference.text, Reference.isAwaited, Reference.bareText, hhas], hname.2⟩
  | select labels =>
    refine (functionNames_ends s.lineNumber labels).bind fun names t' ⟨hnames, ht'⟩ => ⟨?_, ht'⟩
    rw [hnames]
    simp only [Reference.text, Reference.isAwaited, Reference.bareText, Reference.shape, String.append_assoc]
    rfl
  | schedule label =>
    refine (functionName_ends s.lineNumber label).mono ?_ fun _ => id
    rintro out t' ⟨rfl, ht'⟩
    exact ⟨by simp [Reference.text, Reference.isAwaited, Reference.bareText], ht'⟩

/-- A mark with the number of a reference stands for this reference. -/
theorem mark_ends {i : Nat} (hi : i < t.callSites.length) (hfit : ∀ s ∈ t.callSites, ∃ r : Reference, s.shape = r.shape) :
    Ends (mark f (toString i).toList) t (fun out t' => out = siteText f t.callSites i ∧
      Complains (complaintsAt f t.callSites i) t t') fun _ => False := by
  have hrange : ¬ ((i : Int) ≥ t.callSites.length ∨ (i : Int) < Text.leastWord) := by
    unfold Text.leastWord
    omega
  obtain ⟨r, hr⟩ := hfit _ (List.getElem_mem hi)
  rw [mark, ends_bind, ends_get, signed?_toString]
  dsimp only
  rw [if_neg hrange, if_neg (by omega), Int.toNat_natCast]
  unfold siteText complaintsAt
  rw [List.getElem?_eq_getElem hi]
  exact reference_ends hr

/-- The marks are resolved in order, each by itself. -/
theorem piecesOf_ends (hfit : ∀ s ∈ t.callSites, ∃ r : Reference, s.shape = r.shape) {cs : List Char} {ns : List Nat}
    (hcs : Js.MarkChars cs ns) (hns : ∀ i ∈ ns, i < t.callSites.length) :
    Ends (piecesOf f (pieces cs)) t (fun xs t' => FilledChars (siteText f t.callSites) cs (String.join xs).toList ∧
      Complains (ns.flatMap (complaintsAt f t.callSites)) t t') fun _ => False := by
  induction hcs generalizing t with
  | nil =>
    rw [pieces_eq]
    exact ⟨.nil, .refl t⟩
  | @char c cs ns hc _ ih =>
    -- the character joins the first piece, which is a plain one
    obtain ⟨text, rest, hcs, hccs⟩ := pieces_cons hc.1 cs
    have hrest := ih hfit hns
    rw [hcs, piecesOf, piece] at hrest
    rw [hccs, piecesOf, piece]
    simp only [ends_bind, ends_pure] at hrest ⊢
    refine hrest.mono ?_ fun _ => id
    rintro xs t' ⟨hxs, ht'⟩
    refine ⟨?_, ht'⟩
    have := FilledChars.char hc hxs
    simpa [String.toList_join] using this
  | @mark i cs ns _ ih =>
    obtain ⟨hi, hns⟩ := List.forall_mem_cons.1 hns
    rw [pieces_mark, piecesOf, piece]
    simp only [ends_bind, ends_pure]
    rw [piecesOf, piece]
    refine (mark_ends hi hfit).bind ?_
    rintro x t₁ ⟨hx, h₁⟩
    have hrest := ih (t := t₁)
    rw [h₁.sites] at hrest
    refine (hrest hfit hns).bind ?_
    rintro xs t₂ ⟨hxs, h₂⟩
    refine ⟨?_, by rw [List.flatMap_cons]; exact h₁.trans h₂⟩
    have := FilledChars.mark (i := i) hxs
    rw [hx]
    simpa [String.toList_join] using this

/-- **A marked text can be resolved**: each mark is replaced by the text of its reference. -/
theorem resolve_ends (hfit : ∀ s ∈ t.callSites, ∃ r : Reference, s.shape = r.shape) {text : String} {ns : List Nat}
    (htext : Js.HasMarks text ns) (hns : ∀ i ∈ ns, i < t.callSites.length) :
    Ends (resolve f text) t (fun out t' => FilledChars (siteText f t.callSites) text.toList out.toList ∧
      Complains (ns.flatMap (complaintsAt f t.callSites)) t t') fun _ => False := by
  rw [resolve]
  exact (piecesOf_ends hfit htext hns).bind fun xs t' h => h

end Emit

end Locomotive
