import Locomotive.Proofs.Compiler
import Locomotive.Proofs.Emit.Draft
import Locomotive.Proofs.Link
import Locomotive.Proofs.Stmt.Legible

/-!
# Marks never show

A text with marks is a series of stretches with one mark between each two. Replacing the marks keeps the
stretches as they are, and puts the text of each reference in the place of its mark. Neither holds a
character of a mark, whatever the source text holds, so the program that is generated holds none.

* `weave`: stretches with texts between them.
* `exists_weave`: replacing the marks of a text.
* `compile_marks_resolved`: the marks of a program, and what is put in their place.
-/

namespace Locomotive

open Js (Unmarked siteMark)
open Text (Within AllWithin)

variable {P : Char → Prop}

/-! ## The texts of references -/

/-- The name of a function is of the class if its label is. -/
theorem Functions.within_name (hP : Js.Covers P) (f : Functions) {label : String} (h : Within P label) :
    Within P (f.name label) := by
  unfold Functions.name
  split
  · exact Text.within_append.2 ⟨Within.mono (show Within Js.Plain "_" by decide) hP, h⟩
  · exact Within.mono (show Within Js.Plain "undefined" by decide) hP

/-- The text of a reference without the `await`. -/
theorem Reference.within_bareText (hP : Js.Covers P) (f : Functions) {selector : String} (hs : Within P selector)
    {r : Reference} (h : AllWithin P r.labels) : Within P (r.bareText f selector) := by
  have hfixed : ∀ t : String, Within Js.Plain t → Within P t := fun t ht => ht.mono hP
  cases r with
  | call label =>
    have hlabel : Within P label := h label List.mem_cons_self
    show Within P (if f.has label then "_" ++ label ++ "()" else "/* GOSUB " ++ label ++ " */")
    split
    · simp only [Text.within_append]
      exact ⟨⟨hfixed "_" (by decide), hlabel⟩, hfixed "()" (by decide)⟩
    · simp only [Text.within_append]
      exact ⟨⟨hfixed "/* GOSUB " (by decide), hlabel⟩, hfixed " */" (by decide)⟩
  | select labels =>
    have hnames : AllWithin P (labels.map f.name) := by
      intro n hn
      obtain ⟨l, hl, rfl⟩ := List.mem_map.1 hn
      exact f.within_name hP (h l hl)
    have hlist : Within P (", ".intercalate (labels.map f.name)) := .intercalate (hfixed ", " (by decide)) hnames
    show Within P ("[" ++ ", ".intercalate (labels.map f.name) ++ "][" ++ selector ++ " - 1]?.()")
    simp only [Text.within_append]
    exact ⟨⟨⟨⟨hfixed "[" (by decide), hlist⟩, hfixed "][" (by decide)⟩, hs⟩, hfixed " - 1]?.()" (by decide)⟩
  | schedule label => exact f.within_name hP (h label List.mem_cons_self)

/-- A reference that is found by its kind and its labels has them. -/
theorem Reference.shape_of_ofShape? {x : CallKind × List String} {r : Reference} (h : ofShape? x = some r) :
    x = r.shape := by
  revert h
  unfold ofShape?
  split
  · rintro ⟨⟩; rfl
  · rintro ⟨⟩; rfl
  · rintro ⟨⟩; rfl
  · rintro ⟨⟩

/-- **The text of a reference** is made of its labels, its selector, and fixed signs. -/
theorem CallSite.within_text (hP : Js.Covers P) (f : Functions) {s : CallSite} (h : s.Spelled P) :
    Within P (s.text f) := by
  unfold CallSite.text
  cases hr : Reference.ofShape? s.shape with
  | none => exact fun c hc => absurd hc (by simp)
  | some r =>
    have hlabels : s.labels = r.labels := congrArg Prod.snd (Reference.shape_of_ofShape? hr)
    have hawait : Within P (if r.isAwaited f then "await " else "") := by
      split
      · exact Within.mono (show Within Js.Plain "await " by decide) hP
      · exact fun c hc => absurd hc (by simp)
    exact Text.within_append.2 ⟨hawait, Reference.within_bareText hP f h.selector (hlabels ▸ h.labels)⟩

theorem CallSite.Spelled.mono {Q : Char → Prop} {s : CallSite} (h : s.Spelled P) (hPQ : ∀ c, P c → Q c) :
    s.Spelled Q := ⟨h.selector.mono hPQ, h.labels.mono hPQ⟩

/-- The texts of references by their numbers; a number that no reference has stands for no text. -/
theorem within_siteText (hP : Js.Covers P) (f : Functions) {sites : List CallSite} (h : ∀ s ∈ sites, s.Spelled P)
    (i : Nat) : Within P (siteText f sites i) := by
  unfold siteText
  cases hs : sites[i]? with
  | none => exact fun x hx => absurd hx (by simp)
  | some s => exact CallSite.within_text hP f (h s (List.mem_of_getElem? hs))

/-! ## Stretches and marks -/

/-- **Stretches with texts between them**: the first stretch, and then each text with the stretch behind it. -/
def weave (first : String) (texts stretches : List String) : String :=
  first ++ String.join (List.zipWith (· ++ ·) texts stretches)

theorem weave_append (a first : String) (texts stretches : List String) :
    weave (a ++ first) texts stretches = a ++ weave first texts stretches := String.append_assoc ..

theorem weave_cons (first text next : String) (texts stretches : List String) :
    weave first (text :: texts) (next :: stretches) = first ++ text ++ weave next texts stretches := by
  simp [weave, String.append_assoc]

/-- Stretches and texts without marks make up a text without marks. -/
theorem unmarked_weave {first : String} {texts stretches : List String} (hf : Unmarked first)
    (ht : ∀ t ∈ texts, Unmarked t) (hs : ∀ s ∈ stretches, Unmarked s) : Unmarked (weave first texts stretches) := by
  induction texts generalizing first stretches with
  | nil => simpa [weave] using hf
  | cons t ts ih =>
    obtain ⟨ht, hts⟩ := List.forall_mem_cons.1 ht
    cases stretches with
    | nil => simpa [weave] using hf
    | cons s ss =>
      obtain ⟨hs, hss⟩ := List.forall_mem_cons.1 hs
      rw [weave_cons]
      exact Js.unmarked_append.2 ⟨Js.unmarked_append.2 ⟨hf, ht⟩, ih hs hts hss⟩

/-- A mark at the front can be told from what follows it. -/
theorem siteMark_append_inj {i j : Nat} {a b : List Char}
    (h : (siteMark i).toList ++ a = (siteMark j).toList ++ b) : i = j ∧ a = b := by
  have hmark : ∀ (n : Nat) (cs : List Char),
      (siteMark n).toList ++ cs = Js.markOpen :: ((toString n).toList ++ Js.markClose :: cs) := by
    intro n cs
    simp [siteMark]
  have hdigits : ∀ n : Nat, ∀ c ∈ (toString n).toList, (c != Js.markClose) = true := fun n c hc =>
    bne_iff_ne.2 (Js.unmarked_toString n c hc).2
  rw [hmark, hmark, List.cons.injEq] at h
  have htake := congrArg (List.takeWhile (· != Js.markClose)) h.2
  have hdrop := congrArg (List.dropWhile (· != Js.markClose)) h.2
  rw [List.takeWhile_append_of_pos (hdigits i), List.takeWhile_append_of_pos (hdigits j)] at htake
  rw [List.dropWhile_append_of_pos (hdigits i), List.dropWhile_append_of_pos (hdigits j)] at hdrop
  refine ⟨toString_inj.1 (String.toList_inj.1 (by simpa using htake)), by simpa using hdrop⟩

theorem FilledChars.nil_inv {ref : Nat → String} {out : List Char} (h : FilledChars ref [] out) : out = [] := by
  generalize hall : ([] : List Char) = all at h
  cases h with
  | nil => rfl
  | char _ _ => cases hall
  | mark _ => simp [siteMark] at hall

/-- A mark at the front is replaced. -/
theorem FilledChars.mark_inv {ref : Nat → String} {i : Nat} {cs out : List Char}
    (h : FilledChars ref ((siteMark i).toList ++ cs) out) :
    ∃ rest, out = (ref i).toList ++ rest ∧ FilledChars ref cs rest := by
  generalize hall : (siteMark i).toList ++ cs = all at h
  cases h with
  | nil => simp [siteMark] at hall
  | char hc _ =>
    -- a character of the text does not open a mark
    have hopen := congrArg List.head? hall
    simp only [siteMark, String.toList_append, List.append_assoc] at hopen
    exact absurd (by simpa using hopen.symm) hc.1
  | mark hrest =>
    obtain ⟨rfl, rfl⟩ := siteMark_append_inj hall
    exact ⟨_, rfl, hrest⟩

/-- **Replacing the marks of a text** keeps the stretches between them. -/
theorem exists_weave {ref : Nat → String} {ns : List Nat} {marked out : String} (h : Js.HasMarks marked ns)
    (hf : FilledChars ref marked.toList out.toList) :
    ∃ first stretches, stretches.length = ns.length ∧ Unmarked first ∧ (∀ s ∈ stretches, Unmarked s) ∧
      marked = weave first (ns.map siteMark) stretches ∧ out = weave first (ns.map ref) stretches := by
  -- by induction over the marked characters; a plain one joins the first stretch
  have hchars : ∀ {cs : List Char} {ns : List Nat}, Js.MarkChars cs ns → ∀ {out : List Char}, FilledChars ref cs out →
      ∃ first stretches, stretches.length = ns.length ∧ Unmarked first ∧ (∀ s ∈ stretches, Unmarked s) ∧
        String.ofList cs = weave first (ns.map siteMark) stretches ∧
        String.ofList out = weave first (ns.map ref) stretches := by
    intro cs ns h
    induction h with
    | nil =>
      intro out hf
      rw [hf.nil_inv]
      exact ⟨"", [], rfl, by decide, by simp, by simp [weave], by simp [weave]⟩
    | @char c cs ns hc _ ih =>
      intro out hf
      obtain ⟨rest, rfl, hrest⟩ := FilledChars.cons_inv hc hf
      obtain ⟨first, stretches, hlength, hfirst, hstretches, hcs, hout⟩ := ih hrest
      have hcons : ∀ ds : List Char, String.ofList (c :: ds) = String.singleton c ++ String.ofList ds := by
        intro ds
        apply String.toList_inj.1
        simp
      refine ⟨String.singleton c ++ first, stretches, hlength, ?_, hstretches, ?_, ?_⟩
      · refine Js.unmarked_append.2 ⟨fun d hd => ?_, hfirst⟩
        obtain rfl : d = c := by simpa using hd
        exact hc
      · rw [hcons, hcs, weave_append]
      · rw [hcons, hout, weave_append]
    | @mark i cs ns _ ih =>
      intro out hf
      obtain ⟨rest, rfl, hrest⟩ := hf.mark_inv
      obtain ⟨first, stretches, hlength, hfirst, hstretches, hcs, hout⟩ := ih hrest
      have hfront : ∀ (t : String) (ds : List Char), String.ofList (t.toList ++ ds) = "" ++ t ++ String.ofList ds := by
        intro t ds
        apply String.toList_inj.1
        simp
      refine ⟨"", first :: stretches, by simp [hlength], by decide, List.forall_mem_cons.2 ⟨hfirst, hstretches⟩, ?_, ?_⟩
      · rw [hfront, hcs, List.map_cons, weave_cons]
      · rw [hfront, hout, List.map_cons, weave_cons]
  simpa using hchars h hf

/-! ## Programs -/

namespace Stages

variable {p : Program} {text : String}

/-- **How the marks of a program are resolved**, where `t` are the tables in the end. -/
structure Resolved (o : Stages p text) (t : Tables) : Prop where
  /-- Nothing of a mark is left. -/
  unmarked : Unmarked text
  /-- There is one mark for each reference in the tables. They are numbered from zero on in their order,
  what stands between them holds nothing of a mark, and each is replaced by the text of its reference. -/
  woven : ∃ first stretches, stretches.length = t.callSites.length ∧ Unmarked first ∧
    (∀ s ∈ stretches, Unmarked s) ∧
    o.marked = weave first ((List.range t.callSites.length).map siteMark) stretches ∧
    text = weave first (t.callSites.map (CallSite.text (o.tables.functions o.async))) stretches
  /-- The references in the tables are those of the source, in its order. -/
  ordered : (t.callSites.map fun s => (s.shape, s.lineNumber)) = sitesOf p.lines

/-- The texts of the references hold nothing of a mark. -/
theorem unmarked_sites (o : Stages p text) (hp : ∀ l ∈ p.lines, Stmt.AllSpelled Js.Plain l.stmts) (f : Functions) :
    ∀ s ∈ o.tables.callSites, Unmarked (s.text f) := by
  intro s hs
  have hspelled := (Program.lined o.lines_eq Js.alphabet_plain hp).2.1 s hs
  exact Js.unmarked_of_plain (CallSite.within_text (fun _ => id) f hspelled)

/-- The texts of references by their numbers are those of the list. -/
theorem map_siteText (f : Functions) (sites : List CallSite) :
    (List.range sites.length).map (siteText f sites) = sites.map (CallSite.text f) := by
  refine List.ext_getElem (by simp) fun i h₁ h₂ => ?_
  have hi : i < sites.length := by simpa using h₂
  simp [siteText, List.getElem?_eq_getElem hi]

theorem resolved (o : Stages p text) (hp : p.Proper) (hresult : p.generate.1 = .ok text) :
    o.Resolved p.generate.2 := by
  have hsites : p.generate.2.callSites = o.tables.callSites := (o.complains hp hresult).sites
  obtain ⟨first, stretches, hlength, hfirst, hstretches, hmarked, htext⟩ :=
    exists_weave (o.hasMarks hp) o.filled
  rw [List.length_range] at hlength
  rw [map_siteText] at htext
  have hunmarked : Unmarked text := by
    rw [htext]
    refine unmarked_weave hfirst (fun t ht => ?_) hstretches
    obtain ⟨s, hs, rfl⟩ := List.mem_map.1 ht
    exact o.unmarked_sites (fun l hl => (hp.line l hl).words) _ s hs
  refine ⟨hunmarked, ?_, ?_⟩
  · rw [hsites]
    exact ⟨first, stretches, hlength, hfirst, hstretches, hmarked, htext⟩
  · rw [hsites]
    exact (o.history hp).record.sites

end Stages

/-- **Marks neither leak nor are forged**, whatever the source text holds. -/
theorem compile_marks_resolved (strict : Bool) (source : List Char) :
    match (compile strict source).result with
    | .error _ => True
    | .ok text => ∃ (p : Program) (o : Stages p text),
      Program.parse strict (Token.scan source).tokens source = .ok p ∧
      o.Resolved (compile strict source).tables := by
  rcases hresult : (compile strict source).result with why | text
  · trivial
  · obtain ⟨p, ⟨o⟩, h⟩ := compile_accepted hresult
    refine ⟨p, o, h.parsed, ?_⟩
    rw [h.tables]
    exact o.resolved h.proper h.generated

end Locomotive
