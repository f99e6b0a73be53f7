import Locomotive.Subroutine

/-!
# Which subroutines wait

The subroutines that wait are the least set that contains each one with a line that waits and
each one with a line that calls a member (`Waits`). The search for them finds exactly this set,
since no line is in two subroutines and so every line has one owner at most.

* `reach_closed`, `reach_least`: the search finds the least closed set.
* `mem_asyncLabels_iff`: the subroutines that are found.
-/

namespace Locomotive

/-! ## The search -/

section Reach

variable {next : String → List String} {remaining pending : List String}

/-- What is found contains the members that are pending, and with a member those that follow
it. -/
theorem reach_closed (next : String → List String) (remaining pending : List String) :
    (∀ x ∈ pending, x ∈ remaining → x ∈ reach next remaining pending) ∧
    ∀ x ∈ reach next remaining pending, ∀ y ∈ next x, y ∈ remaining → y ∈ reach next remaining pending := by
  fun_induction reach next remaining pending with
  | case1 remaining pending hnone =>
    refine ⟨fun x hx hr => ?_, by simp⟩
    have := List.find?_eq_none.1 hnone x hx
    exact absurd (List.contains_iff_mem.2 hr) this
  | case2 remaining pending x hfound ih =>
    obtain ⟨hpending, hclosed⟩ := ih
    -- what is not `x` itself is still searched for
    have hstep : ∀ y, y ∈ next x ++ pending → y ∈ remaining →
        y ∈ x :: reach next (remaining.erase x) (next x ++ pending) := by
      intro y hy hr
      by_cases hyx : y = x
      · rw [hyx]; exact List.mem_cons_self ..
      · exact List.mem_cons_of_mem _ (hpending y hy ((List.mem_erase_of_ne hyx).2 hr))
    refine ⟨fun y hy hr => hstep y (List.mem_append_right _ hy) hr, fun z hz y hy hr => ?_⟩
    rcases List.mem_cons.1 hz with rfl | hz
    · exact hstep y (List.mem_append_left _ hy) hr
    · by_cases hyx : y = x
      · rw [hyx]; exact List.mem_cons_self ..
      · exact List.mem_cons_of_mem _ (hclosed z hz y hy ((List.mem_erase_of_ne hyx).2 hr))

/-- Whatever holds of the members that are pending, and with a member of those that follow it,
holds of all that is found. -/
theorem reach_least {P : String → Prop} (hpending : ∀ x ∈ pending, P x) (hnext : ∀ x, P x → ∀ y ∈ next x, P y) :
    ∀ x ∈ reach next remaining pending, P x := by
  fun_induction reach next remaining pending with
  | case1 => simp
  | case2 remaining pending x hfound ih =>
    have hx : P x := hpending x (List.mem_of_find?_eq_some hfound)
    refine List.forall_mem_cons.2 ⟨hx, ih ?_⟩
    exact List.forall_mem_append.2 ⟨hnext x hx, hpending⟩

theorem reach_subset : ∀ x ∈ reach next remaining pending, x ∈ remaining := by
  fun_induction reach next remaining pending with
  | case1 => simp
  | case2 remaining pending x hfound ih =>
    have hx : x ∈ remaining := List.contains_iff_mem.1 (List.find?_some hfound)
    exact List.forall_mem_cons.2 ⟨hx, fun y hy => List.mem_of_mem_erase (ih y hy)⟩

end Reach

/-! ## Owners of lines -/

/-- **Subroutines that are apart**: each ends before the next one starts, and has a name. -/
structure Apart (subs : List Subroutine) : Prop where
  lines : subs.Pairwise fun a b => a.last < b.first
  named : ∀ s ∈ subs, s.label ≠ ""

theorem Subroutine.holds_iff {s : Subroutine} {line : Int} : s.holds line = true ↔ s.first ≤ line ∧ line ≤ s.last := by
  simp [Subroutine.holds]

/-- No line is in both subroutines. -/
def Subroutine.Disjoint (a b : Subroutine) : Prop := ∀ line, ¬(a.holds line = true ∧ b.holds line = true)

/-- **Subroutines with lines of their own**, in any order: no line is in two of them, and each has a name. -/
structure Separate (subs : List Subroutine) : Prop where
  lines : subs.Pairwise Subroutine.Disjoint
  named : ∀ s ∈ subs, s.label ≠ ""

theorem Apart.separate {subs : List Subroutine} (h : Apart subs) : Separate subs where
  lines := h.lines.imp fun {a b} hab line hline => by
    obtain ⟨ha, hb⟩ := hline
    rw [Subroutine.holds_iff] at ha hb
    omega
  named := h.named

/-- A line is in one subroutine at most. -/
theorem eq_of_holds {subs : List Subroutine} (h : subs.Pairwise Subroutine.Disjoint) {a b : Subroutine}
    (ha : a ∈ subs) (hb : b ∈ subs) {line : Int} (hla : a.holds line = true) (hlb : b.holds line = true) : a = b := by
  induction h with
  | nil => simp at ha
  | @cons s subs hs _ ih =>
    rcases List.mem_cons.1 ha with rfl | ha' <;> rcases List.mem_cons.1 hb with rfl | hb'
    · rfl
    · exact absurd ⟨hla, hlb⟩ (hs b hb' line)
    · exact absurd ⟨hlb, hla⟩ (hs a ha' line)
    · exact ih ha' hb'

/-- The owner of a line is the subroutine that holds it. -/
theorem owner?_eq_some_iff {subs : List Subroutine} (h : Separate subs) {line : Int} {label : String} :
    owner? subs line = some label ↔ ∃ s ∈ subs, s.holds line = true ∧ s.label = label := by
  unfold owner?
  rw [Option.filter_eq_some_iff, Option.map_eq_some_iff]
  constructor
  · rintro ⟨⟨s, hs, rfl⟩, -⟩
    have hholds := List.find?_some hs
    exact ⟨s, List.mem_reverse.1 (List.mem_of_find?_eq_some hs), hholds, rfl⟩
  · rintro ⟨s, hs, hholds, rfl⟩
    refine ⟨?_, by simpa using h.named s hs⟩
    cases hfind : subs.reverse.find? fun s => s.holds line with
    | none =>
      have := List.find?_eq_none.1 hfind s (List.mem_reverse.2 hs)
      exact absurd hholds this
    | some s' =>
      have hs' := List.mem_reverse.1 (List.mem_of_find?_eq_some hfind)
      have hholds' := List.find?_some hfind
      exact ⟨s', rfl, by rw [eq_of_holds h.lines hs' hs hholds' hholds]⟩

theorem mem_waiting_iff {subs : List Subroutine} {i : Int} {waits : List Bool} {label : String} :
    label ∈ waiting subs i waits ↔ ∃ k : Nat, waits[k]? = some true ∧ owner? subs (i + k) = some label := by
  induction waits generalizing i with
  | nil => simp [waiting]
  | cons w ws ih =>
    -- the index `k` counts from the first flag, the line number from `i`
    rw [waiting, List.mem_append, ih]
    constructor
    · rintro (h | ⟨k, hk, ho⟩)
      · refine ⟨0, ?_⟩
        cases w <;> simp_all
      · refine ⟨k + 1, by simpa using hk, ?_⟩
        rw [← ho]; congr 1; omega
    · rintro ⟨k, hk, ho⟩
      cases k with
      | zero =>
        left
        simp only [List.getElem?_cons_zero, Option.some.injEq] at hk
        rw [hk]
        simpa using ho
      | succ k =>
        right
        refine ⟨k, by simpa using hk, ?_⟩
        rw [← ho]; congr 1; omega

theorem mem_callers_iff {subs : List Subroutine} {sites : List CallSite} {label caller : String} :
    caller ∈ callers subs sites label ↔
      ∃ s ∈ sites, s.kind ≠ .reference ∧ label ∈ s.labels ∧ owner? subs s.line = some caller := by
  unfold callers
  rw [List.mem_filterMap]
  constructor
  · rintro ⟨s, hs, h⟩
    split at h
    · rename_i hc
      exact ⟨s, hs, hc.1, List.contains_iff_mem.1 hc.2, h⟩
    · cases h
  · rintro ⟨s, hs, hk, hl, ho⟩
    exact ⟨s, hs, by rw [if_pos ⟨hk, List.contains_iff_mem.2 hl⟩]; exact ho⟩

/-! ## The least set -/

/-- **The subroutines that wait**, if the line `k` waits in itself where `waits k` says so and
calls the subroutine `label` where `calls k label` does. -/
inductive Waits (subs : List Subroutine) (waits : Nat → Prop) (calls : Nat → String → Prop) : String → Prop
  | line {s : Subroutine} {k : Nat} : s ∈ subs → s.holds k = true → waits k → Waits subs waits calls s.label
  | call {s : Subroutine} {k : Nat} {label : String} : s ∈ subs → s.holds k = true → calls k label →
    Waits subs waits calls label → Waits subs waits calls s.label

/-- **The search finds the subroutines that wait.** -/
theorem mem_asyncLabels_iff {subs : List Subroutine} (h : Separate subs) (waits : List Bool) {sites : List CallSite}
    (hsites : ∀ s ∈ sites, 0 ≤ s.line) (label : String) :
    label ∈ asyncLabels subs waits sites ↔ Waits subs (fun k => waits[k]? = some true)
      (fun k callee => ∃ s ∈ sites, s.line = k ∧ s.kind ≠ .reference ∧ callee ∈ s.labels) label := by
  obtain ⟨hpending, hclosed⟩ := reach_closed (callers subs sites) (subs.map Subroutine.label).eraseDups
    (waiting subs 0 waits)
  have hremaining : ∀ s ∈ subs, s.label ∈ (subs.map Subroutine.label).eraseDups := fun s hs =>
    List.mem_eraseDups.2 (List.mem_map_of_mem hs)
  constructor
  · -- every label that is found waits: the first ones in a line, the others through a call
    intro hmem
    refine reach_least ?_ ?_ label hmem
    · intro x hx
      obtain ⟨k, hk, ho⟩ := mem_waiting_iff.1 hx
      rw [Int.zero_add] at ho
      obtain ⟨s, hs, hholds, rfl⟩ := (owner?_eq_some_iff h).1 ho
      exact .line hs hholds hk
    · intro x hx y hy
      obtain ⟨site, hsite, hkind, hlabel, ho⟩ := mem_callers_iff.1 hy
      obtain ⟨s, hs, hholds, rfl⟩ := (owner?_eq_some_iff h).1 ho
      have hline : site.line = site.line.toNat := (Int.toNat_of_nonneg (hsites site hsite)).symm
      rw [hline] at hholds
      exact .call hs hholds ⟨site, hsite, hline, hkind, hlabel⟩ hx
  · intro hwaits
    induction hwaits with
    | @line s k hs hholds hk =>
      refine hpending s.label (mem_waiting_iff.2 ⟨k, hk, ?_⟩) (hremaining s hs)
      rw [Int.zero_add]
      exact (owner?_eq_some_iff h).2 ⟨s, hs, hholds, rfl⟩
    | @call s k callee hs hholds hcalls _ ih =>
      obtain ⟨site, hsite, hline, hkind, hlabel⟩ := hcalls
      refine hclosed callee ih s.label (mem_callers_iff.2 ⟨site, hsite, hkind, hlabel, ?_⟩) (hremaining s hs)
      exact (owner?_eq_some_iff h).2 ⟨s, hs, by rw [hline]; exact hholds, rfl⟩

end Locomotive
