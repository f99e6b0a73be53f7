import Mathlib.Data.List.Basic
import Mathlib.Order.Bounds.Basic
import Locomotive.Proofs.Subroutine
import Locomotive.Proofs.Tables.Names

/-!
# The least set of subroutines that wait

Which subroutines wait is a question about the call graph, which may have cycles, repeated edges and calls of labels that
no subroutine has. A set of labels answers it if no line and no call adds to it (`Saturated`); the search gives the
smallest such set, each label once. A reference that is no call, or that stands in no subroutine, adds nothing.

* `Saturated`: the sets that no line and no call adds to.
* `asyncLabels?_isLeast`: the search gives the least of them.
-/

namespace Locomotive

variable {subs : List Subroutine} {waits : List Bool} {sites : List CallSite}

/-- **A set of labels that nothing adds to.** It has labels of subroutines only, the owner of every line that waits, and
the owner of every call of a member. -/
structure Saturated (subs : List Subroutine) (waits : List Bool) (sites : List CallSite) (labels : Set String) : Prop where
  within : ∀ label ∈ labels, ∃ s ∈ subs, s.label = label
  line : ∀ s ∈ subs, ∀ k : Nat, s.holds k = true → waits[k]? = some true → s.label ∈ labels
  call : ∀ s ∈ subs, ∀ site ∈ sites, s.holds site.line = true → site.kind ≠ .reference →
    (∃ label ∈ site.labels, label ∈ labels) → s.label ∈ labels

/-- The reference is a call, and stands in a subroutine. -/
def CallSite.counts (subs : List Subroutine) (site : CallSite) : Bool :=
  site.kind ≠ .reference && subs.any fun s => s.holds site.line

/-! ## The set that is found -/

/-- The subroutines that wait are a set that nothing adds to. -/
theorem waits_saturated (hline : ∀ site ∈ sites, 0 ≤ site.line) :
    Saturated subs waits sites {label | Waits subs (fun k => waits[k]? = some true)
      (fun k callee => ∃ s ∈ sites, s.line = k ∧ s.kind ≠ .reference ∧ callee ∈ s.labels) label} where
  within label hlabel := by
    cases hlabel with
    | line hs _ _ => exact ⟨_, hs, rfl⟩
    | call hs _ _ _ => exact ⟨_, hs, rfl⟩
  line s hs k hholds hk := .line hs hholds hk
  call s hs site hsite hholds hkind hmember := by
    obtain ⟨callee, hcallee, hwaits⟩ := hmember
    -- the lines of calls are numbers from zero on, as those of `Waits`
    have hnat : site.line = site.line.toNat := (Int.toNat_of_nonneg (hline site hsite)).symm
    rw [hnat] at hholds
    exact .call hs hholds ⟨site, hsite, hnat, hkind, hcallee⟩ hwaits

/-- Every set that nothing adds to has all subroutines that wait. -/
theorem Saturated.mem_of_waits {labels : Set String} (h : Saturated subs waits sites labels) {label : String}
    (hwaits : Waits subs (fun k => waits[k]? = some true)
      (fun k callee => ∃ s ∈ sites, s.line = k ∧ s.kind ≠ .reference ∧ callee ∈ s.labels) label) :
    label ∈ labels := by
  induction hwaits with
  | @line s k hs hholds hk => exact h.line s hs k hholds hk
  | @call s k callee hs hholds hcalls _ ih =>
    obtain ⟨site, hsite, hline, hkind, hcallee⟩ := hcalls
    exact h.call s hs site hsite (hline ▸ hholds) hkind ⟨callee, hcallee, ih⟩

/-- Nothing is found twice: what is found is not searched for any more. -/
theorem nodup_reach (next : String → List String) {remaining pending : List String} (h : remaining.Nodup) :
    (reach next remaining pending).Nodup := by
  fun_induction reach next remaining pending with
  | case1 => exact List.nodup_nil
  | case2 remaining pending x _ ih =>
    refine List.nodup_cons.2 ⟨fun hx => ?_, ih (h.erase x)⟩
    have hmem : x ∈ remaining.erase x := reach_subset x hx
    exact (h.not_mem_erase) hmem

/-! ## References that do not count -/

/-- A line that is in no subroutine has no owner. -/
theorem owner?_eq_none {line : Int} (h : (subs.any fun s => s.holds line) = false) : owner? subs line = none := by
  have hfind : (subs.reverse.find? fun s => s.holds line) = none := by
    refine List.find?_eq_none.2 fun s hs => ?_
    have := List.any_eq_false.1 h s (List.mem_reverse.1 hs)
    simpa using this
  unfold owner?
  rw [hfind]
  rfl

/-- The references that do not count make no caller. -/
theorem callers_filter_counts (subs : List Subroutine) (sites : List CallSite) :
    callers subs (sites.filter (CallSite.counts subs)) = callers subs sites := by
  funext label
  unfold callers
  rw [List.filterMap_filter]
  refine List.filterMap_congr fun site _ => ?_
  by_cases hcounts : site.counts subs = true
  · rw [if_pos hcounts]
  · rw [if_neg hcounts]
    by_cases hkind : site.kind ≠ .reference
    · have hnone : (subs.any fun s => s.holds site.line) = false := by
        simpa [CallSite.counts, hkind] using hcounts
      rw [owner?_eq_none hnone, ite_self]
    · rw [if_neg fun h => hkind h.1]

/-! ## The search -/

/-- The search is possible if all subroutines and references are among the lines. -/
theorem asyncLabels?_eq_some (hsubs : ∀ s ∈ subs, s.fits waits.length = true)
    (hsites : ∀ s ∈ sites, 0 ≤ s.line ∧ s.line < waits.length) :
    asyncLabels? subs waits sites = some (asyncLabels subs waits sites) := by
  unfold asyncLabels?
  have hall : (sites.all fun s => s.fits waits.length) = true := by
    refine List.all_eq_true.2 fun s hs => ?_
    simp [CallSite.fits, hsites s hs]
  rw [List.all_eq_true.2 hsubs, hall, Bool.and_self, if_pos rfl]

/-- **The search gives the least set.** For subroutines with lines of their own and references anywhere in the program,
it gives the smallest set of their labels that has the owner of every line that waits and the owner of every call of a
member. References that are no calls, and those in no subroutine, make no difference. -/
theorem asyncLabels?_isLeast (hseparate : Separate subs) (hsubs : ∀ s ∈ subs, s.fits waits.length = true)
    (hsites : ∀ s ∈ sites, 0 ≤ s.line ∧ s.line < waits.length) :
    ∃ found, asyncLabels? subs waits sites = some found ∧ found.Nodup ∧
      IsLeast {labels : Set String | Saturated subs waits sites labels} {label | label ∈ found} ∧
      asyncLabels? subs waits (sites.filter (CallSite.counts subs)) = some found := by
  have hline : ∀ site ∈ sites, 0 ≤ site.line := fun site hsite => (hsites site hsite).1
  have hmem := fun label => mem_asyncLabels_iff hseparate waits hline label
  refine ⟨asyncLabels subs waits sites, asyncLabels?_eq_some hsubs hsites, nodup_reach _ (nodup_eraseDups _),
    ⟨?_, ?_⟩, ?_⟩
  · have hset : {label | label ∈ asyncLabels subs waits sites} = {label | Waits subs (fun k => waits[k]? = some true)
        (fun k callee => ∃ s ∈ sites, s.line = k ∧ s.kind ≠ .reference ∧ callee ∈ s.labels) label} :=
      Set.ext hmem
    rw [hset]
    exact waits_saturated hline
  · intro labels hlabels label hlabel
    exact hlabels.mem_of_waits ((hmem label).1 hlabel)
  · have hsites' : ∀ s ∈ sites.filter (CallSite.counts subs), 0 ≤ s.line ∧ s.line < waits.length :=
      fun s hs => hsites s (List.mem_filter.1 hs).1
    rw [asyncLabels?_eq_some hsubs hsites']
    unfold asyncLabels
    rw [callers_filter_counts]

/-- Two subroutines that call each other, given out of order, and one that only calls itself and names another. The call of
a label without a subroutine and the call outside of all subroutines make no difference. -/
theorem asyncLabels?_isLeast_cycle :
    let subs : List Subroutine := [⟨"20", 2, 3⟩, ⟨"10", 0, 1⟩, ⟨"30", 4, 4⟩]
    let waits := [false, false, false, true, false, true]
    let sites : List CallSite := [⟨.direct, ["20"], "", 0, 1⟩, ⟨.direct, ["20"], "", 1, 2⟩,
      ⟨.indexed, ["10", "99"], "n", 2, 3⟩, ⟨.direct, ["30"], "", 4, 5⟩, ⟨.reference, ["20"], "", 4, 5⟩,
      ⟨.direct, ["10"], "", 5, 6⟩]
    Separate subs ∧ (∀ s ∈ subs, s.fits waits.length = true) ∧ (∀ s ∈ sites, 0 ≤ s.line ∧ s.line < waits.length) ∧
    IsLeast {labels : Set String | Saturated subs waits sites labels} {label | label ∈ ["20", "10"]} := by
  intro subs waits sites
  have hapart : Separate subs := by
    refine ⟨?_, by decide⟩
    simp only [subs, List.pairwise_cons, List.forall_mem_cons, Subroutine.Disjoint, Subroutine.holds_iff]
    refine ⟨⟨?_, ?_, by simp⟩, ⟨?_, by simp⟩, by simp, List.Pairwise.nil⟩ <;> intro line h <;> omega
  have hfits : ∀ s ∈ subs, s.fits waits.length = true := by decide
  have hsites : ∀ s ∈ sites, 0 ≤ s.line ∧ s.line < waits.length := by decide
  obtain ⟨found, hfound, -, hleast, -⟩ := asyncLabels?_isLeast hapart hfits hsites
  have hcomputed : asyncLabels? subs waits sites = some ["20", "10"] := by decide +kernel
  obtain rfl : ["20", "10"] = found := Option.some.inj (hcomputed.symm.trans hfound)
  exact ⟨hapart, hfits, hsites, hleast⟩

end Locomotive
