import Locomotive.Proofs.Tables.Count
import Mathlib.Data.List.Sort
import Mathlib.Data.String.Basic

/-!
# Names in order

The helpers and the targets of `RESTORE`s are gathered in tallies and written in order, each of them
once.

* `Text.pairwise_sorted`: names without repetitions come in strict order.
* `Tally.mem_names_foldl`: the names that were added.
* `nodup_eraseDups`: repetitions are erased.
-/

namespace Locomotive

namespace Text

theorem insertSorted_eq (s : String) (ss : List String) : insertSorted s ss = ss.orderedInsert (· ≤ ·) s := by
  induction ss with
  | nil => rfl
  | cons t ts ih =>
    rw [insertSorted, List.orderedInsert_cons, ih]
    by_cases h : t < s
    · rw [if_pos h, if_neg (not_le.2 h)]
    · rw [if_neg h, if_pos (not_lt.1 h)]

theorem sorted_eq (ss : List String) : sorted ss = ss.insertionSort (· ≤ ·) := by
  induction ss with
  | nil => rfl
  | cons s ss ih =>
    have hcons : sorted (s :: ss) = insertSorted s (sorted ss) := rfl
    rw [hcons, insertSorted_eq, ih, List.insertionSort_cons]

theorem perm_sorted (ss : List String) : (sorted ss).Perm ss := by
  rw [sorted_eq]
  exact List.perm_insertionSort ..

@[simp] theorem mem_sorted {s : String} {ss : List String} : s ∈ sorted ss ↔ s ∈ ss := (perm_sorted ss).mem_iff

theorem nodup_sorted {ss : List String} (h : ss.Nodup) : (sorted ss).Nodup := (perm_sorted ss).nodup_iff.2 h

/-- **Texts without repetitions** come in strict order. -/
theorem pairwise_sorted {ss : List String} (h : ss.Nodup) : (sorted ss).Pairwise (· < ·) := by
  have hle : (sorted ss).Pairwise (· ≤ ·) := by
    rw [sorted_eq]
    exact List.pairwise_insertionSort ..
  exact hle.imp₂ (fun a b hab hne => lt_of_le_of_ne hab hne) (nodup_sorted h)

end Text

namespace Tally

theorem mem_names_add (t : Tally) (name n : String) : n ∈ (t.add name).names ↔ n ∈ t.names ∨ n = name := by
  rw [names_add]
  split
  · rename_i hmem
    refine ⟨.inl, ?_⟩
    rintro (h | rfl)
    · exact h
    · exact hmem
  · rw [List.mem_append, List.mem_singleton]

/-- **The names of a tally** are those that were added. -/
theorem mem_names_foldl (names : List String) (t : Tally) (n : String) :
    n ∈ (names.foldl add t).names ↔ n ∈ t.names ∨ n ∈ names := by
  induction names generalizing t with
  | nil => simp
  | cons name names ih => rw [List.foldl_cons, ih, mem_names_add, List.mem_cons, or_assoc]

theorem valid_foldl (names : List String) {t : Tally} (h : t.Valid) : (names.foldl add t).Valid := by
  induction names generalizing t with
  | nil => exact h
  | cons name names ih => exact ih (h.add name)

/-- A name of a tally occurs in it. -/
theorem Valid.has_iff {t : Tally} (h : t.Valid) (name : String) : t.has name = true ↔ name ∈ t.names := by
  rw [h.mem_names, has, bne_iff_ne]

end Tally

theorem nodup_eraseDups (names : List String) : names.eraseDups.Nodup := by
  induction hlen : names.length using Nat.strong_induction_on generalizing names with
  | h n ih =>
    cases names with
    | nil => exact .nil
    | cons name names =>
      rw [List.eraseDups_cons]
      have hshort : (names.filter fun b => !b == name).length < n := by
        have := List.length_filter_le (fun b => !b == name) names
        rw [← hlen, List.length_cons]
        omega
      refine List.nodup_cons.2 ⟨fun hmem => ?_, ih _ hshort _ rfl⟩
      simp at hmem

end Locomotive
