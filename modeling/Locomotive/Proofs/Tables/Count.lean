import Locomotive.Tables
import Mathlib.Data.List.Nodup

/-!
# How often variables are used

The tables hold, for each variable, how often it is used in each subroutine. Every use is counted
once, under the label of the subroutine that is open at that moment.

* `Tables.uses`: how often a variable is used in a subroutine.
* `Tables.uses_mention`: what a use changes.
* `Tables.Counted`: what holds of the counts at all times.
-/

namespace Locomotive

/-! ## Tallies -/

namespace Tally

theorem lookup_cons_of_ne {n m : String} (h : n ≠ m) (k : Nat) (es : List (String × Nat)) :
    ((m, k) :: es).lookup n = es.lookup n := by
  rw [List.lookup_cons, beq_eq_false_iff_ne.2 h]

/-- One more occurrence counts for its own name only. -/
theorem count_add (t : Tally) (name n : String) : (t.add name).count n = t.count n + if n = name then 1 else 0 := by
  have hgo : ∀ es : List (String × Nat),
      ((add.go name es).lookup n).getD 0 = (es.lookup n).getD 0 + if n = name then 1 else 0 := by
    intro es
    induction es with
    | nil =>
      unfold add.go
      by_cases h : n = name
      · subst h; simp
      · rw [lookup_cons_of_ne h, if_neg h]; rfl
    | cons e es ih =>
      obtain ⟨m, k⟩ := e
      unfold add.go
      by_cases hm : m = name
      · subst hm
        rw [if_pos rfl]
        by_cases h : n = m
        · subst h; simp
        · rw [lookup_cons_of_ne h, lookup_cons_of_ne h, if_neg h, Nat.add_zero]
      · rw [if_neg hm]
        by_cases h : n = m
        · subst h; simp [hm]
        · rw [lookup_cons_of_ne h, lookup_cons_of_ne h, ih]
  exact hgo t.entries

theorem names_add (t : Tally) (name : String) :
    (t.add name).names = if name ∈ t.names then t.names else t.names ++ [name] := by
  have hgo : ∀ es : List (String × Nat), (add.go name es).map Prod.fst =
      if name ∈ es.map Prod.fst then es.map Prod.fst else es.map Prod.fst ++ [name] := by
    intro es
    induction es with
    | nil => rfl
    | cons e es ih =>
      obtain ⟨m, k⟩ := e
      unfold add.go
      by_cases hm : m = name
      · simp [hm]
      · have hmem : name ∈ m :: es.map Prod.fst ↔ name ∈ es.map Prod.fst := by simp [Ne.symm hm]
        rw [if_neg hm, List.map_cons, List.map_cons, ih]
        by_cases h : name ∈ es.map Prod.fst
        · rw [if_pos h, if_pos (hmem.2 h)]
        · rw [if_neg h, if_neg (mt hmem.1 h), List.cons_append]
  exact hgo t.entries

/-- Each name stands in the tally once, and only if it occurs. -/
structure Valid (t : Tally) : Prop where
  nodup : t.names.Nodup
  pos : ∀ e ∈ t.entries, 0 < e.2

theorem valid_nil : Valid {} := ⟨.nil, by simp⟩

theorem Valid.add {t : Tally} (h : t.Valid) (name : String) : (t.add name).Valid := by
  have hgo : ∀ es : List (String × Nat), (∀ e ∈ es, 0 < e.2) → ∀ e ∈ add.go name es, 0 < e.2 := by
    intro es hes
    induction es with
    | nil => simp [add.go]
    | cons e es ih =>
      obtain ⟨hpos, hrest⟩ := List.forall_mem_cons.1 hes
      unfold add.go
      split
      · exact List.forall_mem_cons.2 ⟨Nat.succ_pos _, hrest⟩
      · exact List.forall_mem_cons.2 ⟨hpos, ih hrest⟩
  refine ⟨?_, hgo t.entries h.pos⟩
  rw [names_add]
  split
  · exact h.nodup
  · rename_i hnew
    refine List.nodup_append.2 ⟨h.nodup, by simp, fun a ha b hb => ?_⟩
    obtain rfl := List.mem_singleton.1 hb
    rintro rfl
    exact hnew ha

/-- The names of a tally are those that occur. -/
theorem Valid.mem_names {t : Tally} (h : t.Valid) (name : String) : name ∈ t.names ↔ t.count name ≠ 0 := by
  have hgo : ∀ es : List (String × Nat), (∀ e ∈ es, 0 < e.2) →
      (name ∈ es.map Prod.fst ↔ (es.lookup name).getD 0 ≠ 0) := by
    intro es hes
    induction es with
    | nil => simp
    | cons e es ih =>
      obtain ⟨m, k⟩ := e
      obtain ⟨hpos, hrest⟩ := List.forall_mem_cons.1 hes
      by_cases hn : name = m
      · subst hn
        have hne : k ≠ 0 := Nat.pos_iff_ne_zero.1 hpos
        simp [hne]
      · rw [lookup_cons_of_ne hn, ← ih hrest, List.map_cons, List.mem_cons, or_iff_right hn]
  exact hgo t.entries h.pos

end Tally

/-! ## Variables -/

namespace Tables

/-- How often the variable is used in the subroutine with the given label. -/
def uses (t : Tables) (name label : String) : Nat :=
  ((t.vars.find? fun v => v.name == name).map fun v => v.scopes.count label).getD 0

/-- A change of one entry, as it is seen by `f`. -/
theorem map_modify {α β : Type} (f : α → β) (g : α → α) (g' : β → β) (hg : ∀ l, f (g l) = g' (f l))
    (ls : List α) (i : Nat) : (ls.modify i g).map f = (ls.map f).modify i g' := by
  apply List.ext_getElem?
  intro k
  rw [List.getElem?_map, List.getElem?_modify, List.getElem?_modify, List.getElem?_map]
  cases ls[k]? with
  | none => rfl
  | some l => by_cases hk : i = k <;> simp [hk, hg]

/-- What holds of the counts at all times: each variable has one entry, with the labels of the
subroutines that use it, and there is at least one. -/
structure Counted (t : Tables) : Prop where
  nodup : (t.vars.map Variable.name).Nodup
  valid : ∀ v ∈ t.vars, v.scopes.Valid
  used : ∀ v ∈ t.vars, v.scopes.names ≠ []

theorem Counted.congr {t t' : Tables} (h : t.Counted) (hvars : t'.vars = t.vars) : t'.Counted :=
  ⟨hvars ▸ h.nodup, hvars ▸ h.valid, hvars ▸ h.used⟩

/-- The variables after a use. -/
theorem vars_mention (t : Tables) (name : String) (storage : Storage) : (t.mention name storage).vars =
    if name ∈ t.vars.map Variable.name then
      t.vars.map fun v => if v.name = name then v.mention storage t.scope else v
    else t.vars ++ [⟨name, storage, 1, Tally.add {} t.scope⟩] := by
  have hany : (t.vars.any fun v => v.name == name) = true ↔ name ∈ t.vars.map Variable.name := by
    simp
  unfold mention
  dsimp only
  by_cases h : name ∈ t.vars.map Variable.name
  · rw [if_pos h, if_pos (hany.2 h)]
  · rw [if_neg h, if_neg (mt hany.1 h)]

/-- **A use is counted once**, under the label of the open subroutine. -/
theorem uses_mention (t : Tables) (name : String) (storage : Storage) (n label : String) :
    (t.mention name storage).uses n label = t.uses n label + if n = name ∧ label = t.scope then 1 else 0 := by
  unfold uses
  rw [vars_mention]
  by_cases hmem : name ∈ t.vars.map Variable.name
  · -- the entry of the variable is found at the same place as before
    rw [if_pos hmem, List.find?_map]
    have hname : ((fun v : Variable => v.name == n) ∘ fun v => if v.name = name then v.mention storage t.scope else v) =
        fun v => v.name == n := by
      funext v
      simp only [Function.comp_apply]
      split <;> rfl
    rw [hname]
    cases hfind : t.vars.find? fun v => v.name == n with
    | none =>
      have hother : n ≠ name := by
        rintro rfl
        obtain ⟨v, hv, rfl⟩ := List.mem_map.1 hmem
        have := List.find?_eq_none.1 hfind v hv
        simp at this
      simp [hother]
    | some v =>
      have hv : v.name = n := by simpa using List.find?_some hfind
      by_cases hn : n = name
      · have hmention : v.name = name := hv.trans hn
        simp [hmention, hn, Variable.mention, Tally.count_add]
      · have hmention : v.name ≠ name := fun h => hn (hv.symm.trans h)
        simp [hmention, hn]
  · rw [if_neg hmem, List.find?_append]
    cases hfind : t.vars.find? fun v => v.name == n with
    | some v =>
      have hother : n ≠ name := by
        rintro rfl
        have hv : v.name = n := by simpa using List.find?_some hfind
        exact hmem (List.mem_map.2 ⟨v, List.mem_of_find?_eq_some hfind, hv⟩)
      simp [hother]
    | none =>
      by_cases hn : n = name
      · have hempty : ({} : Tally).count label = 0 := rfl
        simp [hn, Tally.count_add, hempty]
      · simp [hn, Ne.symm hn]

theorem Counted.mention {t : Tables} (h : t.Counted) (name : String) (storage : Storage) :
    (t.mention name storage).Counted := by
  have hnames : ∀ scopes : Tally, (scopes.add t.scope).names ≠ [] := by
    intro scopes
    rw [Tally.names_add]
    split
    · rename_i hmem
      exact List.ne_nil_of_mem hmem
    · simp
  by_cases hmem : name ∈ t.vars.map Variable.name
  · have hvars := (vars_mention t name storage).trans (if_pos hmem)
    have hsame : (t.vars.map fun v => if v.name = name then v.mention storage t.scope else v).map Variable.name =
        t.vars.map Variable.name := by
      rw [List.map_map]
      refine List.map_congr_left fun v _ => ?_
      simp only [Function.comp_apply]
      split <;> rfl
    refine ⟨?_, ?_, ?_⟩ <;> rw [hvars]
    · rw [hsame]
      exact h.nodup
    · intro v hv
      obtain ⟨w, hw, rfl⟩ := List.mem_map.1 hv
      split
      · exact (h.valid w hw).add _
      · exact h.valid w hw
    · intro v hv
      obtain ⟨w, hw, rfl⟩ := List.mem_map.1 hv
      split
      · exact hnames w.scopes
      · exact h.used w hw
  · have hvars := (vars_mention t name storage).trans (if_neg hmem)
    refine ⟨?_, ?_, ?_⟩ <;> rw [hvars]
    · rw [List.map_append]
      refine List.nodup_append.2 ⟨h.nodup, by simp, fun a ha b hb => ?_⟩
      obtain rfl := List.mem_singleton.1 hb
      rintro rfl
      exact hmem ha
    · exact List.forall_mem_append.2 ⟨h.valid, by simpa using Tally.valid_nil.add t.scope⟩
    · exact List.forall_mem_append.2 ⟨h.used, by simpa using hnames {}⟩

end Tables

end Locomotive
