import Locomotive.Emit

/-!
# What becomes of an action

`Emit.Ends m t Q E` says that the action `m`, started with the tables `t`, either gives a
value and tables that meet `Q`, or fails for a reason that meets `E`. One lemma for each
basic action says when it ends so, and `ends_bind` takes a sequence of actions apart.
-/

namespace Locomotive.Emit

variable {α β : Type} {t : Tables} {Q Q' : α → Tables → Prop} {E E' : Failure → Prop}

/-- The action, started with the tables `t`, succeeds with `Q` or fails with `E`. -/
def Ends (m : Emit α) (t : Tables) (Q : α → Tables → Prop) (E : Failure → Prop) : Prop :=
  match m.apply t with
  | (.ok a, t') => Q a t'
  | (.error f, _) => E f

theorem Ends.mono {m : Emit α} (h : Ends m t Q E) (hQ : ∀ a t', Q a t' → Q' a t')
    (hE : ∀ f, E f → E' f) : Ends m t Q' E' := by
  unfold Ends at h ⊢
  split at h
  · exact hQ _ _ h
  · exact hE _ h

theorem Ends.and {m : Emit α} (h : Ends m t Q E) (h' : Ends m t Q' E') :
    Ends m t (fun a t' => Q a t' ∧ Q' a t') (fun f => E f ∧ E' f) := by
  unfold Ends at h h' ⊢
  split <;> simp_all

/-- What holds of a success, if the action succeeds. -/
theorem Ends.of_ok {m : Emit α} {a : α} {t' : Tables} (h : Ends m t Q E) (hm : m.apply t = (.ok a, t')) :
    Q a t' := by
  unfold Ends at h; rw [hm] at h; exact h

/-- What an action gives is what it gives. -/
theorem ends_self (m : Emit α) (t : Tables) :
    Ends m t (fun a t' => m.apply t = (.ok a, t')) fun _ => True := by
  unfold Ends
  split
  · assumption
  · trivial

/-- An action that cannot fail gives something with the property. -/
theorem Ends.exists_ok {m : Emit α}
    (h : Ends m t Q fun _ => False) : ∃ a t', m.apply t = (.ok a, t') ∧ Q a t' := by
  unfold Ends at h
  split at h
  · exact ⟨_, _, ‹_›, h⟩
  · exact h.elim

theorem apply_bind (m : Emit α) (f : α → Emit β) (t : Tables) :
    (m >>= f).apply t =
      match m.apply t with
      | (.ok a, t') => (f a).apply t'
      | (.error e, t') => (.error e, t') := by
  simp only [apply, ExceptT.run, bind, ExceptT.bind, ExceptT.mk, StateT.bind, ExceptT.bindCont]
  rcases m t with ⟨_ | _, _⟩ <;> rfl

@[simp] theorem ends_pure (a : α) : Ends (pure a) t Q E ↔ Q a t := Iff.rfl

@[simp] theorem ends_bind (m : Emit α) (f : α → Emit β) {Q : β → Tables → Prop} :
    Ends (m >>= f) t Q E ↔ Ends m t (fun a t' => Ends (f a) t' Q E) E := by
  unfold Ends
  rw [apply_bind]
  rcases m.apply t with ⟨_ | _, _⟩ <;> rfl

/-- An action and what follows it, whatever it gives. -/
theorem Ends.bind {m : Emit α} {f : α → Emit β} {Q' : β → Tables → Prop} (h : Ends m t Q E)
    (hf : ∀ a t', Q a t' → Ends (f a) t' Q' E) : Ends (m >>= f) t Q' E :=
  (ends_bind m f).2 (h.mono hf fun _ => id)

/-- An action that cannot fail, and what follows it. -/
theorem Ends.andThen {m : Emit α} {f : α → Emit β} {Q' : β → Tables → Prop} (h : Ends m t Q fun _ => False)
    (hf : ∀ a t', Q a t' → Ends (f a) t' Q' E) : Ends (m >>= f) t Q' E :=
  (h.mono (fun _ _ => id) nofun).bind hf

@[simp] theorem ends_get {Q : Tables → Tables → Prop} : Ends get t Q E ↔ Q t t := Iff.rfl

@[simp] theorem ends_set {Q : PUnit → Tables → Prop} (s : Tables) : Ends (set s) t Q E ↔ Q ⟨⟩ s := Iff.rfl

@[simp] theorem ends_update {Q : Unit → Tables → Prop} (f : Tables → Tables) :
    Ends (update f) t Q E ↔ Q () (f t) := Iff.rfl

@[simp] theorem ends_broken (fault : Fault) : Ends (broken fault : Emit α) t Q E ↔ E (.broken fault) :=
  Iff.rfl

/-- Opening and closing loops fails only below depth zero. -/
theorem ends_indentBy {Q : Int → Tables → Prop} (delta : Int) : Ends (indentBy delta) t Q E ↔
    if t.indent + delta < 0 then E (.broken (.nesting t.lineNumber (t.indent + delta)))
    else Q (t.indent + delta) { t with indent := t.indent + delta } := by
  unfold indentBy
  by_cases h : t.indent + delta < 0 <;> simp [Tables.indentBy, h]

theorem ends_define {Q : Unit → Tables → Prop} (label : String) (line : Int) :
    Ends (define label line) t Q E ↔
      match t.define label line with
      | .ok t' => Q () t'
      | .error fault => E (.broken fault) := by
  unfold define
  simp only [ends_bind, ends_get]
  cases t.define label line <;> rfl

theorem ends_atLine (line : Int) (m : Emit α) :
    Ends (atLine line m) t Q E ↔ Ends m t Q fun f => E (f.atLine line) := by
  have h : (atLine line m).apply t =
      match m.apply t with
      | (.ok a, t') => (.ok a, t')
      | (.error f, t') => (.error (f.atLine line), t') := by
    simp only [atLine, apply, ExceptT.run, tryCatch, tryCatchThe, MonadExceptOf.tryCatch,
      ExceptT.tryCatch, ExceptT.mk, bind, StateT.bind]
    rcases m t with ⟨_ | _, _⟩ <;> rfl
  unfold Ends
  rw [h]
  rcases m.apply t with ⟨_ | _, _⟩ <;> rfl

end Locomotive.Emit
