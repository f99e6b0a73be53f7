import Locomotive.Proofs.Layout.Part

/-!
# Warnings about references

Resolving the references of a program adds a warning for each label that no function has, in the
order of the references, and changes nothing else that is recorded of the program.

* `complaintsOf`: the warnings about the references of lines.
* `Stages.complains`: the tables of the compilation.
-/

namespace Locomotive

namespace Emit

/-- Each reference has its turn. -/
theorem flatMap_complaintsAt (f : Functions) (sites : List CallSite) :
    (List.range sites.length).flatMap (complaintsAt f sites) =
      sites.flatMap fun s => f.complaints s.lineNumber s.labels := by
  have hmap : sites.map (fun s => f.complaints s.lineNumber s.labels) =
      (List.range sites.length).map (complaintsAt f sites) := by
    apply List.ext_getElem (by simp)
    intro i hi _
    rw [List.length_map] at hi
    simp [complaintsAt, List.getElem?_eq_getElem hi]
  rw [List.flatMap_def, List.flatMap_def, hmap]

end Emit

/-! ## The tables of a compilation -/

/-- The warnings about the references of lines, in order. -/
def complaintsOf (f : Functions) (ls : List Line) : List Warning :=
  ls.flatMap fun l => (Stmt.referencesOf l.stmts).flatMap fun r => f.complaints l.number r.labels

namespace Stages

variable {p : Program} {text : String}

/-- The lines are compiled as the stages have it. -/
theorem ends_lines (o : Stages p text) : Emit.Ends (Emit.lines 0 p.lines) p.start
    (fun codes t => codes = o.codes ∧ t.finish = o.tables) fun _ => False := by
  obtain ⟨t, hrun, htables⟩ := o.lines_eq
  unfold Emit.Ends
  rw [hrun]
  exact ⟨rfl, htables.symm⟩

/-- **The tables of the compilation** are those of the stages, with a warning for each label of a
reference that no function has. -/
theorem complains (o : Stages p text) (hp : p.Proper)
    (hresult : p.generate.1 = .ok text) :
    Complains (complaintsOf (o.tables.functions o.async) p.lines) o.tables p.generate.2 := by
  have hresolve := (Emit.resolve_ends (f := o.tables.functions o.async) (o.finished hp).hasShape (o.hasMarks hp)
    fun i hi => List.mem_range.1 hi).mono (fun _ _ h => h.2) fun _ => id
  rw [Emit.flatMap_complaintsAt] at hresolve
  -- the references in the tables are those of the lines
  have hsites : o.tables.callSites.flatMap (fun s => (o.tables.functions o.async).complaints s.lineNumber s.labels) =
      complaintsOf (o.tables.functions o.async) p.lines := by
    have hrecord := (o.history hp).record.sites
    have hleft : o.tables.callSites.flatMap
        (fun s => (o.tables.functions o.async).complaints s.lineNumber s.labels) =
        (o.tables.callSites.map fun s => (s.shape, s.lineNumber)).flatMap
          fun x => (o.tables.functions o.async).complaints x.2 x.1.2 := by
      rw [List.flatMap_map]
      rfl
    unfold complaintsOf
    rw [hleft, hrecord, sitesOf, List.flatMap_assoc]
    simp only [List.flatMap_map]
    rfl
  rw [hsites] at hresolve
  have hends : Emit.Ends (Emit.program p) {}
      (fun _ t => Complains (complaintsOf (o.tables.functions o.async) p.lines) o.tables t) fun _ => True := by
    rw [Emit.program, Emit.ends_bind, Emit.ends_update]
    refine (o.ends_lines.mono (fun _ _ => id) fun _ _ => trivial).bind ?_
    rintro _ t ⟨rfl, htables⟩
    rw [Emit.ends_bind, Emit.ends_update, Emit.ends_bind, Emit.ends_get]
    dsimp only
    split
    · trivial
    · rw [Emit.ends_bind, Emit.ends_update]
      have hfinish : ({ t with lineNumber := 0 } : Tables).resolveRestores = o.tables := htables
      rw [hfinish, Emit.assemble, Emit.ends_bind, Emit.ends_get, o.async_eq]
      dsimp only
      rw [o.marked_eq]
      exact hresolve.mono (fun _ _ => id) fun _ _ => trivial
  have hrun : (Emit.program p).apply {} = (.ok text, p.generate.2) := by
    rw [← hresult]
    rfl
  exact hends.of_ok hrun

end Stages

end Locomotive
