import Locomotive.Proofs.Compiler
import Locomotive.Proofs.Emit.Ledger

/-!
# Awaiting the functions of a program

Code is generated in one pass over the source, so a call can only be awaited if it is known by then that
its function has to wait. In the order of the code a call is awaited exactly if an asynchronous
definition of its function stands before it, and an arrow is asynchronous exactly if its body holds
such a call or one of a helper that waits. A call that stands before the definition is not awaited.

* `Stages.events`: the calls and definitions of a program, in order.
* `Stages.AwaitsKnown`: which of them are awaited and asynchronous.
* `compile_awaits_known`: the calls of every generated program.
* `call_before_definition`: a function that calls one that is defined later.
-/

namespace Locomotive

variable {p : Program} {text : String}

namespace Stages

/-- **The calls and definitions of the program**, in the order of its lines. -/
def events (o : Stages p text) : List Js.Event := o.codes.flatMap fun c => Js.Stmt.eventsOf c.code

/-- **Which calls are awaited, and which arrows are asynchronous.** -/
structure AwaitsKnown (o : Stages p text) : Prop where
  /-- The functions of the source are defined as arrows, one after the other. -/
  defined : o.events.filterMap Js.Event.defined? =
    (p.lines.flatMap fun l => Stmt.functionsOf l.stmts).map Js.identifier
  /-- A call is awaited exactly if it is one of a helper that waits, or if an asynchronous definition of its
  function stands before it. -/
  calls : ∀ {before f awaited after}, o.events = before ++ .call f awaited :: after →
    (awaited = true ↔ f ∈ Js.asyncHelpers ∨ ∃ body, .define f true body ∈ before)
  /-- An arrow is asynchronous exactly if its body calls a helper that waits, or a function with an
  asynchronous definition before it. -/
  arrows : ∀ {before f async body after}, o.events = before ++ .define f async body :: after →
    (async = true ↔ ∃ g ∈ body.calls, g ∈ Js.asyncHelpers ∨ ∃ body', .define g true body' ∈ before)

theorem sequenced (o : Stages p text) (hp : p.Proper) :
    ∃ known, Emit.Sequenced [] known (p.lines.flatMap fun l => Stmt.functionsOf l.stmts) o.events := by
  obtain ⟨t, hbooked, -⟩ := o.booked hp
  obtain ⟨gosubs, restores, hstart⟩ := p.start_eq
  have hlines := hbooked.sequenced
  rw [hstart] at hlines
  exact ⟨t.asyncFns, hlines⟩

/-- No helper is defined in the code. -/
theorem not_isHelper_of_defined (o : Stages p text) (hp : p.Proper)
    {before after : List Js.Event} (hsplit : o.events = before ++ after) :
    ∀ f ∈ before.filterMap Js.Event.defined?, Js.isHelper f = false := by
  obtain ⟨known, hseq⟩ := o.sequenced hp
  intro f hf
  have hmem : f ∈ o.events.filterMap Js.Event.defined? := by
    rw [hsplit, List.filterMap_append]
    exact List.mem_append_left _ hf
  rw [hseq.defined] at hmem
  obtain ⟨name, -, rfl⟩ := List.mem_map.1 hmem
  have htaken := Js.isTaken_identifier name
  unfold Js.isTaken at htaken
  exact (Bool.or_eq_false_iff.1 htaken).2

theorem awaitsKnown (o : Stages p text) (hp : p.Proper) : o.AwaitsKnown := by
  obtain ⟨known, hseq⟩ := o.sequenced hp
  have hfits : ∀ {before after : List Js.Event} {e : Js.Event}, o.events = before ++ e :: after →
      e.Fits (before.filterMap Js.Event.async?) := by
    intro before after e hsplit
    have hinOrder := hseq.inOrder
    rw [hsplit] at hinOrder
    exact hinOrder.fits
  refine ⟨hseq.defined, ?_, ?_⟩
  · intro before f awaited after hsplit
    rw [show awaited = _ from hfits hsplit]
    exact Js.isAsync_iff (o.not_isHelper_of_defined hp hsplit) f
  · intro before f async body after hsplit
    rw [show async = _ from hfits hsplit, List.any_eq_true]
    refine exists_congr fun g => and_congr_right fun _ => ?_
    exact Js.isAsync_iff (o.not_isHelper_of_defined hp hsplit) g

end Stages

/-- **A call is awaited exactly if its function is known to wait**, in every program that is generated. -/
theorem compile_awaits_known (strict : Bool) (source : List Char) :
    match (compile strict source).result with
    | .error _ => True
    | .ok text => ∃ (p : Program) (o : Stages p text),
      Program.parse strict (Token.scan source).tokens source = .ok p ∧ o.AwaitsKnown := by
  rcases hresult : (compile strict source).result with why | text
  · trivial
  obtain ⟨p, ⟨o⟩, h⟩ := compile_accepted hresult
  exact ⟨p, o, h.parsed, o.awaitsKnown h.proper⟩

/-- **A function that calls one that is defined later** does not await it, and is not asynchronous itself,
although the other one is. -/
theorem call_before_definition :
    (compile false "10 DEF FNj$(x)=FNk$(x)\n20 DEF FNk$(x)=INKEY$".toList).result.toOption.any
      (fun text => Text.startsWith text ("const fnj$ = (x) => fnk$(x);\n" ++
        "const fnk$ = async (x) => await inkey$();\n")) = true := by
  decide +kernel

end Locomotive
