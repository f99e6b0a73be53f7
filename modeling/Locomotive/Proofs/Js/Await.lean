import Locomotive.Proofs.Js.Call

/-!
# Calls and definitions in order

Code read from front to back calls functions, with an `await` or without one, and defines functions
as arrows. Which helpers are asynchronous is fixed; any other function is known to be so once an
asynchronous arrow has defined it.

* `Stmt.eventsOf`: the calls and definitions of code, in order.
* `isAsync`: the functions that are known to be asynchronous.
* `InOrder`: calls are awaited exactly if their function is known to be asynchronous by then.
-/

namespace Locomotive.Js

/-- What code does with functions. -/
inductive Event where
  /-- A function is called by its name, with an `await` before the call or without one. -/
  | call (f : String) (awaited : Bool)
  /-- A function is defined as an arrow, asynchronous or not. -/
  | define (f : String) (async : Bool) (body : Expr)

namespace Expr

mutual

/-- The calls of an expression by name; `awaited` tells whether an `await` stands before it. -/
def events (awaited : Bool) : Expr → List Event
  | atom _ => []
  | site _ => []
  | selected _ selector => selector.events false
  | element _ is => eventsOf is
  | call f args => .call f awaited :: eventsOf args
  | method r _ args => r.events false ++ eventsOf args
  | property r _ => r.events false
  | unary op x => x.events (decide (op = .await))
  | binary _ l r => l.events false ++ r.events false
  | compare _ l r => l.events false ++ r.events false
  | truth _ l r => l.events false ++ r.events false
  | paren x => x.events awaited
  | array xs => eventsOf xs
  | directive _ args => eventsOf args

/-- The calls of the members of a list. -/
def eventsOf : List Expr → List Event
  | [] => []
  | e :: es => e.events false ++ eventsOf es

end

theorem eventsOf_append (es fs : List Expr) : eventsOf (es ++ fs) = eventsOf es ++ eventsOf fs := by
  induction es with
  | nil => rfl
  | cons e es ih => rw [List.cons_append, eventsOf, eventsOf, ih, List.append_assoc]

@[simp] theorem events_atLeast (e : Expr) (rank : Nat) (awaited : Bool) :
    (e.atLeast rank).events awaited = e.events awaited := by
  unfold atLeast
  split
  · rw [events]
  · rfl

end Expr

/-- The calls of the step of a loop. -/
def Step.events : Step → List Event
  | one => []
  | up amount => amount.events false
  | down amount => amount.events false
  | signed amount => amount.events false

namespace Stmt

mutual

/-- The calls and definitions of a statement. The calls in the body of an arrow come before its
definition. -/
def events : Stmt → List Event
  | expr e => e.events false
  | assign target value => target.events false ++ value.events false
  | retCall e => e.events false
  | forLoop _ start stop step => start.events false ++ stop.events false ++ step.events
  | whileLoop cond => cond.events false
  | branch cond yes no => cond.events false ++ (eventsOf yes ++ eventsOfElse no)
  | arrow f async _ body => body.events false ++ [.define f async body]
  | ret | close | note _ | comment _ => []

/-- **The calls and definitions of a list of statements**, in order. -/
def eventsOf : List Stmt → List Event
  | [] => []
  | s :: ss => s.events ++ eventsOf ss

/-- The same for the statements of an `else`. -/
def eventsOfElse : Option (List Stmt) → List Event
  | none => []
  | some ss => eventsOf ss

end

theorem eventsOf_append (ss ss' : List Stmt) : eventsOf (ss ++ ss') = eventsOf ss ++ eventsOf ss' := by
  induction ss with
  | nil => rfl
  | cons s ss ih => rw [List.cons_append, eventsOf, eventsOf, ih, List.append_assoc]

end Stmt

/-! ## Asynchronous functions -/

/-- The helpers that wait for something outside the program. -/
def asyncHelpers : List String := ["after", "every", "frame", "inkey$", "input", "rsx"]

/-- **The function is asynchronous**: a helper if it waits, and any other function if it is one of the
`known`. -/
def isAsync (known : List String) (f : String) : Bool :=
  if isHelper f then asyncHelpers.contains f else known.contains f

namespace Event

/-- The function that is defined. -/
def defined? : Event → Option String
  | call _ _ => none
  | define f _ _ => some f

/-- The function that is defined, if it is asynchronous. -/
def async? : Event → Option String
  | define f true _ => some f
  | _ => none

/-- A call of the function, awaited if the function is asynchronous. -/
def of (known : List String) (f : String) : Event := .call f (isAsync known f)

/-- **The event agrees with what is known**: a call is awaited exactly if its function is asynchronous,
and an arrow is asynchronous exactly if its body calls such a function. -/
def Fits (known : List String) : Event → Prop
  | call f awaited => awaited = isAsync known f
  | define _ async body => async = body.calls.any (isAsync known)

end Event

/-- **Events in order.** Each agrees with what is known before it, and an asynchronous definition
is known from there on. -/
def InOrder (known : List String) : List Event → Prop
  | [] => True
  | e :: es => e.Fits known ∧ InOrder (known ++ e.async?.toList) es

namespace InOrder

variable {known : List String} {es es' : List Event}

theorem append_iff : InOrder known (es ++ es') ↔
    InOrder known es ∧ InOrder (known ++ es.filterMap Event.async?) es' := by
  induction es generalizing known with
  | nil => simp [InOrder]
  | cons e es ih =>
    have hknown : known ++ e.async?.toList ++ es.filterMap Event.async? =
        known ++ (e :: es).filterMap Event.async? := by
      rw [List.append_assoc, List.filterMap_cons]
      cases e.async? <;> rfl
    rw [List.cons_append, InOrder, InOrder, ih, hknown, and_assoc]

/-- What holds of one event, by what stands before it. -/
theorem fits {before after : List Event} {e : Event} (h : InOrder known (before ++ e :: after)) :
    e.Fits (known ++ before.filterMap Event.async?) := (append_iff.1 h).2.1

/-- Calls leave what is known as it is. -/
theorem of_calls (fs : List String) : InOrder known (fs.map (Event.of known)) := by
  induction fs with
  | nil => trivial
  | cons f fs ih =>
    refine ⟨rfl, ?_⟩
    rw [show (Event.of known f).async? = none from rfl, Option.toList_none, List.append_nil]
    exact ih

end InOrder

/-- An asynchronous definition stands among the events. -/
theorem mem_async_iff {es : List Event} {f : String} :
    f ∈ es.filterMap Event.async? ↔ ∃ body, .define f true body ∈ es := by
  rw [List.mem_filterMap]
  constructor
  · rintro ⟨e, he, hf⟩
    unfold Event.async? at hf
    split at hf
    · cases hf
      exact ⟨_, he⟩
    · cases hf
  · rintro ⟨body, hmem⟩
    exact ⟨_, hmem, rfl⟩

/-- What is known by some events: the helpers that wait, and the functions with an asynchronous definition
among them, if no helper is defined there. -/
theorem isAsync_iff {es : List Event} (hes : ∀ f ∈ es.filterMap Event.defined?, isHelper f = false)
    (f : String) : isAsync (es.filterMap Event.async?) f = true ↔
      f ∈ asyncHelpers ∨ ∃ body, .define f true body ∈ es := by
  have hhelpers : ∀ g ∈ asyncHelpers, isHelper g = true := by decide
  have hdefined : (∃ body, .define f true body ∈ es) → isHelper f = false := by
    rintro ⟨body, hmem⟩
    exact hes f (List.mem_filterMap.2 ⟨_, hmem, rfl⟩)
  unfold isAsync
  split
  · rename_i hf
    rw [List.contains_iff_mem]
    constructor
    · exact .inl
    · rintro (hmem | hdef)
      · exact hmem
      · rw [hdefined hdef] at hf
        cases hf
  · rename_i hf
    rw [List.contains_iff_mem, mem_async_iff]
    constructor
    · exact .inr
    · rintro (hmem | hdef)
      · exact absurd (hhelpers f hmem) hf
      · exact hdef

/-! ## Calls without definitions -/

/-- **Calls as they should be**: the events are calls of the functions `called`, each awaited if its
function is asynchronous, and `waits` tells whether one of them is. -/
structure Told (known : List String) (events : List Event) (called : List String) (waits : Bool) : Prop where
  events_eq : events = called.map (Event.of known)
  waits_eq : waits = called.any (isAsync known)

namespace Told

variable {known : List String} {es es' : List Event} {called called' : List String} {w w' : Bool}

theorem nil : Told known [] [] false := ⟨rfl, rfl⟩

theorem append (h : Told known es called w) (h' : Told known es' called' w') :
    Told known (es ++ es') (called ++ called') (w || w') := by
  constructor
  · rw [h.events_eq, h'.events_eq, List.map_append]
  · rw [h.waits_eq, h'.waits_eq, List.any_append]

/-- One more call. -/
theorem call (h : Told known es called w) (f : String) :
    Told known (.call f (isAsync known f) :: es) (f :: called) (isAsync known f || w) := by
  constructor
  · rw [h.events_eq]
    rfl
  · rw [h.waits_eq, List.any_cons]

/-- A call of a helper that does not wait. -/
theorem helper {name : String} (hname : isAsync known name = false) (h : Told known es called w) :
    Told known (.call name false :: es) (name :: called) w := by
  have hcall := h.call name
  rw [hname, Bool.false_or] at hcall
  exact hcall

/-- An awaited call of a helper. -/
theorem awaited {name : String} (hname : isAsync known name = true) (h : Told known es called w) :
    Told known (.call name true :: es) (name :: called) true := by
  have hcall := h.call name
  rw [hname, Bool.true_or] at hcall
  exact hcall

end Told

/-! ## Calls and what is noted of them -/

/-- **The calls agree with what is noted**: `names` are the helpers among them, each is awaited if its function is
asynchronous, and `waits` tells whether one of them is. -/
structure Matched (known : List String) (events : List Event) (called names : List String) (waits : Bool) : Prop where
  agrees : Agrees names called
  told : Told known events called waits

namespace Matched

variable {known : List String} {es es' : List Event} {called called' names names' : List String} {w w' : Bool}

theorem nil : Matched known [] [] [] false := ⟨.nil, .nil⟩

theorem append (h : Matched known es called names w) (h' : Matched known es' called' names' w') :
    Matched known (es ++ es') (called ++ called') (names ++ names') (w || w') :=
  ⟨h.agrees.append h'.agrees, h.told.append h'.told⟩

/-- The order in which helpers are noted does not matter. -/
theorem reorder (h : Matched known es called names w) (hn : ∀ f, f ∈ names' ↔ f ∈ names) :
    Matched known es called names' w := ⟨h.agrees.congr hn fun _ => Iff.rfl, h.told⟩

/-- A call of a helper that does not wait. -/
theorem helper {name : String} (hname : isHelper name = true ∧ asyncHelpers.contains name = false)
    (h : Matched known es called names w) : Matched known (.call name false :: es) (name :: called) (name :: names) w :=
  ⟨.helper hname.1 h.agrees, .helper (by rw [isAsync, if_pos hname.1, hname.2]) h.told⟩

/-- An awaited call of a helper that waits. -/
theorem await {name : String} (hname : isHelper name = true ∧ asyncHelpers.contains name = true)
    (h : Matched known es called names w) :
    Matched known (.call name true :: es) (name :: called) (name :: names) true :=
  ⟨.helper hname.1 h.agrees, .awaited (by rw [isAsync, if_pos hname.1, hname.2]) h.told⟩

/-- A call of a function that is no helper. -/
theorem other {name : String} (hname : isHelper name = false) (h : Matched known es called names w) :
    Matched known (.call name (known.contains name) :: es) (name :: called) names (known.contains name || w) := by
  have hasync : isAsync known name = known.contains name := by
    rw [isAsync, hname, if_neg Bool.false_ne_true]
  have hcall := h.told.call name
  rw [hasync] at hcall
  exact ⟨.other hname h.agrees, hcall⟩

end Matched

end Locomotive.Js
