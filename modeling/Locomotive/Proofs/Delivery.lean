import Locomotive.Host.Folder
import Locomotive.Proofs.Opening

/-!
# Success and failure

The text that a compilation gives is a program or a message. Which of the two it is can be told from its
first characters, so a tool that sees the text alone writes a file exactly if there is a program.

* `Fails`: a stage of the compilation fails.
* `startsWith_text_iff`: what the text of a compilation starts with.
* `Host.deliverText`: delivers a text by its first characters.
* `compile_text_decides`: a text tells what has become of its source.
-/

namespace Locomotive

/-- **A stage of the compilation fails**: the source text cannot be scanned, its tokens are no program, or
there is no code for the program. -/
def Fails (strict : Bool) (source : List Char) : Prop :=
  (Token.scan source).error ≠ none ∨
  (∃ why, Program.parse strict (Token.scan source).tokens source = .error why) ∨
  ∃ p why, Program.parse strict (Token.scan source).tokens source = .ok p ∧ p.generate.1 = .error why

theorem fails_iff {strict : Bool} {source : List Char} :
    Fails strict source ↔ ∃ why, (compile strict source).result = .error why := by
  unfold Fails
  rw [compile_result]
  rcases (Token.scan source).error with _ | ⟨line, why⟩
  · rcases Program.parse strict (Token.scan source).tokens source with why | p
    · simp
    · rcases hg : p.generate.1 with why | text <;> simp [hg, Except.mapError]
  · simp

/-- A text that does not start like a message has no message's first word. -/
theorem Text.NoAlarm.startsWith_eq {s : String} (h : Text.NoAlarm s) : Text.startsWith s "ERROR: " = false := by
  unfold Text.NoAlarm at h
  unfold Text.startsWith
  cases hs : s.toList with
  | nil => rfl
  | cons c cs =>
    rw [hs] at h
    have hne : ('E' == c) = false := by
      have hc : c ≠ 'E' := by simpa using h
      simpa using Ne.symm hc
    show ('E' == c && "RROR: ".toList.isPrefixOf cs) = false
    rw [hne, Bool.false_and]

theorem CompileError.startsWith_report (e : CompileError) (source : List Char) :
    Text.startsWith (e.report source) "ERROR: " = true := by
  have hmessage : ∃ rest, e.report source = "ERROR: " ++ rest := by
    have hparsing : "ERROR: Parsing failed: " = "ERROR: " ++ "Parsing failed: " := by decide
    have hevaluator : "ERROR: Parsing evaluator failed: " = "ERROR: " ++ "Parsing evaluator failed: " := by decide
    unfold CompileError.report
    split
    · exact ⟨_, by rw [hevaluator, String.append_assoc]⟩
    · exact ⟨_, by rw [hparsing, String.append_assoc]⟩
  obtain ⟨rest, hrest⟩ := hmessage
  unfold Text.startsWith
  rw [hrest, String.toList_append, List.isPrefixOf_iff_prefix]
  exact List.prefix_append _ _

/-- **What the text of a compilation starts with.** -/
theorem startsWith_text_iff {strict : Bool} {source : List Char} :
    Text.startsWith ((compile strict source).text source) "ERROR: " = true ↔
      ∃ why, (compile strict source).result = .error why := by
  unfold Compilation.text
  rcases hresult : (compile strict source).result with why | text
  · simp [CompileError.startsWith_report]
  · obtain ⟨p, ⟨o⟩, h⟩ := compile_accepted hresult
    simp [(o.noAlarm h.proper).startsWith_eq]

/-! ## Hosts -/

namespace Host

variable {m : Type → Type} [Monad m]

/-- Writes a program to a file, or shows it if the path is `-`. -/
def keep (h : Host m) (source path program : String) : m Nat :=
  if path = "-" then do
    h.out program
    pure 0
  else do
    match ← h.write path program with
    | .error e => do
      h.err ("failed to write output file " ++ Text.quoted path ++ ": " ++ e.writing path ++ "\n")
      pure 1
    | .ok _ => do
      h.err ("compiled " ++ toString (lineCount source) ++ " lines -> " ++ path ++ "\n")
      pure 0

/-- **Delivers a text by its first characters**: a message is shown, and anything else is a program. -/
def deliverText (h : Host m) (warnings : List String) (source path text : String) : m Nat := do
  h.warn warnings
  if Text.startsWith text "ERROR: " then do
    h.err (text ++ "\n")
    pure 1
  else h.keep source path text

/-- Nothing but the text and the warnings of a compilation is needed to deliver it. -/
theorem deliver_eq_deliverText (h : Host m) (strict : Bool) (source path : String) :
    h.deliver strict source path = h.deliverText (compile strict source.toList).warnings source path
      ((compile strict source.toList).text source.toList) := by
  have hstarts : Text.startsWith ((compile strict source.toList).text source.toList) "ERROR: " = true ↔
      ∃ why, (compile strict source.toList).result = .error why := startsWith_text_iff
  unfold deliver deliverText
  dsimp only
  rcases hresult : (compile strict source.toList).result with why | text
  · have hmessage : (compile strict source.toList).text source.toList = why.report source.toList := by
      unfold Compilation.text
      rw [hresult]
    rw [if_pos (hstarts.2 ⟨why, hresult⟩), hmessage]
  · have hprogram : (compile strict source.toList).text source.toList = text := by
      unfold Compilation.text
      rw [hresult]
    rw [if_neg (fun hfails => by obtain ⟨why, hwhy⟩ := hstarts.1 hfails; rw [hresult] at hwhy; cases hwhy), hprogram]
    rfl

end Host

/-! ## Folders -/

namespace Folder

variable (f : Folder) (err : String)

/-- Messages change no files. -/
theorem follow_err (here names : List (List Char)) :
    ({ f with err := err } : Folder).follow here names = f.follow here names := by
  induction names generalizing here with
  | nil => rfl
  | cons name names ih =>
    unfold Folder.follow
    simp only [ih]
    rfl

theorem write_err (path text : String) : ({ f with err := err } : Folder).write path text =
    (f.write path text).map fun g => { g with err := err } := by
  have hlocate : ({ f with err := err } : Folder).locate path = f.locate path := by
    unfold Folder.locate
    simp only [follow_err]
  unfold Folder.write
  rw [hlocate]
  cases f.locate path with
  | error e => rfl
  | ok names =>
    have hfolder : ({ f with err := err } : Folder).isFolder names = f.isFolder names := rfl
    dsimp only
    rw [hfolder]
    split <;> rfl

theorem run_warn (ws : List String) : ∃ err, (host.warn ws).run f = ((), { f with err := err }) := by
  induction ws generalizing f with
  | nil => exact ⟨f.err, rfl⟩
  | cons w ws ih => exact ih { f with err := f.err ++ ("locobasic: warning: " ++ w ++ "\n") }

theorem run_write (path text : String) : (host.write path text).run f =
    match f.write path text with
    | .ok g => (.ok (), g)
    | .error e => (.error e, f) := by
  show ((match f.write path text with
    | .ok g => do
      set g
      pure (.ok ())
    | .error e => pure (.error e) : StateM Folder (Except FileError Unit)).run f) = _
  cases f.write path text <;> rfl

/-- **The files after a program is delivered**: those with the program, or the same ones if it cannot be
written. -/
theorem files_keep (source path program : String) (hpath : path ≠ "-") :
    ((host.keep source path program).run f).2.files = ((f.write path program).toOption.getD f).files := by
  have hrun := f.run_write path program
  unfold Host.keep
  rw [if_neg hpath, StateT.run_bind, hrun]
  cases f.write path program <;> rfl

end Folder

/-! ## Compilations -/

/-- **The text of a compilation tells what has become of the source.** -/
structure TextDecides (strict : Bool) (source : String) (text : String) : Prop where
  /-- It starts like a message exactly if a stage fails. -/
  message : Text.startsWith text "ERROR: " = true ↔ Fails strict source.toList
  /-- A program is not empty and ends with a line feed. -/
  program : ¬ Fails strict source.toList → text ≠ "" ∧ ∃ front, text = front ++ "\n"
  /-- Whatever the system, delivering a source looks at nothing but this text and the warnings. -/
  delivered : ∀ {m : Type → Type} [Monad m] (h : Host m) (path : String), h.deliver strict source path =
    h.deliverText (compile strict source.toList).warnings source path text
  /-- A failure leaves all files as they are. -/
  kept : Fails strict source.toList → ∀ (f : Folder) (path : String),
    ((Folder.host.deliver strict source path).run f).2.files = f.files
  /-- A program is written to its file, if it can be. -/
  written : ¬ Fails strict source.toList → ∀ (f : Folder) (path : String), path ≠ "-" →
    ((Folder.host.deliver strict source path).run f).2.files = ((f.write path text).toOption.getD f).files

/-- The files after a text is delivered. -/
theorem Folder.files_deliverText (f : Folder) (ws : List String) (source path text : String) :
    ((host.deliverText ws source path text).run f).2.files =
      if Text.startsWith text "ERROR: " then f.files
      else if path = "-" then f.files
      else ((f.write path text).toOption.getD f).files := by
  obtain ⟨err, hwarn⟩ := f.run_warn ws
  unfold Host.deliverText
  rw [StateT.run_bind, hwarn]
  show ((if Text.startsWith text "ERROR: " = true then do
      host.err (text ++ "\n")
      pure 1
    else host.keep source path text : StateM Folder Nat).run { f with err := err }).2.files = _
  split
  · rfl
  · split
    · rename_i hpath
      rw [Host.keep, if_pos hpath]
      rfl
    · rename_i hpath
      rw [files_keep _ _ _ _ hpath, write_err]
      cases f.write path text <;> rfl

/-- **Success and failure cannot be confused**, whatever the source. -/
theorem compile_text_decides (strict : Bool) (source : String) :
    TextDecides strict source ((compile strict source.toList).text source.toList) := by
  have hmessage : Text.startsWith ((compile strict source.toList).text source.toList) "ERROR: " = true ↔
      Fails strict source.toList := startsWith_text_iff.trans fails_iff.symm
  refine ⟨hmessage, fun hfine => ?_, fun h path => h.deliver_eq_deliverText strict source path, ?_, ?_⟩
  · -- no stage fails, so there is a program
    rcases hresult : (compile strict source.toList).result with why | text
    · exact absurd (fails_iff.2 ⟨why, hresult⟩) hfine
    · obtain ⟨p, ⟨o⟩, h⟩ := compile_accepted hresult
      obtain ⟨front, hfront⟩ := o.endsWithFeed h.proper
      have htext : (compile strict source.toList).text source.toList = front ++ "\n" := by
        unfold Compilation.text
        rw [hresult]
        exact hfront
      rw [htext]
      exact ⟨by simp, front, rfl⟩
  · intro hfails f path
    rw [Host.deliver_eq_deliverText, f.files_deliverText, if_pos (hmessage.2 hfails)]
  · intro hfine f path hpath
    rw [Host.deliver_eq_deliverText, f.files_deliverText, if_neg fun hstarts => hfine (hmessage.1 hstarts),
      if_neg hpath]

end Locomotive
