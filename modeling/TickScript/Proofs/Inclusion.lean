import TickScript.Proofs.Faithful
import TickScript.Proofs.Path
import Mathlib.Data.Finset.Card
import Mathlib.Logic.Function.Iterate

/-!
# How files enter a unit

A unit consists of its sources and of the files that these include. Every time a file is processed
is a `Pass` over it, and the tokens of the unit are those that the passes contribute. This module
says which passes there are: one over each source and one over each dependency, and no file is a
dependency twice.

A file that is a source and a dependency as well has two passes. It is then included by a source that
comes before it: an include asks whether the file was processed before, a source does not.

All of this rests on one inversion, `processLine_cases`: a line either leaves the files of the unit
alone, whatever a file would contribute, or hands over to one file that was not processed before.

The module has three parts. First, what one line may do, for any way of processing the files that it
includes. Then the termination of nested includes: each level marks a file that was not marked
before, so as many levels as there are files suffice, and what would be done below them does not
matter (`iterate_processWith_eq`). Last, the passes: `Pulled` collects the files that includes
pulled in between two states, each of them new in the first state and marked in the second, and
everything said about a unit is read off that relation.
-/

namespace TickScript

namespace Macros

open Stage
open scoped List

variable {ctx : MacroContext} {s s' : MacroState} {α β : Type}

/-! ## Runs with any log -/

/-- Whatever the log does, the stage ends as described if it comes to its end. -/
def Leads (x : Macros α) (s : MacroState) (Q : α → MacroState → Prop) : Prop :=
  ∀ log a s' log', x s log = .ok (a, s') log' → Q a s'

section

variable {Q : α → MacroState → Prop} {R : β → MacroState → Prop}

theorem leads_pure {a : α} (h : Q a s) : Leads (pure a) s Q := by
  intro log a' s' log' hrun
  cases hrun
  exact h

/-- What the first stage leads to is where the second one starts. -/
theorem leads_bind {x : Macros α} {f : α → Macros β} (hx : Leads x s Q)
    (hf : ∀ a s', Q a s' → Leads (f a) s' R) : Leads (x >>= f) s R := by
  intro log b s' log' hrun
  rw [run_bind] at hrun
  cases hfirst : x s log with
  | error e log₁ => simp [hfirst] at hrun
  | ok r log₁ =>
      rw [hfirst] at hrun
      exact hf r.1 r.2 (hx log r.1 r.2 log₁ hfirst) log₁ b s' log' hrun

theorem leads_report (t : Token) (cause : Cause) :
    Leads (liftM (report t cause)) s fun _ s' => s' = s := by
  intro log a s' log' hrun
  obtain ⟨strict, entries⟩ := log
  cases strict with
  | false =>
      cases hrun
      rfl
  | true => cases hrun

end

/-! ## One line -/

/-- What is done with one line. -/
def processLine (ctx : MacroContext) (process : FileReader) (file : Text) :
    List Token → Macros (List Token)
  | [] => expand []
  | first :: operands =>
    if first.kind = .hash then directive ctx process file first operands
    else expand (first :: operands)

/-- A line reports truly if the readers of included files do. -/
theorem faithful_processLine {process : FileReader}
    (hprocess : ∀ file source, Stage.Faithful (process file source)) (file : Text)
    (line : List Token) : Stage.Faithful (processLine ctx process file line) := by
  unfold processLine
  split
  · exact faithful_expand _
  · split
    · exact faithful_directive ctx hprocess file _ _
    · exact faithful_expand _

/-- Lines are processed one after the other, in the state that the line before left. -/
theorem processLines_cons (process : FileReader) (file : Text) (line : List Token)
    (rest : List (List Token)) : processLines ctx process file (line :: rest) =
      processLine ctx process file line >>= fun tokens =>
        processLines ctx process file rest >>= fun more => pure (tokens ++ more) := by
  cases line with
  | nil => rfl
  | cons first operands =>
      simp only [processLines, processLine]
      split <;> rfl

/-- The tokens that a line contributes by itself, with some macros replaced. A directive has none. -/
def ownTokens (macros : Table Text (List Token)) : List Token → List Token
  | [] => []
  | first :: rest => if first.kind = .hash then [] else substitute macros false (first :: rest)

/-- The files of a unit are the same in two states. -/
def SameFiles (s s' : MacroState) : Prop :=
  s'.included = s.included ∧ s'.dependencies = s.dependencies

/-- Nothing has happened to the files. -/
theorem SameFiles.refl (s : MacroState) : SameFiles s s := ⟨rfl, rfl⟩

/-- An include hands over to a file that can be read and was not processed before. -/
structure Entrance (ctx : MacroContext) (s : MacroState) (found content : Text) (s' : MacroState) :
    Prop where
  /-- The file has an absolute path. -/
  absolute : ∃ name, found = ctx.store.absolute name
  /-- It was not processed before. -/
  fresh : found ∉ s.included
  /-- It can be read. -/
  readable : ∃ history, ctx.store.read history found = .ok content
  /-- It is not marked yet, which is left to its processing. -/
  included : s'.included = s.included
  /-- It is a dependency from now on. -/
  dependencies : s'.dependencies = found :: s.dependencies

/-- Something is done without looking at any other file. -/
def Quiet (x : FileReader → Macros α) (s : MacroState) (Q : α → MacroState → Prop) : Prop :=
  (∀ process other, x process s = x other s) ∧ ∀ process, Leads (x process) s Q

/-- A stage that does not ask for another file leads to where its run does. -/
theorem quiet_of_run {x : FileReader → Macros α} {y : Macros α} {Q : α → MacroState → Prop}
    (s' : MacroState) (h : ∀ process log, x process s log = y s' log) (hy : Leads y s' Q) :
    Quiet x s Q := by
  refine ⟨fun process other => funext fun log => ?_, fun process => ?_⟩
  · rw [h, h]
  · intro log a s₁ log' hrun
    rw [h] at hrun
    exact hy log a s₁ log' hrun

theorem run_get (s : MacroState) (log : Log) : (get : Macros MacroState) s log = .ok (s, s) log := rfl

/-- Reading a file enters it into the history of the store. -/
theorem run_read (ctx : MacroContext) (path : Text) (s : MacroState) (log : Log) :
    read ctx path s log = .ok (ctx.store.read s.history path,
      { s with history := ctx.store.absolute path :: s.history }) log := rfl

/-- Looking for a file only remembers what was read. -/
theorem run_firstReadable (ctx : MacroContext) (paths : List Text) (s : MacroState) :
    ∃ found? history, (∀ log, firstReadable ctx paths s log = .ok (found?, { s with history }) log)
      ∧ ∀ found, found? = some found → ∃ name, found = ctx.store.absolute name := by
  induction paths generalizing s with
  | nil => exact ⟨none, s.history, fun _ => rfl, by simp⟩
  | cons path rest ih =>
      cases hread : ctx.store.read s.history path with
      | ok content =>
          refine ⟨some (ctx.store.absolute path), ctx.store.absolute path :: s.history, ?_, ?_⟩
          · intro log
            simp only [firstReadable, run_bind, run_read, hread]
            rfl
          · intro found hfound
            exact ⟨path, (Option.some.inj hfound).symm⟩
      | error fault =>
          obtain ⟨found?, history, hrun, habsolute⟩ :=
            ih { s with history := ctx.store.absolute path :: s.history }
          refine ⟨found?, history, ?_, habsolute⟩
          intro log
          simp only [firstReadable, run_bind, run_read, hread, hrun]

/-- A report contributes nothing and leaves the files alone. -/
theorem leads_report_nil (t : Token) (cause : Cause) :
    Leads (liftM (report t cause) >>= fun _ => pure ([] : List Token)) s
      fun tokens s' => tokens = [] ∧ SameFiles s s' := by
  refine leads_bind (leads_report t cause) ?_
  rintro - s' rfl
  exact leads_pure ⟨rfl, .refl _⟩

/-- An inclusion either adds nothing, or it enters a file that exists and was not included. -/
theorem includeFile_cases (ctx : MacroContext) (includer : Text) (path : Token) (s : MacroState) :
    Quiet (fun process => includeFile ctx process includer path) s
      (fun tokens s' => tokens = [] ∧ SameFiles s s')
    ∨ ∃ found content s', Entrance ctx s found content s' ∧ ∀ process log,
      includeFile ctx process includer path s log = process found content s' log := by
  obtain ⟨found?, history, hrun, habsolute⟩ :=
    run_firstReadable ctx (candidates ctx includer path.text) s
  cases found? with
  -- nothing to be read under any of the names
  | none =>
      refine .inl (quiet_of_run { s with history } ?_
        (leads_report_nil path (.includeNotFound path.text)))
      intro process log
      simp only [includeFile, run_bind, hrun]
  | some found =>
      by_cases hknown : s.included.contains found = true
      · -- the file was processed before, so it contributes nothing now
        have hquiet : Leads (pure [] : Macros (List Token)) { s with history }
            fun tokens s' => tokens = [] ∧ SameFiles s s' := leads_pure ⟨rfl, rfl, rfl⟩
        refine .inl (quiet_of_run { s with history } ?_ hquiet)
        intro process log
        simp only [includeFile, run_bind, hrun, run_get, hknown, if_true]
      · cases hread : ctx.store.read history found with
        -- a file that is there but cannot be read is reported
        | error fault =>
            refine .inl (quiet_of_run { s with history := ctx.store.absolute found :: history } ?_
              (leads_report_nil path (.includeUnreadable path.text fault.message)))
            intro process log
            simp only [includeFile, run_bind, hrun, run_get, hknown, Bool.false_eq_true, if_false,
              run_read, hread]
        -- a new file is a dependency from here on, and the rest is left to `process`
        | ok content =>
            refine .inr ⟨found, content, { s with
              history := ctx.store.absolute found :: history
              dependencies := found :: s.dependencies }, ?_, ?_⟩
            · refine ⟨habsolute found rfl, by simpa using hknown, ⟨history, hread⟩, rfl, rfl⟩
            · intro process log
              simp only [includeFile, run_bind, hrun, run_get, hknown, Bool.false_eq_true, if_false,
              run_read, hread]
              rfl

/-- Definitions touch no files. -/
theorem leads_define (hash : Token) (operands : List Token) :
    Leads (define hash operands) s fun _ s' => SameFiles s s' := by
  unfold define
  split
  · split
    · refine leads_bind (Q := fun _ s' => s' = s) ?_ ?_
      · intro log a s' log' hrun
        cases hrun
        rfl
      · rintro body s' rfl log a s' log' hrun
        cases hrun
        exact ⟨rfl, rfl⟩
    · rintro log a s' log' hrun
      rw [leads_report hash _ log a s' log' hrun]
      exact .refl _
  · rintro log a s' log' hrun
    rw [leads_report hash _ log a s' log' hrun]
    exact .refl _

/-- Neither does taking them back. -/
theorem leads_undefine (hash : Token) (operands : List Token) :
    Leads (undefine hash operands) s fun _ s' => SameFiles s s' := by
  unfold undefine
  split
  · rintro log a s' log' hrun
    cases hrun
    exact ⟨rfl, rfl⟩
  · rintro log a s' log' hrun
    rw [leads_report hash _ log a s' log' hrun]
    exact .refl _

/-- A directive contributes nothing by itself. -/
theorem directive_cases (ctx : MacroContext) (file : Text) (hash : Token) (operands : List Token)
    (s : MacroState) :
    Quiet (fun process => directive ctx process file hash operands) s
      (fun tokens s' => tokens = [] ∧ SameFiles s s')
    ∨ ∃ found content s', Entrance ctx s found content s' ∧ ∀ process log,
      directive ctx process file hash operands s log = process found content s' log := by
  cases operands with
  | nil => exact .inl (quiet_of_run s (fun _ _ => rfl) (leads_report_nil hash .emptyDirective))
  | cons word operands =>
      have hnil {x : Macros Unit} (hx : Leads x s fun _ s' => SameFiles s s') :
          Leads (x >>= fun _ => pure ([] : List Token)) s
            fun tokens s' => tokens = [] ∧ SameFiles s s' :=
        leads_bind hx fun _ s' hsame => leads_pure ⟨rfl, hsame⟩
      simp only [directive]
      split
      · exact .inl (quiet_of_run s (fun _ _ => rfl) (hnil (leads_define hash operands)))
      · split
        · exact .inl (quiet_of_run s (fun _ _ => rfl) (hnil (leads_undefine hash operands)))
        · split
          · cases includeOperand? operands with
            | some path => exact includeFile_cases ctx file path s
            | none =>
                exact .inl (quiet_of_run s (fun _ _ => rfl)
                  (leads_report_nil hash .includeWithoutPath))
          · exact .inl (quiet_of_run s (fun _ _ => rfl)
              (leads_report_nil hash (.unknownDirective word.text)))

/-- All that a line can do: it leaves the files of the unit alone, or hands over to one of them. -/
theorem processLine_cases (ctx : MacroContext) (file : Text) (line : List Token) (s : MacroState) :
    Quiet (fun process => processLine ctx process file line) s
      (fun tokens s' => SameFiles s s' ∧ ∃ macros, tokens = ownTokens macros line)
    ∨ ∃ found content s', Entrance ctx s found content s' ∧ (∀ macros, ownTokens macros line = [])
      ∧ ∀ process log, processLine ctx process file line s log = process found content s' log := by
  cases line with
  | nil => exact .inl (quiet_of_run s (fun _ _ => rfl) (leads_pure ⟨.refl s, [], rfl⟩))
  | cons first operands =>
      by_cases hhash : first.kind = .hash
      · have hown (macros : Table Text (List Token)) : ownTokens macros (first :: operands) = [] := by
          simp [ownTokens, hhash]
        simp only [processLine, hhash, if_true]
        rcases directive_cases ctx file first operands s with ⟨hsame, hleads⟩ | hentrance
        · refine .inl ⟨hsame, fun process log tokens s' log' hrun => ?_⟩
          obtain ⟨rfl, hfiles⟩ := hleads process log tokens s' log' hrun
          exact ⟨hfiles, [], (hown []).symm⟩
        · obtain ⟨found, content, s', hentrance, hrun⟩ := hentrance
          exact .inr ⟨found, content, s', hentrance, hown, hrun⟩
      · simp only [processLine, hhash, if_false]
        refine .inl (quiet_of_run s (fun _ _ => rfl) (leads_pure ⟨.refl s, s.macros, ?_⟩))
        simp [ownTokens, hhash]

/-! ## The nesting of includes ends -/

/-- The state once a file counts as processed. A text without a name is no file. -/
def mark (ctx : MacroContext) (file : Text) (s : MacroState) : MacroState :=
  if file.isEmpty then s else { s with included := ctx.store.absolute file :: s.included }

/-- The lines of a file. -/
def fileLines (file source : Text) : List (List Token) :=
  (scanLines false (numberedLines source)).map fun line => line.map fun t => { t with file := file }

/-- A file is marked first and then processed line by line. -/
theorem run_processWith (process : FileReader) (file source : Text) (log : Log) :
    processWith ctx process file source s log
      = processLines ctx process file (fileLines file source) (mark ctx file s) log := by
  simp only [processWith, mark]
  cases file.isEmpty <;> rfl

/-- Marking only adds to the included files. -/
theorem included_subset_mark (file : Text) : s.included ⊆ (mark ctx file s).included := by
  rw [mark]
  split
  · exact fun _ => id
  · exact List.subset_cons_self _ _

/-- A source is not a dependency by being marked. -/
theorem dependencies_mark (file : Text) : (mark ctx file s).dependencies = s.dependencies := by
  rw [mark]
  split <;> rfl

/-- A file with a name is included once it is marked. -/
theorem mem_mark_self {file : Text} (h : file ≠ []) :
    ctx.store.absolute file ∈ (mark ctx file s).included := by
  have hnamed : file.isEmpty = false := by simpa using h
  simp [mark, hnamed]

theorem absolute_mem_mark (hcwd : Path.isAbsolute ctx.store.cwd = true) (name : Text) :
    ctx.store.absolute name ∈ (mark ctx (ctx.store.absolute name) s).included := by
  have hmem : ctx.store.absolute (ctx.store.absolute name)
      ∈ (mark ctx (ctx.store.absolute name) s).included :=
    mem_mark_self (Path.absolute_ne_nil hcwd name)
  have hself : ctx.store.absolute (ctx.store.absolute name) = ctx.store.absolute name :=
    Path.absolute_absolute hcwd name
  rwa [hself] at hmem

/-- The number of files that were not processed. -/
def unvisited (ctx : MacroContext) (s : MacroState) : Nat :=
  (ctx.store.paths.toFinset \ s.included.toFinset).card

/-- There are never more files to visit than the store has. -/
theorem unvisited_le (ctx : MacroContext) (s : MacroState) : unvisited ctx s ≤ ctx.store.size := by
  rw [← FileStore.length_paths]
  exact Text.remaining_le _ _

/-- The more files are included, the fewer are left. -/
theorem unvisited_anti (h : s.included ⊆ s'.included) : unvisited ctx s' ≤ unvisited ctx s :=
  Text.remaining_anti h

/-- One file less is left when a file becomes processed. -/
theorem unvisited_lt {file : Text} (h : s.included ⊆ s'.included) (hfile : file ∈ ctx.store.paths)
    (hfresh : file ∉ s.included) (hmarked : file ∈ s'.included) :
    unvisited ctx s' < unvisited ctx s := Text.remaining_lt h hfile hfresh hmarked

/-- Two stages do the same in a state, and what was processed stays so. -/
def SameRun (x y : Macros α) (s : MacroState) : Prop :=
  ∀ log, x s log = y s log ∧ ∀ r log', x s log = .ok r log' → s.included ⊆ r.2.included

theorem sameRun_pure (a : α) : SameRun (pure a) (pure a) s := by
  intro log
  refine ⟨rfl, fun r log' hrun => ?_⟩
  cases hrun
  exact fun _ => id

/-- Two runs that are the same so far stay the same. -/
theorem SameRun.bind {x y : Macros α} {f g : α → Macros β} (h : SameRun x y s)
    (hrest : ∀ a s', s.included ⊆ s'.included → SameRun (f a) (g a) s') :
    SameRun (x >>= f) (y >>= g) s := by
  intro log
  obtain ⟨heq, hgrows⟩ := h log
  rw [run_bind, run_bind, ← heq]
  cases hrun : x s log with
  | error e log₁ => exact ⟨rfl, by simp⟩
  | ok r log₁ =>
      have hfirst := hgrows r log₁ hrun
      obtain ⟨hsame, hmore⟩ := hrest r.1 r.2 hfirst log₁
      exact ⟨hsame, fun r' log' hrun' => List.Subset.trans hfirst (hmore r' log' hrun')⟩

/-- Two ways to process files do the same with a file that was not processed before, as long as at
most `n` of them are left. -/
def AgreeWithin (ctx : MacroContext) (n : Nat) (process other : FileReader) : Prop :=
  ∀ name content s, ctx.store.absolute name ∈ ctx.store.paths →
    ctx.store.absolute name ∉ s.included → unvisited ctx s ≤ n →
    SameRun (process (ctx.store.absolute name) content) (other (ctx.store.absolute name) content) s

section

variable {n : Nat} {process other : FileReader}

/-- A line agrees if the readers agree on the files that it may enter. -/
theorem processLine_agree (hcwd : Path.isAbsolute ctx.store.cwd = true)
    (h : AgreeWithin ctx n process other) (file : Text) (line : List Token)
    (hn : unvisited ctx s ≤ n) :
    SameRun (processLine ctx process file line) (processLine ctx other file line) s := by
  rcases processLine_cases ctx file line s with ⟨hsame, hleads⟩
      | ⟨found, content, s', hentrance, -, hrun⟩
  · intro log
    refine ⟨congrFun (hsame process other) log, fun r log' hrun => ?_⟩
    rw [(hleads process log r.1 r.2 log' hrun).1.1]
    exact fun _ => id
  · obtain ⟨⟨name, rfl⟩, hfresh, ⟨history, hread⟩, hincluded, -⟩ := hentrance
    have hpath := FileStore.mem_paths_of_read hcwd hread
    have hn' : unvisited ctx s' ≤ n := by rwa [unvisited, hincluded]
    intro log
    rw [hrun, hrun, ← hincluded]
    exact h name content s' hpath (hincluded ▸ hfresh) hn' log

/-- The files left grow fewer from line to line, so the agreement carries on. -/
theorem processLines_agree (hcwd : Path.isAbsolute ctx.store.cwd = true)
    (h : AgreeWithin ctx n process other) (file : Text) (lines : List (List Token))
    (hn : unvisited ctx s ≤ n) :
    SameRun (processLines ctx process file lines) (processLines ctx other file lines) s := by
  induction lines generalizing s with
  | nil => exact sameRun_pure _
  | cons line rest ih =>
      rw [processLines_cons, processLines_cons]
      refine (processLine_agree hcwd h file line hn).bind fun tokens s' hgrows => ?_
      refine (ih ((unvisited_anti hgrows).trans hn)).bind fun more s'' _ => ?_
      exact sameRun_pure _

/-- A file is processed alike by readers that agree on the files left after it is marked. -/
theorem processWith_agree (hcwd : Path.isAbsolute ctx.store.cwd = true)
    (h : AgreeWithin ctx n process other) (file source : Text)
    (hn : unvisited ctx (mark ctx file s) ≤ n) :
    SameRun (processWith ctx process file source) (processWith ctx other file source) s := by
  intro log
  rw [run_processWith, run_processWith]
  obtain ⟨heq, hgrows⟩ := processLines_agree hcwd h file (fileLines file source) hn log
  exact ⟨heq, fun r log' hrun => List.Subset.trans (included_subset_mark file) (hgrows r log' hrun)⟩

/-- One more level of nesting is enough for one more file. -/
theorem AgreeWithin.succ (hcwd : Path.isAbsolute ctx.store.cwd = true)
    (h : AgreeWithin ctx n process other) :
    AgreeWithin ctx (n + 1) (processWith ctx process) (processWith ctx other) := by
  intro name content s hpath hfresh hn
  refine processWith_agree hcwd h _ content ?_
  have hmarked := absolute_mem_mark (s := s) hcwd name
  have hless := unvisited_lt (included_subset_mark _) hpath hfresh hmarked
  omega

/-- With as many levels as files are left the bottom does not matter: each level marks one more file.
-/
theorem agreeWithin_iterate (hcwd : Path.isAbsolute ctx.store.cwd = true) (n : Nat)
    (process other : FileReader) :
    AgreeWithin ctx n ((processWith ctx)^[n] process) ((processWith ctx)^[n] other) := by
  induction n with
  | zero =>
      intro name content s hpath hfresh hn
      have hempty := Finset.card_eq_zero.1 (Nat.le_zero.1 hn)
      exact absurd (List.mem_toFinset.1 (Finset.sdiff_eq_empty_iff_subset.1 hempty
        (List.mem_toFinset.2 hpath))) hfresh
  | succ n ih =>
      rw [Function.iterate_succ_apply', Function.iterate_succ_apply']
      exact ih.succ hcwd

/-- Includes do not nest deeper than there are files: what would be done below that does not
matter. -/
theorem iterate_processWith_eq (hcwd : Path.isAbsolute ctx.store.cwd = true)
    (process other : FileReader) :
    (processWith ctx)^[ctx.store.size + 1] process = (processWith ctx)^[ctx.store.size + 1] other := by
  funext file source s log
  rw [Function.iterate_succ_apply', Function.iterate_succ_apply']
  exact (processWith_agree hcwd (agreeWithin_iterate hcwd ctx.store.size process other) file source
    (unvisited_le ctx _) log).1

/-- The fuelled reader of files is that many levels on top of nothing. -/
theorem processFile_eq_iterate (ctx : MacroContext) (fuel : Nat) :
    processFile ctx fuel = (processWith ctx)^[fuel + 1] fun _ _ => pure [] := by
  induction fuel with
  | zero => rfl
  | succ fuel ih => rw [Function.iterate_succ_apply', ← ih]; rfl

/-- The bound on the nesting is never reached. -/
theorem iterate_eq_processFile (hcwd : Path.isAbsolute ctx.store.cwd = true) (process : FileReader) :
    (processWith ctx)^[ctx.store.size + 1] process = processFile ctx (ctx.store.size + 1) := by
  rw [processFile_eq_iterate, Function.iterate_succ_apply]
  exact iterate_processWith_eq hcwd _ _

/-- A file is processed by processing the files that it includes in the same way. -/
theorem processWith_processFile (hcwd : Path.isAbsolute ctx.store.cwd = true) :
    processWith ctx (processFile ctx (ctx.store.size + 1)) = processFile ctx (ctx.store.size + 1) := by
  let bottom : FileReader := fun _ _ => pure []
  calc processWith ctx (processFile ctx (ctx.store.size + 1))
      = processWith ctx ((processWith ctx)^[ctx.store.size + 1] bottom) := by
        rw [iterate_eq_processFile hcwd]
    _ = (processWith ctx)^[ctx.store.size + 1] (processWith ctx bottom) := by
        rw [← Function.iterate_succ_apply' (processWith ctx), Function.iterate_succ_apply]
    _ = processFile ctx (ctx.store.size + 1) := iterate_eq_processFile hcwd _

end

/-! ## Passes -/

/-- One time that a text is processed, with the tokens that its own lines contribute. -/
structure Pass extends Source where
  tokens : List Token

/-- What some lines contribute by themselves. The macros may change from line to line. -/
inductive Contributes : List (List Token) → List Token → Prop
  | nil : Contributes [] []
  | cons {line : List Token} {rest : List (List Token)} {more : List Token}
      (macros : Table Text (List Token)) (h : Contributes rest more) :
      Contributes (line :: rest) (ownTokens macros line ++ more)

/-- Every line of the text contributes once, in order. -/
def Pass.Reads (pass : Pass) : Prop := Contributes (fileLines pass.name pass.text) pass.tokens

/-- The tokens under each name are those of the passes under that name. -/
def Stream (tokens : List Token) (passes : List Pass) : Prop :=
  ∀ name, tokens.filter (·.file = name) = (passes.filter (·.name = name)).flatMap (·.tokens)

/-- From one state to another, includes have pulled in some files, in this order. -/
structure Pulled (ctx : MacroContext) (s s' : MacroState) (passes : List Pass) : Prop where
  /-- What was marked stays so. -/
  kept : s.included ⊆ s'.included
  /-- The new dependencies are the files of the passes, the latest first. -/
  dependencies : s'.dependencies = (passes.map (·.name)).reverse ++ s.dependencies
  /-- No file has two of these passes. -/
  distinct : (passes.map (·.name)).Nodup
  /-- None of them was processed before. -/
  fresh : ∀ pass ∈ passes, pass.name ∉ s.included
  /-- All of them are marked behind. -/
  marked : ∀ pass ∈ passes, pass.name ∈ s'.included
  /-- A pass goes over its text line by line. -/
  reads : ∀ pass ∈ passes, pass.Reads
  /-- The text is that of the file. -/
  readable : ∀ pass ∈ passes, ∃ history, ctx.store.read history pass.name = .ok pass.text
  /-- A file has an absolute path. -/
  absolute : ∀ pass ∈ passes, ∃ name, pass.name = ctx.store.absolute name

section

variable {file text : Text} {passes passes' : List Pass} {tokens tokens' own own' : List Token}

/-- Passes one after the other contribute their tokens one after the other. -/
theorem stream_append (h : Stream tokens passes) (h' : Stream tokens' passes') :
    Stream (tokens ++ tokens') (passes ++ passes') := by
  intro name
  rw [List.filter_append, h name, h' name, List.filter_append, List.flatMap_append]

/-- A pass over a text alone contributes the tokens that are its own. -/
theorem stream_own (text : Text) (h : ∀ t ∈ tokens, t.file = file) :
    Stream tokens [⟨⟨file, text⟩, tokens⟩] := by
  intro name
  by_cases hname : file = name
  · have hall : tokens.filter (·.file = name) = tokens := by
      simpa [← hname] using h
    simp [hname, hall]
  · have hnone : tokens.filter (·.file = name) = [] := by
      simp only [List.filter_eq_nil_iff, decide_eq_true_eq]
      intro t ht heq
      exact hname ((h t ht).symm.trans heq)
    simp [hname, hnone]

/-- A pass may contribute nothing. -/
theorem stream_silent (file text : Text) (h : Stream tokens passes) :
    Stream tokens (⟨⟨file, text⟩, []⟩ :: passes) := by
  intro name
  rw [h name, List.filter_cons]
  split <;> simp

/-- Two parts of one pass make one, when what was pulled in by the first has other names. -/
theorem stream_merge (h : Stream tokens (⟨⟨file, text⟩, own⟩ :: passes))
    (h' : Stream tokens' (⟨⟨file, text⟩, own'⟩ :: passes'))
    (hnames : ∀ pass ∈ passes, pass.name ≠ file) :
    Stream (tokens ++ tokens') (⟨⟨file, text⟩, own ++ own'⟩ :: (passes ++ passes')) := by
  intro name
  rw [List.filter_append, h name, h' name]
  by_cases hname : file = name
  · subst hname
    have hnone : passes.filter (·.name = file) = [] := by
      simpa using hnames
    simp [hnone]
  · simp [hname]

/-- Where the files stay the same nothing has been pulled in. -/
theorem Pulled.refl (ctx : MacroContext) (h : SameFiles s s') : Pulled ctx s s' [] where
  kept := by
    rw [h.1]
    exact fun _ => id
  dependencies := h.2
  distinct := List.nodup_nil
  fresh := by simp
  marked := by simp
  reads := by simp
  readable := by simp
  absolute := by simp

/-- What is pulled in first is included when the second stage begins. -/
theorem Pulled.trans {s₁ : MacroState} (h : Pulled ctx s s₁ passes) (h' : Pulled ctx s₁ s' passes') :
    Pulled ctx s s' (passes ++ passes') where
  kept := List.Subset.trans h.kept h'.kept
  dependencies := by simp [h'.dependencies, h.dependencies]
  distinct := by
    rw [List.map_append, List.nodup_append]
    refine ⟨h.distinct, h'.distinct, ?_⟩
    intro name hname name' hname' heq
    obtain ⟨pass, hpass, rfl⟩ := List.mem_map.1 hname
    obtain ⟨pass', hpass', rfl⟩ := List.mem_map.1 hname'
    exact h'.fresh pass' hpass' (heq ▸ h.marked pass hpass)
  fresh := by
    intro pass hpass
    rcases List.mem_append.1 hpass with hpass | hpass
    · exact h.fresh pass hpass
    · exact fun hmem => h'.fresh pass hpass (h.kept hmem)
  marked := by
    intro pass hpass
    rcases List.mem_append.1 hpass with hpass | hpass
    · exact h'.kept (h.marked pass hpass)
    · exact h'.marked pass hpass
  reads := List.forall_mem_append.2 ⟨h.reads, h'.reads⟩
  readable := List.forall_mem_append.2 ⟨h.readable, h'.readable⟩
  absolute := List.forall_mem_append.2 ⟨h.absolute, h'.absolute⟩

/-- What is pulled in once a file is marked was not processed before either. -/
theorem Pulled.of_mark (h : Pulled ctx (mark ctx file s) s' passes) : Pulled ctx s s' passes where
  kept := List.Subset.trans (included_subset_mark file) h.kept
  dependencies := by rw [h.dependencies, dependencies_mark]
  distinct := h.distinct
  fresh pass hpass hmem := h.fresh pass hpass (included_subset_mark file hmem)
  marked := h.marked
  reads := h.reads
  readable := h.readable
  absolute := h.absolute

/-- A pass over a file, and the files that it pulls in. -/
def Processes (ctx : MacroContext) (file source : Text) (s : MacroState) (tokens : List Token)
    (s' : MacroState) : Prop :=
  ∃ own passes, Contributes (fileLines file source) own ∧ Pulled ctx (mark ctx file s) s' passes
    ∧ Stream tokens (⟨⟨file, source⟩, own⟩ :: passes)

/-- An include adds a pass over the file that it finds. -/
theorem Entrance.pulled (hcwd : Path.isAbsolute ctx.store.cwd = true) {found content : Text}
    {s₁ : MacroState} (h : Entrance ctx s found content s₁)
    (hfile : Processes ctx found content s₁ tokens s') :
    ∃ passes, Pulled ctx s s' passes ∧ Stream tokens passes := by
  obtain ⟨own, passes, hreads, hpulled, hstream⟩ := hfile
  refine ⟨_, ?_, hstream⟩
  obtain ⟨⟨name, rfl⟩, hfresh, hread, hincluded, hdependencies⟩ := h
  have hmarked := absolute_mem_mark (s := s₁) hcwd name
  have hkept : s.included ⊆ (mark ctx (ctx.store.absolute name) s₁).included := by
    rw [← hincluded]
    exact included_subset_mark _
  constructor
  case kept => exact List.Subset.trans hkept hpulled.kept
  case dependencies => simp [hpulled.dependencies, dependencies_mark, hdependencies]
  case distinct =>
    rw [List.map_cons, List.nodup_cons]
    refine ⟨?_, hpulled.distinct⟩
    intro hmem
    obtain ⟨pass, hpass, heq⟩ := List.mem_map.1 hmem
    exact hpulled.fresh pass hpass (heq ▸ hmarked)
  case fresh =>
    refine List.forall_mem_cons.2 ⟨hfresh, fun pass hpass hmem => ?_⟩
    exact hpulled.fresh pass hpass (hkept hmem)
  case marked => exact List.forall_mem_cons.2 ⟨hpulled.kept hmarked, hpulled.marked⟩
  case reads => exact List.forall_mem_cons.2 ⟨hreads, hpulled.reads⟩
  case readable => exact List.forall_mem_cons.2 ⟨hread, hpulled.readable⟩
  case absolute => exact List.forall_mem_cons.2 ⟨⟨name, rfl⟩, hpulled.absolute⟩

/-! ## Files -/

/-- Substituted tokens carry the file of the line that they stand in. -/
theorem file_of_mem_substitute {macros : Table Text (List Token)} {inString : Bool}
    {line : List Token} (h : ∀ t ∈ line, t.file = file) :
    ∀ t ∈ substitute macros inString line, t.file = file := by
  induction line generalizing inString with
  | nil => simp [substitute]
  | cons first rest ih =>
      have hfirst := h first List.mem_cons_self
      have hrest (inString : Bool) : ∀ t ∈ substitute macros inString rest, t.file = file :=
        ih fun t ht => h t (List.mem_cons_of_mem _ ht)
      simp only [substitute]
      generalize (if first.kind = .quote then !inString else inString) = inside
      cases macros.get? first.text with
      | none => exact List.forall_mem_cons.2 ⟨hfirst, hrest inside⟩
      | some replacement =>
          simp only
          split
          · exact List.forall_mem_cons.2 ⟨hfirst, hrest inside⟩
          · -- what replaces a name takes its place
            refine List.forall_mem_append.2 ⟨fun t ht => ?_, hrest inside⟩
            obtain ⟨r, -, rfl⟩ := List.mem_map.1 ht
            exact hfirst

/-- So do all tokens that a line contributes by itself. -/
theorem file_of_mem_ownTokens {macros : Table Text (List Token)} {line : List Token}
    (h : ∀ t ∈ line, t.file = file) : ∀ t ∈ ownTokens macros line, t.file = file := by
  cases line with
  | nil => simp [ownTokens]
  | cons first rest =>
      rw [ownTokens]
      split
      · simp
      · exact file_of_mem_substitute h

/-- The lines of a file are cut from its own tokens. -/
theorem file_of_mem_fileLines {line : List Token} (h : line ∈ fileLines file text) :
    ∀ t ∈ line, t.file = file := by
  obtain ⟨scanned, -, rfl⟩ := List.mem_map.1 h
  intro t ht
  obtain ⟨t', -, rfl⟩ := List.mem_map.1 ht
  rfl

/-- The files that a line pulls in, and what it contributes by itself. -/
theorem processLine_pulls (hcwd : Path.isAbsolute ctx.store.cwd = true) {process : FileReader}
    (hprocess : ∀ name content s, Leads (process name content) s (Processes ctx name content s))
    (text : Text) {line : List Token} (hline : ∀ t ∈ line, t.file = file) :
    Leads (processLine ctx process file line) s fun tokens s' =>
      ∃ macros passes, Pulled ctx s s' passes
        ∧ Stream tokens (⟨⟨file, text⟩, ownTokens macros line⟩ :: passes) := by
  intro log tokens s' log' hrun
  rcases processLine_cases ctx file line s with ⟨-, hleads⟩
      | ⟨found, content, s₁, hentrance, hown, henter⟩
  · obtain ⟨hfiles, macros, rfl⟩ := hleads process log tokens s' log' hrun
    exact ⟨macros, [], .refl ctx hfiles, stream_own text (file_of_mem_ownTokens hline)⟩
  · rw [henter] at hrun
    obtain ⟨passes, hpulled, hstream⟩ :=
      hentrance.pulled hcwd (hprocess found content s₁ log tokens s' log' hrun)
    refine ⟨[], passes, hpulled, ?_⟩
    rw [hown]
    exact stream_silent file text hstream

/-- Line after line: what a line pulls in is included for the lines behind it. -/
theorem processLines_pulls (hcwd : Path.isAbsolute ctx.store.cwd = true) {process : FileReader}
    (hprocess : ∀ name content s, Leads (process name content) s (Processes ctx name content s))
    (text : Text) {lines : List (List Token)} (hlines : ∀ line ∈ lines, ∀ t ∈ line, t.file = file)
    (hfile : file ≠ [] → ctx.store.absolute file ∈ s.included) :
    Leads (processLines ctx process file lines) s fun tokens s' =>
      ∃ own passes, Contributes lines own ∧ Pulled ctx s s' passes
        ∧ Stream tokens (⟨⟨file, text⟩, own⟩ :: passes) := by
  induction lines generalizing s with
  | nil => exact leads_pure ⟨[], [], .nil, .refl ctx (.refl s), stream_own text (by simp)⟩
  | cons line rest ih =>
      rw [processLines_cons]
      refine leads_bind (processLine_pulls hcwd hprocess text (hlines line List.mem_cons_self)) ?_
      rintro tokens s₁ ⟨macros, passes, hpulled, hstream⟩
      refine leads_bind (ih (fun line' hline' => hlines line' (List.mem_cons_of_mem _ hline'))
        fun hne => hpulled.kept (hfile hne)) ?_
      rintro more s' ⟨own, passes', hcontributes, hpulled', hstream'⟩
      refine leads_pure ⟨_, _, .cons macros hcontributes, hpulled.trans hpulled',
        stream_merge hstream hstream' ?_⟩
      -- the file itself was marked before its lines, so no include leads back to it
      intro pass hpass heq
      obtain ⟨name, hname⟩ := hpulled.absolute pass hpass
      have hself : ctx.store.absolute file = file := by
        rw [← heq, hname]
        exact Path.absolute_absolute hcwd name
      have hne : file ≠ [] := by
        rw [← heq, hname]
        exact Path.absolute_ne_nil hcwd name
      exact hpulled.fresh pass hpass (by rw [heq, ← hself]; exact hfile hne)

/-- Nothing is processed. -/
def halt : FileReader := fun _ _ _ log => .error .reported log

/-- By induction on the levels; the marked file is included while its lines are processed. -/
theorem iterate_processes (hcwd : Path.isAbsolute ctx.store.cwd = true) (n : Nat) (file source : Text)
    (s : MacroState) :
    Leads ((processWith ctx)^[n] halt file source) s (Processes ctx file source s) := by
  induction n generalizing file source s with
  | zero =>
      intro log tokens s' log' hrun
      cases hrun
  | succ n ih =>
      intro log tokens s' log' hrun
      rw [Function.iterate_succ_apply', run_processWith] at hrun
      exact processLines_pulls hcwd ih source (fun _ => file_of_mem_fileLines) mem_mark_self log tokens
        s' log' hrun

/-- What processing a file comes to. -/
theorem processFile_processes (hcwd : Path.isAbsolute ctx.store.cwd = true) (file source : Text)
    (s : MacroState) : Leads (processFile ctx (ctx.store.size + 1) file source) s
      (Processes ctx file source s) := by
  rw [← iterate_eq_processFile hcwd halt]
  exact iterate_processes hcwd _ file source s

end

/-! ## Units -/

/-- A unit is assembled from passes over its sources and over the files that these pull in. -/
structure Assembled (ctx : MacroContext) (sources : List Source) (s s' : MacroState)
    (tokens : List Token) (passes pulled : List Pass) : Prop where
  /-- Every pass over a file was entered by an include. -/
  entered : Pulled ctx s s' pulled
  /-- The tokens are those of the passes, each at its place. -/
  stream : Stream tokens passes
  /-- Every pass reads the file that it names. -/
  reads : ∀ pass ∈ passes, pass.Reads
  /-- The sources and the files included are passed over, and nothing else. -/
  complete : (passes.map Pass.toSource).Perm (sources ++ pulled.map Pass.toSource)

section

variable {source : Source} {sources : List Source} {tokens : List Token}

/-- Sources are processed one after the other in one state. -/
theorem processAll_append (ctx : MacroContext) (before after : List Source) :
    processAll ctx (before ++ after) = processAll ctx before >>= fun tokens =>
      processAll ctx after >>= fun more => pure (tokens ++ more) := by
  induction before with
  | nil => simp [processAll]
  | cons source before ih =>
      simp only [List.cons_append, processAll, ih, bind_assoc, pure_bind, List.append_assoc]

/-- What the sources pull in from the first one on was not processed before, and is not the first
source itself. -/
theorem processAll_cons_assembles (hcwd : Path.isAbsolute ctx.store.cwd = true)
    (hrest : ∀ s, Leads (processAll ctx sources) s fun tokens s' =>
      ∃ passes pulled, Assembled ctx sources s s' tokens passes pulled) :
    Leads (processAll ctx (source :: sources)) s fun tokens s' => ∃ passes pulled,
      Assembled ctx (source :: sources) (mark ctx source.name s) s' tokens passes pulled := by
  rw [processAll]
  refine leads_bind (processFile_processes hcwd source.name source.text s) ?_
  rintro tokens s₁ ⟨own, passes, hown, hpulled, hstream⟩
  refine leads_bind (hrest s₁) ?_
  rintro more s' ⟨passes', pulled, hunit⟩
  refine leads_pure ⟨⟨source, own⟩ :: (passes ++ passes'), passes ++ pulled, ?_⟩
  constructor
  case entered => exact hpulled.trans hunit.entered
  case stream => exact stream_append hstream hunit.stream
  case reads =>
    exact List.forall_mem_cons.2 ⟨hown, List.forall_mem_append.2 ⟨hpulled.reads, hunit.reads⟩⟩
  case complete =>
    simp only [List.map_cons, List.map_append, List.cons_append]
    refine List.Perm.cons _ ?_
    calc passes.map Pass.toSource ++ passes'.map Pass.toSource
        ~ passes.map Pass.toSource ++ (sources ++ pulled.map Pass.toSource) :=
          hunit.complete.append_left _
      _ ~ sources ++ (passes.map Pass.toSource ++ pulled.map Pass.toSource) := by
          rw [← List.append_assoc, ← List.append_assoc]
          exact List.perm_append_comm.append_right _

/-- Each source gives a pass of its own, followed by what it pulls in. -/
theorem processAll_assembles (hcwd : Path.isAbsolute ctx.store.cwd = true) (sources : List Source)
    (s : MacroState) : Leads (processAll ctx sources) s fun tokens s' =>
      ∃ passes pulled, Assembled ctx sources s s' tokens passes pulled := by
  induction sources generalizing s with
  | nil => exact leads_pure ⟨[], [], .refl ctx (.refl s), fun _ => rfl, by simp, by simp⟩
  | cons source sources ih =>
      intro log tokens s' log' hrun
      obtain ⟨passes, pulled, hunit⟩ := processAll_cons_assembles hcwd ih log tokens s' log' hrun
      exact ⟨passes, pulled, hunit.entered.of_mark, hunit.stream, hunit.reads, hunit.complete⟩

section

variable {passes pulled : List Pass}

/-- The paths of the passes are those of the sources and of the files that were pulled in. -/
theorem Assembled.paths (hcwd : Path.isAbsolute ctx.store.cwd = true)
    (h : Assembled ctx sources s s' tokens passes pulled) :
    passes.map (fun pass => ctx.store.absolute pass.name)
      ~ sources.map (fun source => ctx.store.absolute source.name) ++ pulled.map (·.name) := by
  have hself : pulled.map (fun pass => ctx.store.absolute pass.name) = pulled.map (·.name) := by
    refine List.map_congr_left fun pass hpass => ?_
    obtain ⟨name, hname⟩ := h.entered.absolute pass hpass
    rw [hname]
    exact Path.absolute_absolute hcwd name
  have hpaths := h.complete.map fun source => ctx.store.absolute source.name
  rw [List.map_append, List.map_map, List.map_map] at hpaths
  rwa [← hself]

/-- Among passes with different keys each key occurs once. -/
theorem filter_eq_singleton {key : Pass → Text} (hdistinct : (passes.map key).Nodup) {pass : Pass}
    (hpass : pass ∈ passes) : passes.filter (key · = key pass) = [pass] := by
  induction passes with
  | nil => cases hpass
  | cons first rest ih =>
      rw [List.map_cons, List.nodup_cons] at hdistinct
      obtain ⟨hfirst, hrest⟩ := hdistinct
      rcases List.mem_cons.1 hpass with rfl | hpass
      · have hnone : rest.filter (key · = key pass) = [] := by
          simp only [List.filter_eq_nil_iff, decide_eq_true_eq]
          exact fun other hother heq => hfirst (heq ▸ List.mem_map_of_mem hother)
        simp [hnone]
      · have hne : key first ≠ key pass := fun heq => hfirst (heq ▸ List.mem_map_of_mem hpass)
        simpa [hne] using ih hrest hpass

/-- Where no path has two passes, the tokens of a path are those of its only pass. -/
theorem Assembled.filter_path (h : Assembled ctx sources s s' tokens passes pulled)
    (hdistinct : (passes.map fun pass => ctx.store.absolute pass.name).Nodup) {pass : Pass}
    (hpass : pass ∈ passes) :
    tokens.filter (fun t => ctx.store.absolute t.file = ctx.store.absolute pass.name)
      = pass.tokens := by
  have hname {t : Token} (ht : t ∈ tokens) :
      ctx.store.absolute t.file = ctx.store.absolute pass.name ↔ t.file = pass.name := by
    refine ⟨fun hpath => ?_, fun hsame => by rw [hsame]⟩
    -- the token belongs to a pass under its name, and that pass can only be this one
    have hmem : t ∈ tokens.filter (·.file = t.file) := by simp [ht]
    rw [h.stream t.file] at hmem
    obtain ⟨other, hother, -⟩ := List.mem_flatMap.1 hmem
    obtain ⟨hother, hfile⟩ : other ∈ passes ∧ other.name = t.file := by simpa using hother
    have honly := filter_eq_singleton hdistinct hpass
    have hmem' : other ∈ passes.filter fun pass' =>
        ctx.store.absolute pass'.name = ctx.store.absolute pass.name := by
      simp [hother, hfile, hpath]
    rw [honly] at hmem'
    rw [← hfile, List.mem_singleton.1 hmem']
  have hnames : (passes.map (·.name)).Nodup := by
    refine List.Nodup.of_map ctx.store.absolute ?_
    rw [List.map_map]
    exact hdistinct
  calc tokens.filter (fun t => ctx.store.absolute t.file = ctx.store.absolute pass.name)
      = tokens.filter (·.file = pass.name) := List.filter_congr fun t ht => by simp [hname ht]
    _ = (passes.filter (·.name = pass.name)).flatMap (·.tokens) := h.stream pass.name
    _ = pass.tokens := by
        rw [filter_eq_singleton hnames hpass]
        simp

end

/-- A source is a dependency in the end only if it was one when its turn came. -/
theorem mem_dependencies_iff (hcwd : Path.isAbsolute ctx.store.cwd = true) {before after : List Source}
    (hnamed : source.name ≠ []) {earlier : List Token} {middle final : MacroState}
    {log log₁ log' : Log}
    (hbefore : processAll ctx before s log = .ok (earlier, middle) log₁)
    (hrun : processAll ctx (before ++ source :: after) s log = .ok (tokens, final) log') :
    ctx.store.absolute source.name ∈ final.dependencies
      ↔ ctx.store.absolute source.name ∈ middle.dependencies := by
  rw [processAll_append, run_bind, hbefore] at hrun
  simp only [run_bind] at hrun
  cases hafter : processAll ctx (source :: after) middle log₁ with
  | error e log₂ => simp [hafter] at hrun
  | ok r log₂ =>
      obtain ⟨more, final'⟩ := r
      obtain rfl : final' = final := by
        rw [hafter] at hrun
        cases hrun
        rfl
      obtain ⟨passes, pulled, hunit⟩ :=
        processAll_cons_assembles hcwd (processAll_assembles hcwd after) _ _ _ _ hafter
      rw [hunit.entered.dependencies, dependencies_mark, List.mem_append, List.mem_reverse]
      refine or_iff_right ?_
      intro hmem
      obtain ⟨pass, hpass, hname⟩ := List.mem_map.1 hmem
      exact hunit.entered.fresh pass hpass (hname ▸ mem_mark_self hnamed)

/-- How files enter a unit. Processing ends, because includes nest no deeper than there are files.
No file is a dependency twice. The tokens come from passes, one over each source and one over each
dependency; so a path has at most one pass, and its tokens enter once, unless a source is a
dependency as well. A source is one only if the sources before it include it. -/
theorem files_enter_unit (ctx : MacroContext) (hcwd : Path.isAbsolute ctx.store.cwd = true)
    (sources : List Source)
    (hdistinct : (sources.map fun source => ctx.store.absolute source.name).Nodup)
    (s : MacroState) (hdependencies : s.dependencies = []) :
    (∀ bottom, (processWith ctx)^[ctx.store.size + 1] bottom = processFile ctx (ctx.store.size + 1))
    ∧ processWith ctx (processFile ctx (ctx.store.size + 1)) = processFile ctx (ctx.store.size + 1)
    ∧ ∃ tokens final new, Answers (processAll ctx sources) s (tokens, final) new
      ∧ final.dependencies.Nodup
      ∧ (∃ passes pulled, Assembled ctx sources s final tokens passes pulled
        ∧ pulled.map (·.name) = final.dependencies.reverse
        ∧ ((passes.map fun pass => ctx.store.absolute pass.name).Nodup
          ↔ ∀ source ∈ sources, ctx.store.absolute source.name ∉ final.dependencies)
        ∧ ((∀ source ∈ sources, ctx.store.absolute source.name ∉ final.dependencies) →
          ∀ pass ∈ passes, tokens.filter (fun t =>
            ctx.store.absolute t.file = ctx.store.absolute pass.name) = pass.tokens))
      ∧ ∀ before source after earlier middle reports, sources = before ++ source :: after →
        source.name ≠ [] → Answers (processAll ctx before) s (earlier, middle) reports →
        (ctx.store.absolute source.name ∈ final.dependencies
          ↔ ctx.store.absolute source.name ∈ middle.dependencies) := by
  refine ⟨iterate_eq_processFile hcwd, processWith_processFile hcwd, ?_⟩
  obtain ⟨⟨tokens, final⟩, new, hanswers⟩ := faithful_processAll ctx sources s
  -- one run gives all of the passes
  have hrun := hanswers.lenient []
  obtain ⟨passes, pulled, hunit⟩ := processAll_assembles hcwd sources s _ _ _ _ hrun
  have hnames : pulled.map (·.name) = final.dependencies.reverse := by
    simp [hunit.entered.dependencies, hdependencies]
  -- passes over included files differ by what was included, passes over sources by hypothesis; so
  -- only a source that was included can be passed over twice
  have honce : (passes.map fun pass => ctx.store.absolute pass.name).Nodup
      ↔ ∀ source ∈ sources, ctx.store.absolute source.name ∉ final.dependencies := by
    rw [(hunit.paths hcwd).nodup_iff, List.nodup_append, hnames]
    constructor
    · rintro ⟨-, -, hdisjoint⟩ source hsource hmem
      exact hdisjoint _ (List.mem_map_of_mem hsource) _ (List.mem_reverse.2 hmem) rfl
    · intro hsources
      refine ⟨hdistinct, hnames ▸ hunit.entered.distinct, ?_⟩
      rintro path hpath path' hpath' rfl
      obtain ⟨source, hsource, rfl⟩ := List.mem_map.1 hpath
      exact hsources source hsource (List.mem_reverse.1 hpath')
  refine ⟨tokens, final, new, hanswers, ?_, ⟨passes, pulled, hunit, hnames, honce, ?_⟩, ?_⟩
  · rw [← List.nodup_reverse, ← hnames]
    exact hunit.entered.distinct
  · intro hsources pass hpass
    exact hunit.filter_path (honce.2 hsources) hpass
  · -- what is included behind a source is included for good, and the source itself is marked when its
    -- turn comes
    rintro before source after earlier middle reports rfl hnamed hbefore
    exact mem_dependencies_iff hcwd hnamed (hbefore.lenient []) hrun

end

/-- One file in memory. -/
def oneFile : MacroContext :=
  ⟨.memory { cwd := "/", files := [("/u.bar", { content := "int x;" })] }, []⟩

/-- A source that includes the file. -/
def includer : Source := ⟨"main.bar", "#include \"u.bar\"\nint m;"⟩

/-- The file as a source. -/
def includee : Source := ⟨"u.bar", "int x;"⟩

/-- A file that is included first and is a source afterwards has two passes. -/
theorem includee_enters_twice :
    Path.isAbsolute oneFile.store.cwd = true
    ∧ ([includer, includee].map fun source => oneFile.store.absolute source.name).Nodup
    ∧ ∃ tokens final new, Answers (processAll oneFile [includer, includee]) {} (tokens, final) new
      ∧ final.dependencies = ["/u.bar"]
      ∧ ∃ passes pulled, Assembled oneFile [includer, includee] {} final tokens passes pulled
        ∧ ¬ (passes.map fun pass => oneFile.store.absolute pass.name).Nodup := by
  have hdistinct :
      ([includer, includee].map fun source => oneFile.store.absolute source.name).Nodup := by
    decide
  obtain ⟨-, -, tokens, final, new, hanswers, -, ⟨passes, pulled, hunit, -, honce, -⟩, -⟩ :=
    files_enter_unit oneFile rfl [includer, includee] hdistinct {} rfl
  have hdependencies : final.dependencies = ["/u.bar"] := by
    have hcomputed : (match processAll oneFile [includer, includee] {} ⟨false, []⟩ with
        | .ok (_, final) _ => final.dependencies
        | .error _ _ => []) = [("/u.bar" : Text)] := by
      decide +kernel
    rw [hanswers.lenient []] at hcomputed
    exact hcomputed
  refine ⟨rfl, hdistinct, tokens, final, new, hanswers, hdependencies, passes, pulled, hunit, ?_⟩
  intro hnodup
  refine honce.1 hnodup includee (by simp) ?_
  rw [hdependencies]
  decide

end Macros

end TickScript
