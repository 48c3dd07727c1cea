import TickScript.Proofs.Faithful

/-!
# Strict and lenient compilation

A unit can be compiled strictly, so that the first diagnostic ends the compilation, or leniently, so
that all of them are collected. Every stage is faithful, hence the two runs go hand in hand up to the
first report: a strict compilation is a lenient one that was cut off there
(`compile_strict_is_first_of_lenient`). In particular nothing that a lenient compilation does behind
its first diagnostic can bring out another first diagnostic.

The comparison is made for the last stage first, then for the last two and for all three, each time
by cases on whether the stage in front has reported anything: if it has, the strict run ends there,
and what the stages behind it report only comes after (`prefix_diagnostics_compileProgram`); if it
has not, both runs are in the same state and the comparison of the stages behind applies.
-/

namespace TickScript

open Stage

/-! ## What comes first -/

/-- A strict result beside the lenient one of the same unit: the same when nothing was reported, and
otherwise no script and the first report alone. -/
structure Compiled.FirstOf (strict lenient : Compiled) : Prop where
  clean : lenient.diagnostics = [] → strict = lenient ∧ strict.script?.isSome = true
  stopped : ∀ first rest, lenient.diagnostics = first :: rest →
    strict.script? = none ∧ strict.diagnostics = [first]

/-- A run that stopped is the first of any that goes on behind its only report. -/
theorem Compiled.firstOf_of_stopped {strict lenient : Compiled} (first : Diagnostic)
    (hscript : strict.script? = none) (hstrict : strict.diagnostics = [first])
    (hlenient : lenient.diagnostics.head? = some first) : strict.FirstOf lenient where
  clean hnil := by simp [hnil] at hlenient
  stopped other rest hcons := by
    obtain rfl : other = first := by simpa [hcons] using hlenient
    exact ⟨hscript, hstrict⟩

/-! ## Reports stay in front -/

section

variable {options : CompileOptions} {entries : List Diagnostic} {dependencies : List Text}

/-- What was reported before the last stage still comes first behind it. -/
theorem prefix_diagnostics_compileProgram (program : List Decl) : entries.reverse
    <+: (compileProgram options ⟨false, entries⟩ dependencies program).diagnostics := by
  obtain ⟨⟨sections, final⟩, new, hanswers⟩ := Gen.faithful_generate program {}
  have hrun : ((Gen.generate program).run {}).run ⟨false, entries⟩ = _ := hanswers.lenient entries
  simp [compileProgram, hrun, Log.diagnostics]

/-- What was reported before the last two stages still comes first behind them. -/
theorem prefix_diagnostics_compileTokens (tokens : List Token) : entries.reverse
    <+: (compileTokens options ⟨false, entries⟩ dependencies tokens).diagnostics := by
  obtain ⟨⟨program, final⟩, new, hanswers⟩ := Parsing.faithful_program tokens {}
  have hrun : ((Parsing.program tokens).run {}).run ⟨false, entries⟩ = _ := hanswers.lenient entries
  rw [compileTokens, hrun]
  refine List.IsPrefix.trans ?_ (prefix_diagnostics_compileProgram program)
  simp

end

/-- The last report of a list is the head of whatever its reverse is a part in front of. -/
theorem head?_of_reverse_prefix {new diagnostics : List Diagnostic} {first : Diagnostic}
    (hlast : new.getLast? = some first) (h : new.reverse <+: diagnostics) :
    diagnostics.head? = some first := by
  obtain ⟨more, rfl⟩ := h
  simp [List.head?_reverse, hlast]

/-! ## The stages, last first -/

theorem compileProgram_firstOf (options : CompileOptions) (dependencies : List Text)
    (program : List Decl) : (compileProgram options ⟨true, []⟩ dependencies program).FirstOf
      (compileProgram options ⟨false, []⟩ dependencies program) := by
  obtain ⟨⟨sections, final⟩, new, hanswers⟩ := Gen.faithful_generate program {}
  have hstrict : ((Gen.generate program).run {}).run ⟨true, []⟩ = _ := hanswers.strict []
  have hlenient : ((Gen.generate program).run {}).run ⟨false, []⟩ = _ := hanswers.lenient []
  cases hlast : new.getLast? with
  | none =>
      obtain rfl : new = [] := by simpa using hlast
      constructor
      · simp [compileProgram, hstrict, hlenient, Log.diagnostics]
      · simp [compileProgram, hlenient, Log.diagnostics]
  | some first =>
      rw [hlast] at hstrict
      refine Compiled.firstOf_of_stopped first ?_ ?_ ?_
      · simp [compileProgram, hstrict]
      · simp [compileProgram, hstrict, Log.diagnostics]
      · simp [compileProgram, hlenient, Log.diagnostics, hlast]

theorem compileTokens_firstOf (options : CompileOptions) (dependencies : List Text)
    (tokens : List Token) : (compileTokens options ⟨true, []⟩ dependencies tokens).FirstOf
      (compileTokens options ⟨false, []⟩ dependencies tokens) := by
  obtain ⟨⟨program, final⟩, new, hanswers⟩ := Parsing.faithful_program tokens {}
  have hstrict : ((Parsing.program tokens).run {}).run ⟨true, []⟩ = _ := hanswers.strict []
  have hlenient : ((Parsing.program tokens).run {}).run ⟨false, []⟩ = _ := hanswers.lenient []
  cases hlast : new.getLast? with
  | none =>
      obtain rfl : new = [] := by simpa using hlast
      rw [compileTokens, compileTokens, hstrict, hlenient]
      exact compileProgram_firstOf options dependencies program
  | some first =>
      rw [hlast] at hstrict
      refine Compiled.firstOf_of_stopped first ?_ ?_ ?_
      · simp [compileTokens, hstrict]
      · simp [compileTokens, hstrict, Log.diagnostics]
      · rw [compileTokens, hlenient, List.append_nil]
        exact head?_of_reverse_prefix hlast (prefix_diagnostics_compileProgram program)

theorem compile_firstOf (store : FileStore) (options : CompileOptions)
    (sources : List Macros.Source) (history : List Text) :
    (compile store { options with strict := true } sources history).FirstOf
      (compile store { options with strict := false } sources history) := by
  obtain ⟨⟨tokens, final⟩, new, hanswers⟩ :=
    Macros.faithful_processAll ⟨store, options.includePaths⟩ sources { history }
  have hstrict : ((Macros.processAll ⟨store, options.includePaths⟩ sources).run { history }).run
      { strict := true } = _ := hanswers.strict []
  have hlenient : ((Macros.processAll ⟨store, options.includePaths⟩ sources).run { history }).run
      { strict := false } = _ := hanswers.lenient []
  cases hlast : new.getLast? with
  | none =>
      obtain rfl : new = [] := by simpa using hlast
      simp only [compile, hstrict, hlenient]
      -- the stages behind the first one do not look at the option
      exact compileTokens_firstOf options final.dependencies.reverse tokens
  | some first =>
      rw [hlast] at hstrict
      refine Compiled.firstOf_of_stopped first ?_ ?_ ?_
      · simp [compile, hstrict]
      · simp [compile, hstrict, Log.diagnostics]
      · simp only [compile, hlenient, List.append_nil]
        exact head?_of_reverse_prefix hlast (prefix_diagnostics_compileTokens tokens)

/-! ## Whole units -/

/-- Strict compilation is the first step of lenient compilation. Let a unit be compiled both ways. If
the lenient compilation has no diagnostic, the strict one has the same script, names and
dependencies, and there is a script. Otherwise the strict one has no script and exactly one
diagnostic, the first of the lenient one. -/
theorem compile_strict_is_first_of_lenient (store : FileStore) (options : CompileOptions)
    (sources : List Macros.Source) (history : List Text) :
    let strict := compile store { options with strict := true } sources history
    let lenient := compile store { options with strict := false } sources history
    (lenient.diagnostics = [] → strict.diagnostics = [] ∧ strict.script?.isSome = true
      ∧ strict.script? = lenient.script? ∧ strict.names = lenient.names
      ∧ strict.dependencies = lenient.dependencies ∧ strict.program = lenient.program)
    ∧ (∀ first rest, lenient.diagnostics = first :: rest →
      strict.script? = none ∧ strict.diagnostics = [first]) := by
  intro strict lenient
  have hfirst : strict.FirstOf lenient := compile_firstOf store options sources history
  refine ⟨fun hnil => ?_, hfirst.stopped⟩
  obtain ⟨heq, hscript⟩ := hfirst.clean hnil
  rw [heq] at hscript ⊢
  exact ⟨hnil, hscript, rfl, rfl, rfl, rfl⟩

/-- A unit with a mistake for each stage: an unknown directive, a variable without a type that holds
values, and one that is declared twice. -/
def mistakes : Macros.Source :=
  ⟨"main.bar", "#once\nint a; void b; int a;"⟩

/-- The mistakes of all three stages are collected in order and the strict run has the first of them;
a unit without mistakes has its script either way. -/
theorem mistakes_strict_first :
    (compile (.memory { cwd := "/" }) {} [mistakes]).diagnostics
      = [⟨"main.bar", 1, .unknownDirective "once"⟩, ⟨"main.bar", 2, .voidVariable⟩,
        ⟨"main.bar", 2, .redeclared "a"⟩]
    ∧ (compile (.memory { cwd := "/" }) { strict := true } [mistakes]).script? = none
    ∧ (compile (.memory { cwd := "/" }) { strict := true } [mistakes]).diagnostics
      = [⟨"main.bar", 1, .unknownDirective "once"⟩]
    ∧ (compile (.memory { cwd := "/" }) { strict := true }
      [⟨"main.bar", "int a;"⟩]).script?.isSome = true := by
  have hall : (compile (.memory { cwd := "/" }) {} [mistakes]).diagnostics
      = [⟨"main.bar", 1, .unknownDirective "once"⟩, ⟨"main.bar", 2, .voidVariable⟩,
        ⟨"main.bar", 2, .redeclared "a"⟩] := by
    decide +kernel
  have hnone : (compile (.memory { cwd := "/" }) {} [⟨"main.bar", "int a;"⟩]).diagnostics = [] := by
    decide +kernel
  have hstopped :=
    (compile_strict_is_first_of_lenient (.memory { cwd := "/" }) {} [mistakes] []).2 _ _ hall
  have hclean := (compile_strict_is_first_of_lenient (.memory { cwd := "/" }) {}
    [⟨"main.bar", "int a;"⟩] []).1 hnone
  exact ⟨hall, hstopped.1, hstopped.2, hclean.2.1⟩

end TickScript
