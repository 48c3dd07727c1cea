import TickScript.Proofs.Expr.Termination
import TickScript.Proofs.Faithful
import TickScript.Proofs.Inclusion
import TickScript.Proofs.Stmt.Termination

/-!
# Compiling comes to an end

Three recursions of a compilation do not follow their data: files include files, the readers of
statements go on behind mistakes, and the readers of expressions call each other. Each of them ends
before its bottom, so the fuel that the definitions carry is never used up (`Parsing.Ends`), and it
ends because every round takes a token (`Parsing.Consumes`). The stages have no way to break off but
the first report to a strict log; in particular they never break down (`compile_unbroken`). So a
script comes out exactly when nothing was reported.

The fuel is a device of the definitions and has no counterpart in the program, so it is not enough
that the functions answer. `ends` says that a recursion may be given any bottom at all without its
answer changing, which no recursion that ran out would satisfy; `consumes` says what each round
takes, and that is the reason. Breaking down is a third way to end, for the steps of the program
that need something of their data which is not checked at the place. That no compilation takes it is
the conjunction of what `Proofs.Faithful` and `Proofs.Codegen.Unbroken` say of the stages.
-/

namespace TickScript

open Stage

namespace Parsing

/-- Reading ends before the bottom of its recursions, whatever stands there. -/
structure Ends : Prop where
  /-- After more rounds than there are tokens, reading declarations does not depend on the bottom. -/
  declarations : ∀ tokens rounds bottom, tokens.length < rounds →
    program tokens = (declarationsWith (.ofTokens [] tokens))^[rounds] bottom tokens
  /-- Neither do the statements of a body, after as many levels as its tokens can need. -/
  statements : ∀ function tokens levels bottom, 3 * tokens.length + 2 ≤ levels →
    body function tokens
      = (Readers.next^[levels] bottom).statements (.ofTokens function tokens) tokens
  /-- Neither does an expression, after as many levels as its tokens can need. -/
  expressions : ∀ final least tokens levels bottom, 2 * tokens.length + 1 ≤ levels →
    Expr.readFrom final (4 * tokens.length + 4) least tokens
      = ((Expr.Readers.next final)^[levels] bottom).from_ least tokens

theorem ends : Ends where
  declarations tokens rounds bottom hrounds :=
    declarations_eq_iterate _ (Nat.le_refl tokens.length) hrounds bottom
  statements function tokens levels bottom hlevels := by
    have hfuel : 3 * tokens.length + 2 ≤ 8 * tokens.length + 8 := by omega
    exact ((agree_fuelled hfuel hlevels bottom).statements _ tokens (Nat.le_refl _)).same
  expressions final least tokens levels bottom hlevels :=
    (Expr.settled_readFrom final least tokens (by omega) hlevels bottom).same

/-- What every round of reading takes, whether or not it reports something. -/
structure Consumes : Prop where
  declaration : ∀ ctx t rest s log decl? behind s' log',
    declaration ctx t rest s log = .ok ((decl?, behind), s') log' → behind <:+ rest
  /-- For the fuel that is left when a round of the loop over statements begins. -/
  statement : ∀ ctx fuel t rest s log stmts behind s' log', 3 * (t :: rest).length + 1 ≤ fuel →
    statement ctx fuel (t :: rest) s log = .ok ((stmts, behind), s') log' → behind <:+ rest
  recovery : ∀ t rest, recover (t :: rest) <:+ rest
  /-- The inside of a block is read on its own, and is shorter than the block. -/
  block : ∀ opening rest,
    (braced rest).1.length < (opening :: rest).length ∧ (braced rest).2.1 <:+ rest
  expression : ∀ final fuel least tokens e behind, 2 * tokens.length + 1 ≤ fuel →
    Expr.readFrom final fuel least tokens = .ok (e, behind) → ∃ t rest, tokens = t :: rest
      ∧ behind <:+ rest

theorem consumes : Consumes where
  declaration ctx t rest s log decl? behind s' log' hrun :=
    (settled_declaration ctx t rest).post s log (decl?, behind) s' log' hrun
  statement ctx fuel t rest s log stmts behind s' log' hfuel hrun := by
    have hagree := agree_fuelled hfuel hfuel (Readers.fuelled 0)
    exact (hagree.statement ctx (t :: rest) (Nat.le_refl _)).post s log (stmts, behind) s' log' hrun
  recovery t rest := recover_suffix (t :: rest)
  block opening rest := by
    obtain ⟨hbehind, hinner⟩ := braced_suffix rest
    exact ⟨Nat.lt_succ_of_le hinner, hbehind⟩
  expression final fuel least tokens e behind hfuel hread := by
    have hbehind := (Expr.settled_readFrom final least tokens hfuel hfuel
      (Expr.Readers.fuelled final 0)).post (e, behind) hread
    cases tokens with
    | nil =>
        -- no fuel makes an expression of nothing
        cases fuel <;> cases hread
    | cons t rest => exact ⟨t, rest, rfl, hbehind⟩

end Parsing

/-! ## When there is a script -/

/-- A faithful stage breaks off only where a strict log makes it, at something that was reported. -/
theorem Stage.Faithful.reported {σ α : Type} {x : Stage σ α} (hx : Faithful x) {s : σ} {log log' : Log}
    {e : Stopped} (hrun : x s log = .error e log') : e = .reported ∧ log'.entries ≠ [] := by
  obtain ⟨r, new, hlenient, hstrict⟩ := hx s
  obtain ⟨strict, entries⟩ := log
  cases strict with
  | false =>
      rw [hlenient] at hrun
      cases hrun
  | true =>
      rw [hstrict] at hrun
      cases hlast : new.getLast? with
      | none => simp [hlast] at hrun
      | some first =>
          rw [hlast] at hrun
          cases hrun
          exact ⟨rfl, List.cons_ne_nil _ _⟩

theorem compileProgram_script_iff (options : CompileOptions) (log : Log) (dependencies : List Text)
    (program : List Decl) :
    (compileProgram options log dependencies program).script?.isSome = true
      ↔ (compileProgram options log dependencies program).diagnostics = [] := by
  rw [compileProgram]
  split
  · next e log' hrun =>
      have hreported := ((Gen.faithful_generate program).reported hrun).2
      simpa [Log.diagnostics] using hreported
  · next sections state log' hrun =>
      by_cases hempty : log'.entries = []
      · simp [hempty, Log.diagnostics]
      · simp [hempty, Log.diagnostics]

theorem compileTokens_script_iff (options : CompileOptions) (log : Log) (dependencies : List Text)
    (tokens : List Token) :
    (compileTokens options log dependencies tokens).script?.isSome = true
      ↔ (compileTokens options log dependencies tokens).diagnostics = [] := by
  rw [compileTokens]
  split
  · next e log' hrun =>
      have hreported := ((Parsing.faithful_program tokens).reported hrun).2
      simpa [Log.diagnostics] using hreported
  · exact compileProgram_script_iff _ _ _ _

theorem compile_script_iff (store : FileStore) (options : CompileOptions)
    (sources : List Macros.Source) (history : List Text) :
    (compile store options sources history).script?.isSome = true
      ↔ (compile store options sources history).diagnostics = [] := by
  rw [compile]
  split
  · next e log' hrun =>
      have hreported := ((Macros.faithful_processAll _ sources).reported hrun).2
      simpa [Log.diagnostics] using hreported
  · exact compileTokens_script_iff _ _ _ _

/-! ## No break-down -/

theorem compileProgram_unbroken (options : CompileOptions) (log : Log) (dependencies : List Text)
    (program : List Decl) : (compileProgram options log dependencies program).breakdown? = none := by
  rw [compileProgram]
  split
  · next e log' hrun =>
      obtain rfl := ((Gen.faithful_generate program).reported hrun).1
      rfl
  · rfl

theorem compileTokens_unbroken (options : CompileOptions) (log : Log) (dependencies : List Text)
    (tokens : List Token) : (compileTokens options log dependencies tokens).breakdown? = none := by
  rw [compileTokens]
  split
  · next e log' hrun =>
      obtain rfl := ((Parsing.faithful_program tokens).reported hrun).1
      rfl
  · exact compileProgram_unbroken _ _ _ _

theorem compile_unbroken (store : FileStore) (options : CompileOptions)
    (sources : List Macros.Source) (history : List Text) :
    (compile store options sources history).breakdown? = none := by
  rw [compile]
  split
  · next e log' hrun =>
      obtain rfl := ((Macros.faithful_processAll _ sources).reported hrun).1
      rfl
  · exact compileTokens_unbroken _ _ _ _

/-- Compiling comes to an end on every list of sources and every set of files, strictly or not.
Includes nest no deeper than there are files; reading ends before the bottom of its recursions, since
every round takes a token; a stage either answers or has stopped at its first report to a strict log;
so nothing is looked up behind the end of a list and nothing is taken for what it is not; and a script
comes out exactly when nothing was reported. -/
theorem compile_ends_cleanly (store : FileStore) (hcwd : Path.isAbsolute store.cwd = true)
    (options : CompileOptions) (sources : List Macros.Source) (history : List Text) :
    (∀ bottom, (Macros.processWith ⟨store, options.includePaths⟩)^[store.size + 1] bottom
      = Macros.processFile ⟨store, options.includePaths⟩ (store.size + 1))
    ∧ Parsing.Ends ∧ Parsing.Consumes
    ∧ Faithful (Macros.processAll ⟨store, options.includePaths⟩ sources)
    ∧ (∀ tokens, Faithful (Parsing.program tokens))
    ∧ (∀ program, Faithful (Gen.generate program))
    ∧ (compile store options sources history).breakdown? = none
    ∧ ((compile store options sources history).script?.isSome = true
      ↔ (compile store options sources history).diagnostics = []) := by
  refine ⟨?_, Parsing.ends, Parsing.consumes, ?_, ?_, ?_, ?_, ?_⟩
  · intro bottom
    exact @Macros.iterate_eq_processFile ⟨store, options.includePaths⟩ hcwd bottom
  · exact Macros.faithful_processAll _ sources
  · exact Parsing.faithful_program
  · exact Gen.faithful_generate
  · exact compile_unbroken store options sources history
  · exact compile_script_iff store options sources history

/-- Blocks and parentheses that are never closed, and statements that break off. -/
def unbalanced : Macros.Source :=
  ⟨"main.bar", "define f(int a) \x7b else do x; \x7b if (a) \x7b field; while ( \x7d for (;) do a b;
    define"⟩

/-- Every mistake of such a source is found and there is no script, strictly or not. -/
theorem unbalanced_ends_cleanly : Path.isAbsolute (FileStore.memory { cwd := "/" }).cwd = true
    ∧ (compile (.memory { cwd := "/" }) {} [unbalanced]).diagnostics.length = 8
    ∧ (compile (.memory { cwd := "/" }) {} [unbalanced]).breakdown? = none
    ∧ (compile (.memory { cwd := "/" }) {} [unbalanced]).script?.isSome = false
    ∧ (compile (.memory { cwd := "/" }) { strict := true } [unbalanced]).script?.isSome = false := by
  have hcwd : Path.isAbsolute (FileStore.memory { cwd := "/" }).cwd = true := by decide
  obtain ⟨-, -, -, -, -, -, hunbroken, hlenient⟩ :=
    compile_ends_cleanly (.memory { cwd := "/" }) hcwd {} [unbalanced] []
  obtain ⟨-, -, -, -, -, -, -, hstrict⟩ :=
    compile_ends_cleanly (.memory { cwd := "/" }) hcwd { strict := true } [unbalanced] []
  have hcount : (compile (.memory { cwd := "/" }) {} [unbalanced]).diagnostics.length = 8 := by
    decide +kernel
  refine ⟨hcwd, hcount, hunbroken, ?_, ?_⟩
  · rw [Bool.eq_false_iff, ne_eq, hlenient]
    intro hnone
    rw [hnone] at hcount
    cases hcount
  · rw [Bool.eq_false_iff, ne_eq, hstrict]
    decide +kernel

end TickScript
