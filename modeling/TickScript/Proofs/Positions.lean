import TickScript.Proofs.Codegen.Area
import TickScript.Proofs.Inclusion
import TickScript.Proofs.Stmt.Area
import TickScript.Proofs.Strictness
import TickScript.Proofs.Token.Lines

/-!
# Diagnostics point into the unit

A diagnostic has the place of the token that it is about, and every token that a stage deals with
has the place of a token that was read from a file of the unit: a source, or a file that was
included by then. Files are only added, so what lies in the unit goes on lying in it, and the first
stage is followed file by file and line by line. The replacement of macros keeps every place, since
the tokens of a definition take over the position of the use, whatever position they were defined
at. The stages behind are confined to the area of the tokens that they are handed.

A strict compilation that stops among the directives does not answer which files were included. The
unit is therefore that of the compilation which goes on behind its diagnostics.

Three kinds of statement are carried through the stages. `Holds` is about single tokens and their
file; `Makes` is about a list of tokens and allows macros to have been replaced in between;
`StaysInUnit` adds what is reported and the files that were included. The first of them becomes a
statement about lines (`UnitFiles.area`), since that is the form in which the parser and the
generator are followed.
-/

namespace TickScript

open Stage Macros

namespace Macros

variable {A : Area} {ctx : MacroContext} {s s' : MacroState}

/-! ## Macros -/

/-- What becomes of a token where macros are replaced: it stays, or it names a macro, and then the
tokens of the replacement stand in its place. -/
def Replaces (macros : Table Text (List Token)) (t : Token) (block : List Token) : Prop :=
  block = [t] ∨ t.kind = .text ∧ ∃ replacement, macros.get? t.text = some replacement
    ∧ block.map (fun r => (r.kind, r.text)) = replacement.map (fun r => (r.kind, r.text))
    ∧ ∀ r ∈ block, r.file = t.file ∧ r.line = t.line

/-- Substitution replaces each token by a block of its own. -/
theorem substitute_blocks (macros : Table Text (List Token)) (inString : Bool)
    (tokens : List Token) : ∃ blocks, substitute macros inString tokens = blocks.flatten
      ∧ List.Forall₂ (Replaces macros) tokens blocks := by
  induction tokens generalizing inString with
  | nil => exact ⟨[], rfl, .nil⟩
  | cons t rest ih =>
      unfold substitute
      dsimp only
      generalize (if t.kind = .quote then !inString else inString) = inString'
      obtain ⟨blocks, heq, hblocks⟩ := ih inString'
      have hkept : t :: substitute macros inString' rest = ([t] :: blocks).flatten := by
        simp [heq]
      split
      · next replacement hfound =>
          split
          · exact ⟨[t] :: blocks, hkept, .cons (.inl rfl) hblocks⟩
          · next hname =>
              have hkind : t.kind = .text := by
                simp only [Bool.or_eq_true, decide_eq_true_eq, not_or, not_not] at hname
                exact hname.2
              have hmoved : Replaces macros t
                  (replacement.map fun r => { r with line := t.line, file := t.file }) := by
                refine .inr ⟨hkind, replacement, hfound, ?_, ?_⟩
                · simp [Function.comp_def]
                · simp
              exact ⟨_ :: blocks, by rw [heq, List.flatten_cons], .cons hmoved hblocks⟩
      · exact ⟨[t] :: blocks, hkept, .cons (.inl rfl) hblocks⟩

/-- The replacement of a macro stands where the macro was used, wherever it was defined. -/
theorem liesIn_of_replaces {macros : Table Text (List Token)} {t : Token} {block : List Token}
    (h : Replaces macros t block) (ht : LiesIn A t) : LiesIn A block := by
  rcases h with rfl | ⟨-, -, -, -, hplace⟩
  · exact liesIn_cons.2 ⟨ht, liesIn_nil⟩
  · intro r hr
    show A r.file r.line
    rw [(hplace r hr).1, (hplace r hr).2]
    exact ht

/-- What comes from tokens of the area lies in it. -/
theorem liesIn_flatten {Q : Token → List Token → Prop} {tokens : List Token}
    {blocks : List (List Token)} (h : List.Forall₂ Q tokens blocks)
    (hQ : ∀ t block, Q t block → LiesIn A t → LiesIn A block) (htokens : LiesIn A tokens) :
    LiesIn A blocks.flatten := by
  induction h with
  | nil => exact liesIn_nil
  | cons hblock _ ih =>
      obtain ⟨ht, hrest⟩ := liesIn_cons.1 htokens
      rw [List.flatten_cons]
      exact liesIn_append.2 ⟨hQ _ _ hblock ht, ih hrest⟩

end Macros

/-! ## The files of a unit -/

/-- Where the texts of a unit are. -/
structure UnitFiles where
  store : FileStore
  sources : List Source
  /-- The paths of the files that were included. -/
  dependencies : List Text

namespace UnitFiles

/-- A text of the unit under its name: a source, or what the store holds for an included file. -/
def Has (u : UnitFiles) (name content : Text) : Prop :=
  ⟨name, content⟩ ∈ u.sources
    ∨ name ∈ u.dependencies ∧ ∃ history, u.store.read history name = .ok content

/-- The token was read from a file of the unit. -/
def Holds (u : UnitFiles) (t : Token) : Prop :=
  ∃ content, u.Has t.file content ∧ ∃ t' ∈ tokenize content, t = { t' with file := t.file }

/-- The tokens are made of tokens that were read from files of the unit: each of these stays, or is
the name of a macro and gives its place to the replacement. -/
def Makes (u : UnitFiles) (tokens : List Token) : Prop :=
  ∃ uses blocks, tokens = blocks.flatten ∧ (∀ use ∈ uses, u.Holds use)
    ∧ List.Forall₂ (fun use block => ∃ macros, Replaces macros use block) uses blocks

/-- The lines of the unit on which some token was read. -/
def area (u : UnitFiles) : Area := fun file line =>
  ∃ content, u.Has file content ∧ ∃ t ∈ tokenize content, t.line = line

variable {u v : UnitFiles} {t : Token} {tokens more : List Token} {file content : Text} {line : Int}

/-- Such a line is one that the file has. -/
theorem area_bounds (h : u.area file line) :
    ∃ content, u.Has file content ∧ 1 ≤ line ∧ line ≤ (Text.splitOn 0x0A content).length
      ∧ ∃ t ∈ tokenize content, t.line = line := by
  obtain ⟨content, hhas, t, ht, rfl⟩ := h
  obtain ⟨hfirst, hlast⟩ := line_of_mem_tokenize ht
  exact ⟨content, hhas, hfirst, hlast, t, ht, rfl⟩

/-- A token of a file of the unit lies in the unit. -/
theorem Holds.liesIn (h : u.Holds t) : LiesIn u.area t := by
  obtain ⟨content, hhas, t', ht', heq⟩ := h
  exact ⟨content, hhas, t', ht', (congrArg Token.line heq).symm⟩

theorem Makes.liesIn (h : u.Makes tokens) : LiesIn u.area tokens := by
  obtain ⟨uses, blocks, rfl, huses, hblocks⟩ := h
  refine liesIn_flatten hblocks ?_ fun use huse => (huses use huse).liesIn
  rintro use block ⟨macros, hreplaces⟩ huse
  exact liesIn_of_replaces hreplaces huse

theorem makes_nil (u : UnitFiles) : u.Makes [] := ⟨[], [], rfl, by simp, .nil⟩

/-- Files make their tokens one after the other. -/
theorem Makes.append (h : u.Makes tokens) (h' : u.Makes more) : u.Makes (tokens ++ more) := by
  obtain ⟨uses, blocks, rfl, huses, hblocks⟩ := h
  obtain ⟨uses', blocks', rfl, huses', hblocks'⟩ := h'
  refine ⟨uses ++ uses', blocks ++ blocks', List.flatten_append.symm, ?_, ?_⟩
  · exact List.forall_mem_append.2 ⟨huses, huses'⟩
  · exact List.rel_append hblocks hblocks'

/-- What a line contributes is made of its tokens. -/
theorem makes_ownTokens (macros : Table Text (List Token)) {line : List Token}
    (h : ∀ t ∈ line, u.Holds t) : u.Makes (ownTokens macros line) := by
  cases line with
  | nil => exact u.makes_nil
  | cons first rest =>
      simp only [ownTokens]
      split
      · exact u.makes_nil
      · obtain ⟨blocks, heq, hblocks⟩ := substitute_blocks macros false (first :: rest)
        exact ⟨first :: rest, blocks, heq, h, hblocks.imp fun _ _ hreplaces => ⟨macros, hreplaces⟩⟩

/-- A text of the unit holds the tokens of its lines. -/
theorem holds_fileLines (h : u.Has file content) :
    ∀ line ∈ fileLines file content, ∀ t ∈ line, u.Holds t := by
  intro line hline t ht
  obtain ⟨tokens, htokens, rfl⟩ := List.mem_map.1 hline
  obtain ⟨t', ht', rfl⟩ := List.mem_map.1 ht
  exact ⟨content, h, t', List.mem_flatten.2 ⟨tokens, htokens, ht'⟩, rfl⟩

/-! ## Units grow -/

/-- The second unit has at least the files of the first. -/
structure Extends (v u : UnitFiles) : Prop where
  /-- The same files can be read. -/
  store : u.store = v.store
  /-- The same sources are given. -/
  sources : u.sources = v.sources
  /-- Dependencies may have been added. -/
  dependencies : u.dependencies ⊆ v.dependencies

variable (hext : v.Extends u)

include hext

/-- A unit that has grown has the files that it had. -/
theorem Extends.has (h : u.Has file content) : v.Has file content := by
  rcases h with hsource | ⟨hmem, history, hread⟩
  · exact .inl (hext.sources ▸ hsource)
  · exact .inr ⟨hext.dependencies hmem, history, hext.store ▸ hread⟩

theorem Extends.holds (h : u.Holds t) : v.Holds t := by
  obtain ⟨content, hhas, hread⟩ := h
  exact ⟨content, hext.has hhas, hread⟩

theorem Extends.makes (h : u.Makes tokens) : v.Makes tokens := by
  obtain ⟨uses, blocks, heq, huses, hblocks⟩ := h
  exact ⟨uses, blocks, heq, fun use huse => hext.holds (huses use huse), hblocks⟩

theorem Extends.reports {new : List Diagnostic} (h : LiesIn u.area new) : LiesIn v.area new := by
  intro d hd
  obtain ⟨content, hhas, hline⟩ := h d hd
  exact ⟨content, hext.has hhas, hline⟩

end UnitFiles

namespace Macros

open UnitFiles

variable {A : Area} {ctx : MacroContext} {s s' : MacroState} {sources : List Source}

/-- Expansion gives tokens the place of the one that they stand for. -/
theorem confined_expand {tokens : List Token} (h : LiesIn A tokens) :
    Confined A (expand tokens) := by
  refine points_of_silent (fun s => (substitute s.macros false tokens, s)) (fun _ _ => rfl) ?_
  intro s
  obtain ⟨blocks, heq, hblocks⟩ := substitute_blocks s.macros false tokens
  rw [heq]
  exact liesIn_flatten hblocks (fun _ _ => liesIn_of_replaces) h

/-! ## Directives -/

theorem pointsInto_read (path : Text) : PointsInto A (read ctx path) :=
  points_of_silent (fun s => (ctx.store.read s.history path,
    { s with history := ctx.store.absolute path :: s.history })) (fun _ _ => rfl) fun _ => trivial

theorem pointsInto_firstReadable (paths : List Text) : PointsInto A (firstReadable ctx paths) := by
  induction paths with
  | nil => exact pointsInto_pure _
  | cons path rest ih =>
      refine pointsInto_bind (pointsInto_read path) fun content => ?_
      cases content with
      | ok content => exact pointsInto_pure _
      | error fault => exact ih

theorem pointsInto_define {hash : Token} (hhash : LiesIn A hash) (operands : List Token) :
    PointsInto A (define hash operands) := by
  unfold define
  split
  · next name body =>
      split
      · have hexpand : PointsInto A (expand body) :=
          points_of_silent (fun s => (substitute s.macros false body, s)) (fun _ _ => rfl) fun _ =>
            trivial
        exact pointsInto_bind hexpand fun _ => pointsInto_modify _
      · exact pointsInto_report hhash
  · exact pointsInto_report hhash

theorem pointsInto_undefine {hash : Token} (hhash : LiesIn A hash) (operands : List Token) :
    PointsInto A (undefine hash operands) := by
  unfold undefine
  split
  · exact pointsInto_modify _
  · exact pointsInto_report hhash

section

variable {process : FileReader} (hprocess : ∀ file source, Confined A (process file source))

include hprocess

/-- What goes wrong with an inclusion is reported at the path. -/
theorem confined_includeFile (file : Text) {path : Token} (hpath : LiesIn A path) :
    Confined A (includeFile ctx process file path) := by
  have hrefuse (cause : Cause) :
      Confined A (liftM (report path cause) >>= fun _ => pure [] : Macros (List Token)) :=
    confined_bind (confined_report hpath) fun _ _ => confined_pure liesIn_nil
  unfold includeFile
  refine (pointsInto_firstReadable _).bind_confined fun found? => ?_
  split
  · exact hrefuse _
  · refine pointsInto_get.bind_confined fun s => ?_
    split
    · exact confined_pure liesIn_nil
    · refine (pointsInto_read _).bind_confined fun content => ?_
      split
      · exact hrefuse _
      · exact (pointsInto_modify _).bind_confined fun _ => hprocess _ _

/-- Each directive reports at its hash or at its operands. -/
theorem confined_directive (file : Text) {hash : Token} {operands : List Token}
    (hhash : LiesIn A hash) (hoperands : LiesIn A operands) :
    Confined A (directive ctx process file hash operands) := by
  have hrefuse (cause : Cause) :
      Confined A (liftM (report hash cause) >>= fun _ => pure [] : Macros (List Token)) :=
    confined_bind (confined_report hhash) fun _ _ => confined_pure liesIn_nil
  have hnothing {x : Macros Unit} (hx : PointsInto A x) :
      Confined A (x >>= fun _ => pure ([] : List Token)) :=
    hx.bind_confined fun _ => confined_pure liesIn_nil
  cases operands with
  | nil => exact hrefuse _
  | cons word operands =>
      have hoperand : LiesIn A (includeOperand? operands) := by
        unfold includeOperand?
        split
        · next opening path closing =>
            simp only [liesIn_cons] at hoperands
            split
            · exact liesIn_some.2 hoperands.2.2.1
            · exact liesIn_none
        · exact liesIn_none
      simp only [directive]
      split
      · exact hnothing (pointsInto_define hhash operands)
      · split
        · exact hnothing (pointsInto_undefine hhash operands)
        · split
          · split
            · next path hfound =>
                rw [hfound] at hoperand
                exact confined_includeFile hprocess file (liesIn_some.1 hoperand)
            · exact hrefuse _
          · exact hrefuse _

theorem confined_processLine (file : Text) {line : List Token} (hline : LiesIn A line) :
    Confined A (processLine ctx process file line) := by
  cases line with
  | nil => exact confined_expand hline
  | cons first operands =>
      obtain ⟨hfirst, hoperands⟩ := liesIn_cons.1 hline
      simp only [processLine]
      split
      · exact confined_directive hprocess file hfirst hoperands
      · exact confined_expand hline

end

/-! ## Files -/

/-- The unit so far: its sources and the files that were included up to a state. -/
def unitAt (ctx : MacroContext) (sources : List Source) (s : MacroState) : UnitFiles :=
  ⟨ctx.store, sources, s.dependencies⟩

theorem unitAt_extends (h : s.dependencies ⊆ s'.dependencies) :
    (unitAt ctx sources s').Extends (unitAt ctx sources s) := ⟨rfl, rfl, h⟩

/-- In a state, a stage only adds to the files of the unit; the unit makes the tokens that the stage
answers and has a place for what it reports. -/
def StaysInUnit (ctx : MacroContext) (sources : List Source) (x : Macros (List Token))
    (s : MacroState) : Prop :=
  ∃ r new, Answers x s r new ∧ s.dependencies ⊆ r.2.dependencies
    ∧ (unitAt ctx sources r.2).Makes r.1 ∧ LiesIn (unitAt ctx sources r.2).area new

section

variable {x y : Macros (List Token)}

/-- Nothing stays in every unit. -/
theorem staysInUnit_nil : StaysInUnit ctx sources (pure []) s :=
  ⟨([], s), [], ⟨fun _ => rfl, fun _ => rfl⟩, fun _ => id, makes_nil _, liesIn_nil⟩

/-- The unit grows from one stage to the next, so what was in it stays in it. -/
theorem StaysInUnit.append (hx : StaysInUnit ctx sources x s)
    (hy : ∀ s', s.dependencies ⊆ s'.dependencies → StaysInUnit ctx sources y s') :
    StaysInUnit ctx sources (x >>= fun first => y >>= fun more => pure (first ++ more)) s := by
  obtain ⟨⟨first, s₁⟩, new, hx, hsub, hfirst, hnew⟩ := hx
  obtain ⟨⟨more, s₂⟩, new', hy, hsub', hmore, hnew'⟩ := hy s₁ hsub
  have hext : (unitAt ctx sources s₂).Extends (unitAt ctx sources s₁) := unitAt_extends hsub'
  have hpure : Answers (pure (first ++ more) : Macros (List Token)) s₂ (first ++ more, s₂) [] :=
    ⟨fun _ => rfl, fun _ => rfl⟩
  refine ⟨(first ++ more, s₂), ([] ++ new') ++ new, hx.bind (hy.bind hpure), ?_, ?_, ?_⟩
  · exact List.Subset.trans hsub hsub'
  · exact (hext.makes hfirst).append hmore
  · exact liesIn_append.2 ⟨hnew', hext.reports hnew⟩

/-- Files of the unit are processed without leaving it. -/
def KeepsUnit (ctx : MacroContext) (sources : List Source) (process : FileReader) : Prop :=
  ∀ {name content s}, (unitAt ctx sources s).Has name content →
    StaysInUnit ctx sources (process name content) s

variable {process : FileReader} (hprocess : KeepsUnit ctx sources process)

include hprocess

/-- A line gives tokens of its own or those of a file that it includes. -/
theorem processLine_staysInUnit (file : Text) {line : List Token}
    (hline : ∀ t ∈ line, (unitAt ctx sources s).Holds t) :
    StaysInUnit ctx sources (processLine ctx process file line) s := by
  rcases processLine_cases ctx file line s with ⟨hsame, hleads⟩
      | ⟨found, content, s₁, hentrance, -, hrun⟩
  · -- no other file is looked at, so each may as well be processed as an empty one
    let empty : FileReader := fun _ _ => pure []
    have hempty (file source : Text) : Confined (unitAt ctx sources s).area (empty file source) :=
      confined_pure liesIn_nil
    have hconfined : Confined (unitAt ctx sources s).area (processLine ctx empty file line) :=
      confined_processLine hempty file fun t ht => (hline t ht).liesIn
    have hfaithful : Faithful (processLine ctx empty file line) :=
      faithful_processLine (fun _ _ => faithful_pure _) file line
    obtain ⟨⟨tokens, s₁⟩, new, hanswers, -, hnew⟩ := hconfined.answers hfaithful s
    have hrun : processLine ctx process file line s = processLine ctx empty file line s :=
      hsame process empty
    obtain ⟨⟨-, hdependencies⟩, macros, rfl⟩ := hleads empty _ _ _ _ (hanswers.lenient [])
    have hunit : unitAt ctx sources s₁ = unitAt ctx sources s := by
      rw [unitAt, unitAt, hdependencies]
    refine ⟨(ownTokens macros line, s₁), new, ⟨fun entries => ?_, fun entries => ?_⟩, ?_, ?_, ?_⟩
    · rw [hrun, hanswers.lenient]
    · rw [hrun, hanswers.strict]
    · exact fun _ hmem => hdependencies ▸ hmem
    · rw [hunit]
      exact makes_ownTokens macros hline
    · rwa [hunit]
  · -- the file becomes a dependency before it is processed
    have hmem : found ∈ s₁.dependencies := by
      rw [hentrance.dependencies]
      exact List.mem_cons_self
    have hhas : (unitAt ctx sources s₁).Has found content := .inr ⟨hmem, hentrance.readable⟩
    obtain ⟨r, new, hanswers, hsub, hr, hnew⟩ := hprocess hhas
    refine ⟨r, new, ⟨fun entries => ?_, fun entries => ?_⟩, ?_, hr, hnew⟩
    · rw [hrun, hanswers.lenient]
    · rw [hrun, hanswers.strict]
    · intro path hpath
      apply hsub
      rw [hentrance.dependencies]
      exact List.mem_cons_of_mem found hpath

/-- Line by line. -/
theorem processLines_staysInUnit (file : Text) (lines : List (List Token))
    (hlines : ∀ line ∈ lines, ∀ t ∈ line, (unitAt ctx sources s).Holds t) :
    StaysInUnit ctx sources (processLines ctx process file lines) s := by
  induction lines generalizing s with
  | nil => exact staysInUnit_nil
  | cons line rest ih =>
      rw [processLines_cons]
      obtain ⟨hline, hrest⟩ := List.forall_mem_cons.1 hlines
      refine (processLine_staysInUnit hprocess file hline).append fun s' hsub => ?_
      apply ih
      intro line' hline' t ht
      exact (unitAt_extends hsub).holds (hrest line' hline' t ht)

/-- The tokens of a file lie in that file. -/
theorem processWith_keepsUnit : KeepsUnit ctx sources (processWith ctx process) := by
  intro name content s hhas
  have hmark : (mark ctx name s).dependencies = s.dependencies := dependencies_mark name
  have hunit : unitAt ctx sources (mark ctx name s) = unitAt ctx sources s := by
    rw [unitAt, unitAt, hmark]
  have hlines : StaysInUnit ctx sources (processLines ctx process name (fileLines name content))
      (mark ctx name s) :=
    processLines_staysInUnit hprocess name _ (hunit ▸ holds_fileLines hhas)
  obtain ⟨r, new, hanswers, hsub, hr, hnew⟩ := hlines
  refine ⟨r, new, ⟨fun entries => ?_, fun entries => ?_⟩, hmark ▸ hsub, hr, hnew⟩
  · rw [run_processWith, hanswers.lenient]
  · rw [run_processWith, hanswers.strict]

omit hprocess

/-- By induction on the fuel. -/
theorem processFile_keepsUnit (fuel : Nat) : KeepsUnit ctx sources (processFile ctx fuel) := by
  induction fuel with
  | zero => exact processWith_keepsUnit fun _ => staysInUnit_nil
  | succ fuel ih => exact processWith_keepsUnit ih

/-- By induction on the sources. -/
theorem processAll_staysInUnit {rest : List Source} (hsub : rest ⊆ sources) :
    StaysInUnit ctx sources (processAll ctx rest) s := by
  induction rest generalizing s with
  | nil => exact staysInUnit_nil
  | cons source rest ih =>
      obtain ⟨hsource, hrest⟩ := List.cons_subset.1 hsub
      refine StaysInUnit.append (processFile_keepsUnit _ (.inl hsource)) fun s' _ => ?_
      exact ih hrest

end

end Macros

/-! ## Whole units -/

open UnitFiles

section

variable {A : Area} {options : CompileOptions} {entries : List Diagnostic}
  {dependencies : List Text}

/-- Parsed declarations hold tokens of the unit, so their diagnostics lie in it. -/
theorem liesIn_compileProgram {program : List Decl} (hentries : LiesIn A entries)
    (hprogram : LiesIn A program) :
    LiesIn A (compileProgram options ⟨false, entries⟩ dependencies program).diagnostics := by
  obtain ⟨⟨sections, final⟩, new, hanswers, -, hnew⟩ :=
    (Gen.pointsInto_generate hprogram).answers (Gen.faithful_generate program) {}
  have hrun : ((Gen.generate program).run {}).run ⟨false, entries⟩ = _ := hanswers.lenient entries
  simp only [compileProgram, hrun, Log.diagnostics]
  intro d hd
  exact liesIn_append.2 ⟨hnew, hentries⟩ d (List.mem_reverse.1 hd)

/-- What the parser reports lies at its tokens, or behind the last one. -/
theorem liesIn_compileTokens {tokens : List Token} (hentries : LiesIn A entries)
    (htokens : LiesIn A tokens) :
    LiesIn A (compileTokens options ⟨false, entries⟩ dependencies tokens).diagnostics := by
  obtain ⟨⟨program, final⟩, new, hanswers, hprogram, hnew⟩ :=
    (Parsing.confined_program htokens).answers (Parsing.faithful_program tokens) {}
  have hrun : ((Parsing.program tokens).run {}).run ⟨false, entries⟩ = _ := hanswers.lenient entries
  simp only [compileTokens, hrun]
  exact liesIn_compileProgram (liesIn_append.2 ⟨hnew, hentries⟩) hprogram

/-- Compiling changes no dependency. -/
theorem dependencies_compileProgram (log : Log) (program : List Decl) :
    (compileProgram options log dependencies program).dependencies = dependencies := by
  simp only [compileProgram]
  split <;> rfl

theorem dependencies_compileTokens (log : Log) (tokens : List Token) :
    (compileTokens options log dependencies tokens).dependencies = dependencies := by
  simp only [compileTokens]
  split
  · rfl
  · exact dependencies_compileProgram _ _

end

/-- The files of a unit: its sources, and all that is included when the compilation goes on behind
its diagnostics. -/
def unitOf (store : FileStore) (options : CompileOptions) (sources : List Source)
    (history : List Text) : UnitFiles :=
  ⟨store, sources, (compile store { options with strict := false } sources history).dependencies⟩

section

variable (store : FileStore) (options : CompileOptions) (sources : List Source)
  (history : List Text)

/-- What the first stage hands on and reports when a compilation goes on behind its diagnostics. -/
theorem exists_tokens : ∃ tokens final new,
    Answers (processAll ⟨store, options.includePaths⟩ sources) { history } (tokens, final) new
      ∧ compile store { options with strict := false } sources history
        = compileTokens options ⟨false, new⟩ final.dependencies.reverse tokens
      ∧ (unitOf store options sources history).Makes tokens
      ∧ LiesIn (unitOf store options sources history).area new := by
  let ctx : MacroContext := ⟨store, options.includePaths⟩
  have hstays : StaysInUnit ctx sources (processAll ctx sources) { history } :=
    processAll_staysInUnit (List.Subset.refl sources)
  obtain ⟨⟨tokens, final⟩, new, hanswers, -, htokens, hnew⟩ := hstays
  have hrun : ((processAll ⟨store, options.includePaths⟩ sources).run { history }).run
      { strict := false } = _ := hanswers.lenient []
  have hcompile : compile store { options with strict := false } sources history
      = compileTokens options ⟨false, new⟩ final.dependencies.reverse tokens := by
    simp only [compile, hrun, List.append_nil]
    -- the stages behind the first one do not look at the option
    rfl
  have hext : (unitOf store options sources history).Extends (unitAt ctx sources final) := by
    refine ⟨rfl, rfl, fun path hpath => ?_⟩
    rw [unitOf, hcompile, dependencies_compileTokens]
    exact List.mem_reverse.2 hpath
  exact ⟨tokens, final, new, hanswers, hcompile, hext.makes htokens, hext.reports hnew⟩

theorem liesIn_compile : LiesIn (unitOf store options sources history).area
    (compile store options sources history).diagnostics := by
  have hlenient : LiesIn (unitOf store options sources history).area
      (compile store { options with strict := false } sources history).diagnostics := by
    obtain ⟨tokens, final, new, -, hcompile, htokens, hnew⟩ :=
      exists_tokens store options sources history
    rw [hcompile]
    exact liesIn_compileTokens hnew htokens.liesIn
  obtain ⟨strict, includePaths, library⟩ := options
  cases strict with
  | false => exact hlenient
  | true =>
      -- a strict compilation has at most the first of these diagnostics
      have hfirst := compile_firstOf store ⟨true, includePaths, library⟩ sources history
      cases hall : (compile store ⟨false, includePaths, library⟩ sources history).diagnostics with
      | nil =>
          rw [(hfirst.clean hall).1]
          exact hlenient
      | cons first rest =>
          rw [(hfirst.stopped first rest hall).2]
          rw [hall] at hlenient
          exact liesIn_cons.2 ⟨(liesIn_cons.1 hlenient).1, liesIn_nil⟩

/-- Every diagnostic points into the unit. Whatever the sources are and however the diagnostics are
taken, each of them names a source or an included file, and a line of that file with a token on it.
The parser gets the tokens that were read from the files of the unit, but in place of the name of a
macro its replacement, with the position of the use. On any line that is so with the macros of the
moment, from wherever the tokens of their replacements came. -/
theorem diagnostics_in_unit :
    (∀ d ∈ (compile store options sources history).diagnostics,
      ∃ content, (unitOf store options sources history).Has d.file content
        ∧ 1 ≤ d.line ∧ d.line ≤ (Text.splitOn 0x0A content).length
        ∧ ∃ t ∈ tokenize content, t.line = d.line)
    ∧ (∃ tokens final new,
      Answers (processAll ⟨store, options.includePaths⟩ sources) { history } (tokens, final) new
        ∧ ∃ uses blocks, tokens = blocks.flatten
          ∧ (∀ use ∈ uses, (unitOf store options sources history).Holds use)
          ∧ List.Forall₂ (fun use block => ∃ macros, Replaces macros use block) uses blocks)
    ∧ ∀ (s : MacroState) (line : List Token), ∃ blocks,
      Answers (expand line) s (blocks.flatten, s) []
        ∧ List.Forall₂ (Replaces s.macros) line blocks := by
  refine ⟨?_, ?_, ?_⟩
  · intro d hd
    exact area_bounds (liesIn_compile store options sources history d hd)
  · obtain ⟨tokens, final, new, hanswers, -, htokens, -⟩ :=
      exists_tokens store options sources history
    exact ⟨tokens, final, new, hanswers, htokens⟩
  · intro s line
    obtain ⟨blocks, heq, hblocks⟩ := substitute_blocks s.macros false line
    have hrun (log : Log) : expand line s log = .ok (blocks.flatten, s) log := by
      rw [← heq]
      rfl
    exact ⟨blocks, ⟨fun _ => hrun _, fun _ => hrun _⟩, hblocks⟩

/-- A macro of another file, made of a further macro: the mistake is where the macro is used. -/
example :
    (compile (.memory { cwd := "/", files :=
        [("/m.bar", { content := "#define NOTHING void\n#define BAD NOTHING" })] }) {}
      [⟨"main.bar", "#include \"/m.bar\"\n\nBAD b;"⟩]).diagnostics
    = [⟨"main.bar", 3, .voidVariable⟩] := by
  decide +kernel

end

end TickScript
