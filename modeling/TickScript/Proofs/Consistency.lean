import TickScript.Proofs.Codegen.Operands
import TickScript.Proofs.Strictness

/-!
# Compiled units are consistent

A unit is walked over three times: once to declare what it holds, once to generate its sections and
once to list what a library exports. The three agree (`compile_consistent`): the sections are those
of the declarations in their order, under different ids; loading them into an empty program brings
exactly the functions, variables and fields that were declared; and the exports are the sections.
Every id that stands in a section or in code is that of a registered name.

Loading is where the ids matter. A section goes into the table of its kind under its id, and a
second section with that id would take the place of the first. That all ids of a unit differ is
known from its names, so `Gains` can be proved section by section and needs no account of what was
overwritten. The signatures and types are compared in the order of the declarations, so nothing is
lost or doubled.

The example has the three things that could be missed: a name that hides another one, a function
that is announced and has no section, and a constant result, which takes a variable of its own.
-/

namespace TickScript

/-! ## What a unit holds -/

/-- The functions that a unit defines; announced ones have no section. -/
def definedFunctions (program : List Decl) : List FuncDecl :=
  program.filterMap fun
    | .function f => if f.body?.isSome then some f else none
    | _ => none

/-- The fields and variables of a unit. -/
def declaredVariables (program : List Decl) : List VarDecl :=
  program.filterMap fun
    | .field d => some d
    | .var d => some d
    | .function _ => none

/-- The fields of a unit. -/
def declaredFields (program : List Decl) : List VarDecl :=
  program.filterMap fun
    | .field d => some d
    | _ => none

/-- The functions of a program by what callers see of them: id, number of parameters and type of the
result. -/
def Program.signatures (p : Program) : List (Id × Nat × VarType) :=
  p.functions.map fun entry => (entry.1, entry.2.paramCount.toNat, entry.2.returnType)

/-- The variables of a program with their types. -/
def Program.variableTypes (p : Program) : List (Id × VarType) :=
  p.globals.map fun entry => (entry.1, entry.2.type)

namespace Gen

/-! ## Loading -/

/-- What a program gains from the sections of some declarations, in their order. -/
structure Gains (program : List Decl) (p p' : Program) : Prop where
  functions : p'.signatures = p.signatures
    ++ (definedFunctions program).map fun f => (f.id, f.params.length, f.returnType)
  globals : p'.variableTypes = p.variableTypes
    ++ (declaredVariables program).map fun d => (d.id, d.type)
  fields : p'.fields = p.fields ++ (declaredFields program).map (·.id)

theorem Gains.trans {a b : List Decl} {p p₁ p₂ : Program} (h : Gains a p p₁) (h' : Gains b p₁ p₂) :
    Gains (a ++ b) p p₂ where
  functions := by
    rw [h'.functions, h.functions]
    simp [definedFunctions]
  globals := by
    rw [h'.globals, h.globals]
    simp [declaredVariables]
  fields := by
    rw [h'.fields, h.fields]
    simp [declaredFields]

/-- Adding the section of a field or variable. -/
theorem gains_variable {p p' : Program} {d : VarDecl} {v : Value} {decl : Decl} {kind : SectionKind}
    (hdecl : decl = .field d ∧ kind = .field ∨ decl = .var d ∧ kind = .var) (hv : v.Fills d.type)
    (hfunctions : p.functions.get? d.id = none) (hglobals : p.globals.get? d.id = none)
    (hadd : p.addSection ⟨kind, d.id, v.toPayload⟩ = .ok p') : Gains [decl] p p' := by
  rw [addSection_variable hfunctions hglobals (hdecl.imp And.right And.right) hv.toWellFormed] at hadd
  obtain rfl := Except.ok.inj hadd
  refine ⟨?_, ?_, ?_⟩
  · rcases hdecl with ⟨rfl, rfl⟩ | ⟨rfl, rfl⟩ <;> simp [Program.signatures, definedFunctions]
  · rw [Program.variableTypes, Table.set_of_get?_eq_none hglobals]
    rcases hdecl with ⟨rfl, rfl⟩ | ⟨rfl, rfl⟩ <;>
      simp [Program.variableTypes, declaredVariables, hv.type]
  · rcases hdecl with ⟨rfl, rfl⟩ | ⟨rfl, rfl⟩
    · simp [declaredFields]
    · rw [if_neg (by decide)]
      simp [declaredFields]

/-- Adding the section of a function. -/
theorem gains_function {p p' : Program} {f : FuncDecl} {body : List Stmt} {code : Code}
    (hbody : f.body? = some body) (hproper : f.Proper) (hfunctions : p.functions.get? f.id = none)
    (hglobals : p.globals.get? f.id = none)
    (hadd : p.addSection ⟨.function, f.id, (storedFunction f code).toPayload⟩ = .ok p') :
    Gains [.function f] p p' := by
  rw [addSection_function hfunctions hglobals] at hadd
  obtain rfl := Except.ok.inj hadd
  -- the count of parameters fits into its byte
  have hcount : (UInt8.ofNat f.params.length).toNat = f.params.length := by
    rw [UInt8.toNat_ofNat', Nat.mod_eq_of_lt]
    have := hproper.count
    omega
  refine ⟨?_, ?_, ?_⟩
  · simp [Program.signatures, Table.set_of_get?_eq_none hfunctions, definedFunctions, hbody,
      storedFunction, hcount]
  · simp [Program.variableTypes, declaredVariables]
  · simp [declaredFields]

/-- Adding the section of one declaration. -/
theorem addSection_gains {u : Tables} {d : Decl} {found : Section} {p : Program} (hproper : d.Proper)
    (h : SectionOf u d (some found)) (hfunctions : p.functions.get? d.id = none)
    (hglobals : p.globals.get? d.id = none) : ∃ p', p.addSection found = .ok p' ∧ Gains [d] p p'
      ∧ ∀ id, id ≠ d.id → p.functions.get? id = none → p.globals.get? id = none →
        p'.functions.get? id = none ∧ p'.globals.get? id = none := by
  obtain ⟨p', hadd, -, -, -, hrest⟩ := addSection_of_sectionOf h hfunctions hglobals
  refine ⟨p', hadd, ?_, hrest⟩
  cases h with
  | field hv => exact gains_variable (.inl ⟨rfl, rfl⟩) hv hfunctions hglobals hadd
  | var hv => exact gains_variable (.inr ⟨rfl, rfl⟩) hv hfunctions hglobals hadd
  | function hbody => exact gains_function hbody hproper hfunctions hglobals hadd

/-- A unit loads into an empty program, which then holds what the unit declares and nothing else. -/
theorem Generated.load_gains {u : Tables} {program : List Decl} {script : Script}
    (h : Generated u program script.sections) :
    ∃ p, ({} : Program).load script = (p, none) ∧ Gains program {} p := by
  have hnil (p : Program) : Gains [] p p := by
    constructor <;> simp [definedFunctions, declaredVariables, declaredFields]
  have hskip (f : FuncDecl) (p : Program) (hbody : f.body? = none) : Gains [.function f] p p := by
    constructor <;> simp [definedFunctions, declaredVariables, declaredFields, hbody]
  obtain ⟨p, hadd, hgains⟩ := addSections_relates hnil hskip Gains.trans h.sections
    (fun d hd _ _ => addSection_gains (h.proper d hd))
    (({} : Program).setNames (((script.library?.map (·.exports)).getD []).map fun e => (e.id, e.name)))
    h.declared.distinct (fun _ _ _ => ⟨rfl, rfl⟩)
  exact ⟨p, hadd, hgains.functions, hgains.globals, hgains.fields⟩

/-! ## Sections and exports -/

/-- The sections are those of the declarations, in their order. -/
theorem SectionsOf.ids {u : Tables} {program : List Decl} {found : List Section}
    (h : SectionsOf u program found) :
    found.map (·.id) = (program.filter hasSection).map Decl.id := by
  induction h with
  | nil => rfl
  | cons hfirst _ ih =>
      cases hfirst with
      | field | var => simpa [List.filter_cons, hasSection, Decl.id] using ih
      | announced hbody => simpa [List.filter_cons, hasSection, hbody] using ih
      | function hbody => simpa [List.filter_cons, hasSection, hbody, Decl.id] using ih

/-- The exports of a unit are its sections. -/
theorem SectionsOf.exports {u : Tables} {program : List Decl} {found : List Section}
    (h : SectionsOf u program found) :
    (exportsOf program).map (fun e => (e.id, e.kind)) = found.map fun s => (s.id, s.kind) := by
  induction h with
  | nil => rfl
  | cons hfirst _ ih =>
      cases hfirst with
      | field | var => simpa [exportsOf] using ih
      | announced hbody => simpa [exportsOf, hbody] using ih
      | function hbody => simpa [exportsOf, hbody] using ih

end Gen

/-! ## Whole units -/

/-- A unit without diagnostics has a script, compiled strictly or not. -/
theorem exists_script {store : FileStore} {options : CompileOptions}
    {sources : List Macros.Source} {history : List Text}
    (h : (compile store options sources history).diagnostics = []) :
    ∃ script, (compile store options sources history).script? = some script := by
  have hfirst := compile_firstOf store options sources history
  obtain ⟨strict, includePaths, library⟩ := options
  cases strict with
  | false =>
      -- the strict compilation is the same, and it has a script
      obtain ⟨heq, hscript⟩ := hfirst.clean h
      rw [heq] at hscript
      exact Option.isSome_iff_exists.mp hscript
  | true =>
      cases hlenient : (compile store ⟨false, includePaths, library⟩ sources history).diagnostics with
      | nil => exact Option.isSome_iff_exists.mp (hfirst.clean hlenient).2
      | cons first rest =>
          -- a strict compilation that stopped has a diagnostic
          have hstopped := (hfirst.stopped first rest hlenient).2
          rw [h] at hstopped
          cases hstopped

/-- A library, and only a library, comes with a table of exports. -/
theorem compile_library {store : FileStore} {options : CompileOptions}
    {sources : List Macros.Source} {history : List Text} {script : Script}
    (h : (compile store options sources history).script? = some script) :
    script.library? = if options.library then
      some ⟨some (exportsOf (compile store options sources history).program),
        some (compile store options sources history).dependencies⟩ else none := by
  simp only [compile, compileTokens, compileProgram] at h ⊢
  split at h
  · cases h
  · split at h
    · cases h
    · split at h
      · cases h
      · split at h
        · obtain rfl := Option.some.inj h
          rfl
        · cases h

/-- The script of a unit agrees with the names, the declarations and the exports of the unit. -/
structure Compiled.Consistent (c : Compiled) (script : Script) : Prop where
  /-- No two sections have one id. -/
  distinct : (script.sections.map (·.id)).Nodup
  /-- The id of a section has a name, whose id it is. -/
  sections : ∀ s ∈ script.sections, Knows c.names s.id
  /-- So has every id in the code of a function, but for those of the two objects. -/
  operands : ∀ s ∈ script.sections, s.kind = .function → ∃ stored code,
    FunctionBody.ofPayload s.data = .ok stored ∧ stored.code = Instr.encodeAll code
      ∧ (stored.code.length < 2 ^ 63 → Decodes stored.code 0 (Instr.listing 0 code))
      ∧ ∀ i ∈ code, ∀ id ∈ i.ids, id ≠ Name.nullObject → id ≠ Name.attachedObject →
        Knows c.names id
  /-- Every name that the unit puts into sections and code is behind its id. -/
  registered : ∀ name ∈ unitNames c.program, Registered c.names name
  /-- Different names have different ids. -/
  apart : ∀ a ∈ unitNames c.program, ∀ b ∈ unitNames c.program, Name.id a = Name.id b → a = b
  /-- An empty program that loads the script holds what the unit declares and nothing else. -/
  loads : ∃ p, ({} : Program).load script = (p, none)
    ∧ p.signatures
      = (definedFunctions c.program).map (fun f => (f.id, f.params.length, f.returnType))
    ∧ p.variableTypes = (declaredVariables c.program).map (fun d => (d.id, d.type))
    ∧ p.fields = (declaredFields c.program).map (·.id)
  /-- The exports of a library are its sections. -/
  exports : ∀ table, script.library? = some table →
    table.exports.map (fun e => (e.id, e.kind)) = script.sections.map fun s => (s.id, s.kind)

/-- A unit that compiles without diagnostics has a script, and the script is consistent: its sections
have different ids, every id in them and in their code is that of a registered name, different names
have different ids, an empty program loads it and then holds exactly the functions, variables and
fields of the unit, and a library exports exactly its sections. -/
theorem compile_consistent {store : FileStore} {options : CompileOptions}
    {sources : List Macros.Source} {history : List Text}
    (h : (compile store options sources history).diagnostics = []) :
    ∃ script, (compile store options sources history).script? = some script
      ∧ (compile store options sources history).Consistent script
      ∧ (script.library?.isSome = options.library) := by
  obtain ⟨script, hscript⟩ := exists_script h
  obtain ⟨-, -, -, final, hgenerated, hnames⟩ := compile_clean hscript
  have hproper := compile_proper hscript
  obtain ⟨u, hu, hunit⟩ := Gen.generate_clean hgenerated hproper
  have hregistered := Gen.generate_registers hgenerated hproper
  rw [← hnames] at hu hregistered
  have hlibrary := compile_library hscript
  refine ⟨script, hscript, ⟨?_, ?_, ?_, hregistered, ?_, ?_, ?_⟩, ?_⟩
  · rw [hunit.sections.ids]
    exact hunit.declared.distinct
  · intro s hs
    -- the id is that of a declaration, whose name is one of the unit
    have hid : s.id ∈ script.sections.map (·.id) := List.mem_map_of_mem hs
    rw [hunit.sections.ids] at hid
    obtain ⟨d, hd, hid⟩ := List.mem_map.mp hid
    have hd := List.mem_of_mem_filter hd
    rw [← hid, Gen.id_of_proper (hproper d hd)]
    exact (hregistered d.name (List.mem_flatMap.mpr ⟨d, hd, List.mem_cons_self⟩)).knows
  · rw [← hu] at hregistered ⊢
    exact fun s hs hkind => hunit.operands hregistered hs hkind
  · exact fun a ha b hb => (hregistered a ha).eq_of_id_eq (hregistered b hb)
  · obtain ⟨p, hload, hgains⟩ := hunit.load_gains
    exact ⟨p, hload, hgains.functions, hgains.globals, hgains.fields⟩
  · intro table htable
    rw [hlibrary] at htable
    split at htable
    · obtain rfl := Option.some.inj htable
      exact hunit.sections.exports
    · cases htable
  · rw [hlibrary]
    cases options.library <;> rfl

/-- A function in which a variable hides another one, a function without a body is called and the
result is constant. -/
def strikes : Macros.Source :=
  ⟨"hit.bar", "field int hp = 3; bool on; define log(int n);\n"
    ++ "define hit(int n) = int { int m = n; if (n > 1) { int m = 2; log(m); } return 0; }"⟩

theorem strikes_consistent :
    unitNames (compile (.memory { cwd := "/" }) { library := true } [strikes]).program
      = ["hp", "on", "log", "hit", "hit.n", "hit.m", "hit.m$2", "hit.$return", "log"]
    ∧ ∃ script, (compile (.memory { cwd := "/" }) { library := true } [strikes]).script? = some script
      ∧ (compile (.memory { cwd := "/" }) { library := true } [strikes]).Consistent script
      ∧ script.library?.isSome = true := by
  have hnone : (compile (.memory { cwd := "/" }) { library := true } [strikes]).diagnostics = [] := by
    decide +kernel
  exact ⟨by decide +kernel, compile_consistent hnone⟩

end TickScript
