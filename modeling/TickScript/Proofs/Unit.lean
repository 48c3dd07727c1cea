import TickScript.Machine.Program
import TickScript.Proofs.Codegen.Stmt
import TickScript.Proofs.Table

/-!
# Compiled units

What comes out of a clean compilation: the tables of the unit agree with its declarations, every
function with a body has a section with its code, every variable one with its initial value, and no
two sections have one id. A program that the sections are loaded into therefore holds exactly the
functions and variables of the unit.

A clean run of a whole unit is taken apart here, from the announcement of its names to its sections.
The tables at the end know every declaration (`Declared`), and every section is that of its
declaration (`SectionsOf`); `Generated` puts the two together and is what all theorems about
compiled units start from.
-/

namespace TickScript

open Stage

namespace Gen

/-! ## Declarations -/

/-- The variable that a declaration outside of functions makes. -/
def globalSymbol (d : VarDecl) : Symbol := ⟨d.name, [], d.id, d.type⟩

/-- A declaration of a variable of the unit. -/
inductive DeclaresVariable (program : List Decl) (d : VarDecl) : Prop
  | field : .field d ∈ program → DeclaresVariable program d
  | var : .var d ∈ program → DeclaresVariable program d

theorem DeclaresVariable.mono {program program' : List Decl} {d : VarDecl}
    (h : DeclaresVariable program d) (hsub : program ⊆ program') : DeclaresVariable program' d := by
  cases h with
  | field h => exact .field (hsub h)
  | var h => exact .var (hsub h)

theorem DeclaresVariable.of_append {a b : List Decl} {d : VarDecl} (h : DeclaresVariable (a ++ b) d) :
    DeclaresVariable a d ∨ DeclaresVariable b d := by
  cases h with
  | field h => exact (List.mem_append.mp h).imp .field .field
  | var h => exact (List.mem_append.mp h).imp .var .var

/-- A function declares no variable. -/
theorem DeclaresVariable.of_function {program : List Decl} {f : FuncDecl} {d : VarDecl}
    (h : DeclaresVariable (program ++ [.function f]) d) : DeclaresVariable program d :=
  h.of_append.resolve_right (by rintro (h | h) <;> simp at h)

/-- Whether a declaration has a section of its own. -/
def hasSection : Decl → Bool
  | .function f => f.body?.isSome
  | _ => true

/-- A state knows some declarations and no others. -/
structure Declared (program : List Decl) (s : GenState) : Prop where
  /-- Every function has an entry under its name, which is its own if it has a body. -/
  functionKnown : ∀ f, .function f ∈ program →
    ∃ g, s.functions.get? f.name = some g ∧ (f.body?.isSome = true → g = f)
  /-- Every entry of a function comes from a declaration. -/
  functionDeclared : ∀ name f, s.functions.get? name = some f → .function f ∈ program ∧ f.name = name
  /-- Every variable is known by its name. -/
  variableKnown : ∀ d, DeclaresVariable program d → s.globals.get? d.name = some (globalSymbol d)
  /-- And every entry of a variable comes from a declaration. -/
  variableDeclared : ∀ name symbol, s.globals.get? name = some symbol →
    ∃ d, DeclaresVariable program d ∧ d.name = name ∧ symbol = globalSymbol d
  /-- Every declaration has its name behind its id. -/
  names : ∀ d ∈ program, s.names.get? d.id = some d.name
  /-- Declarations with a section of their own have different ids. -/
  distinct : ((program.filter hasSection).map Decl.id).Nodup

theorem declared_nil : Declared [] {} where
  functionKnown f h := by cases h
  functionDeclared name f h := by cases h
  variableKnown d h := by cases h with | field h => cases h | var h => cases h
  variableDeclared name symbol h := by cases h
  names d h := by cases h
  distinct := List.nodup_nil

/-- Every declaration is in one of the tables under its name. -/
theorem Declared.has {program : List Decl} {s : GenState} (h : Declared program s) {d : Decl}
    (hmem : d ∈ program) : s.globals.has d.name = true ∨ s.functions.has d.name = true := by
  cases d with
  | field d => exact .inl ((Table.has_iff _ _).mpr ⟨_, h.variableKnown d (.field hmem)⟩)
  | var d => exact .inl ((Table.has_iff _ _).mpr ⟨_, h.variableKnown d (.var hmem)⟩)
  | function f =>
      obtain ⟨g, hg, -⟩ := h.functionKnown f hmem
      exact .inr ((Table.has_iff _ _).mpr ⟨g, hg⟩)

/-- A declaration whose name is new has a new id. -/
theorem Declared.id_notMem {program : List Decl} {s s' : GenState} (h : Declared program s)
    (hgrows : Grows s s') {id : Id} {name : Text} (hname : s'.names.get? id = some name)
    (hglobals : s.globals.has name = false) (hfunctions : s.functions.has name = false) :
    id ∉ program.map Decl.id := by
  intro hmem
  obtain ⟨d, hd, rfl⟩ := List.mem_map.mp hmem
  obtain rfl : d.name = name :=
    Option.some.inj ((hgrows.names _ _ (h.names d hd)).symm.trans hname)
  rcases h.has hd with hhas | hhas
  · rw [hglobals] at hhas
    cases hhas
  · rw [hfunctions] at hhas
    cases hhas

theorem nodup_snoc {program : List Decl} {d : Decl}
    (h : ((program.filter hasSection).map Decl.id).Nodup)
    (hnew : hasSection d = true → d.id ∉ (program.filter hasSection).map Decl.id) :
    (((program ++ [d]).filter hasSection).map Decl.id).Nodup := by
  cases hsection : hasSection d with
  | false => simpa [List.filter_append, hsection] using h
  | true =>
      simp only [List.filter_append, List.filter_cons, hsection, if_true, List.filter_nil,
        List.map_append, List.map_cons, List.map_nil]
      exact List.nodup_append.mpr ⟨h, by simp, by
        intro a ha b hb heq
        obtain rfl := List.mem_singleton.mp hb
        exact hnew hsection (heq ▸ ha)⟩

theorem notMem_filter {program : List Decl} {id : Id} (h : id ∉ program.map Decl.id) :
    id ∉ (program.filter hasSection).map Decl.id := fun hmem => by
  obtain ⟨d, hd, rfl⟩ := List.mem_map.mp hmem
  exact h (List.mem_map.mpr ⟨d, List.mem_of_mem_filter hd, rfl⟩)

theorem declareVariable_clean {program : List Decl} {d : VarDecl} {decl : Decl} {s s' : GenState}
    {a : Unit} (h : Clean (declareVariable d) s a s') (hs : Declared program s)
    (hdecl : decl = .field d ∨ decl = .var d) : Declared (program ++ [decl]) s' := by
  unfold declareVariable at h
  simp only [clean_get_bind] at h
  split at h
  · exact absurd h not_clean_report
  -- the name is neither a variable nor a function so far
  next hnew =>
  obtain ⟨hglobals, hfunctions⟩ : s.globals.has d.name = false ∧ s.functions.has d.name = false := by
    simpa using hnew
  obtain ⟨_, s₁, hregister, h⟩ := h.bind_inv (attentive_register _ _ _)
  obtain rfl := clean_modify.mp h
  obtain ⟨hsteady, hname⟩ := register_clean hregister
  have hid : decl.id = d.id := by rcases hdecl with rfl | rfl <;> rfl
  have hdname : decl.name = d.name := by rcases hdecl with rfl | rfl <;> rfl
  -- the functions are those from before, the variables are one more
  have hfunction (f : FuncDecl) (hf : .function f ∈ program ++ [decl]) : .function f ∈ program := by
    rcases hdecl with rfl | rfl <;> simpa using hf
  have hvariable (e : VarDecl) (he : DeclaresVariable (program ++ [decl]) e) :
      DeclaresVariable program e ∨ e = d := by
    refine he.of_append.imp_right fun he => ?_
    rcases he with he | he <;> rcases hdecl with rfl | rfl <;> simp_all
  refine ⟨fun f hf => ?_, fun name f hf => ?_, fun e he => ?_, fun name symbol hget => ?_,
    fun e he => ?_, ?_⟩
  · rw [hsteady.functions]
    exact hs.functionKnown f (hfunction f hf)
  · rw [hsteady.functions] at hf
    obtain ⟨hmem, hname⟩ := hs.functionDeclared name f hf
    exact ⟨List.mem_append_left _ hmem, hname⟩
  · rw [hsteady.globals, Table.get?_set]
    rcases hvariable e he with he | rfl
    · have hknown := hs.variableKnown e he
      rw [if_neg fun heq => ?_, hknown]
      rw [heq, (Table.has_eq_false_iff _ _).mp hglobals] at hknown
      cases hknown
    · rw [if_pos rfl]
      rfl
  · rw [hsteady.globals, Table.get?_set] at hget
    split at hget
    · next heq =>
        refine ⟨d, ?_, heq.symm, (Option.some.inj hget).symm⟩
        rcases hdecl with rfl | rfl
        · exact .field (by simp)
        · exact .var (by simp)
    · obtain ⟨e, he, hrest⟩ := hs.variableDeclared name symbol hget
      exact ⟨e, he.mono (by simp), hrest⟩
  · -- every declaration has its name under its id, the new one included
    rcases List.mem_append.mp he with he | he
    · exact hsteady.names _ _ (hs.names e he)
    · obtain rfl := List.mem_singleton.mp he
      rw [hid, hdname]
      exact hname
  · -- two declarations with one id would have clashed in the table of names
    refine nodup_snoc hs.distinct fun _ => ?_
    rw [hid]
    exact notMem_filter (hs.id_notMem hsteady.toGrows hname hglobals hfunctions)

/-- A function that joins the table, its name being in no other use. -/
theorem Declared.function {program : List Decl} {s s' : GenState} {f : FuncDecl}
    (h : Declared program s) (hgrows : Grows s s') (hname : s'.names.get? f.id = some f.name)
    (hbodies : ∀ g, .function g ∈ program → g.name = f.name → g.body?.isSome = false)
    (hnew : f.body?.isSome = true → f.id ∉ (program.filter hasSection).map Decl.id) :
    Declared (program ++ [.function f])
      { s' with functions := s'.functions.set f.name f } := by
  -- the six facts about the tables, each for old declarations and for the new one
  refine ⟨fun g hg => ?_, fun name g hg => ?_, fun e he => ?_, fun name symbol hget => ?_,
    fun e he => ?_, nodup_snoc h.distinct hnew⟩
  · simp only [Table.get?_set, hgrows.functions]
    rcases List.mem_append.mp hg with hg | hg
    · -- an announced function of the same name is replaced, one with a body is not in the way
      by_cases heq : g.name = f.name
      · rw [if_pos heq]
        exact ⟨f, rfl, fun hbody => by rw [hbodies g hg heq] at hbody; cases hbody⟩
      · rw [if_neg heq]
        exact h.functionKnown g hg
    · obtain rfl : g = f := by simpa using hg
      exact ⟨g, by rw [if_pos rfl], fun _ => rfl⟩
  · simp only [Table.get?_set, hgrows.functions] at hg
    split at hg
    · next heq =>
        obtain rfl := Option.some.inj hg
        exact ⟨by simp, heq.symm⟩
    · obtain ⟨hmem, hname⟩ := h.functionDeclared name g hg
      exact ⟨List.mem_append_left _ hmem, hname⟩
  · simp only [hgrows.globals]
    exact h.variableKnown e he.of_function
  · simp only [hgrows.globals] at hget
    obtain ⟨e, he, hrest⟩ := h.variableDeclared name symbol hget
    exact ⟨e, he.mono (by simp), hrest⟩
  · rcases List.mem_append.mp he with he | he
    · exact hgrows.names _ _ (h.names e he)
    · obtain rfl := List.mem_singleton.mp he
      exact hname

/-- A function that was announced is defined. The one in the table is without a body, so no other of the
name has one, and the id has no section yet. -/
theorem Declared.define {program : List Decl} {s : GenState} {f earlier : FuncDecl}
    (h : Declared program s) (hglobals : s.globals.has f.name = false)
    (hearlier : s.functions.get? f.name = some earlier) (hopen : earlier.body?.isSome = false)
    (hname : s.names.get? f.id = some f.name) :
    Declared (program ++ [.function f]) { s with functions := s.functions.set f.name f } := by
  -- a function of this name with a body would be the one in the table
  have hnone (g : FuncDecl) (hg : .function g ∈ program) (heq : g.name = f.name) :
      g.body?.isSome = false := by
    obtain ⟨g', hg', hsome⟩ := h.functionKnown g hg
    rw [heq, hearlier] at hg'
    obtain rfl := Option.some.inj hg'
    cases hbody' : g.body?.isSome with
    | false => rfl
    | true => rw [hsome hbody', hbody'] at hopen; cases hopen
  -- a variable of this name would be in the table of the globals
  have hunknown (d : VarDecl) (hd : DeclaresVariable program d) (heq : d.name = f.name) : False := by
    have hknown := h.variableKnown d hd
    rw [heq, (Table.has_eq_false_iff _ _).mp hglobals] at hknown
    cases hknown
  refine h.function (.refl s) hname hnone fun _ hmem => ?_
  -- no other declaration of this id has a section of its own
  obtain ⟨d, hd, hid⟩ := List.mem_map.mp hmem
  obtain ⟨hd, hsection⟩ := List.mem_filter.mp hd
  have hdname : d.name = f.name := by
    have hdname := h.names d hd
    rw [hid] at hdname
    exact Option.some.inj (hdname.symm.trans hname)
  cases d with
  | function g => exact absurd hsection (by simp [hasSection, hnone g hd hdname])
  | field d => exact hunknown d (.field hd) hdname
  | var d => exact hunknown d (.var hd) hdname

/-- A function is announced once more. The tables stay as they are, and there is no new section. -/
theorem Declared.announce {program : List Decl} {s : GenState} {f earlier : FuncDecl}
    (h : Declared program s) (hearlier : s.functions.get? f.name = some earlier)
    (hbody : f.body?.isSome = false) (hname : s.names.get? f.id = some f.name) :
    Declared (program ++ [.function f]) s := by
  refine ⟨fun g hg => ?_, fun name g hg => ?_, fun e he => ?_, fun name symbol hget => ?_,
    fun e he => ?_, nodup_snoc h.distinct fun hsection => ?_⟩
  · rcases List.mem_append.mp hg with hg | hg
    · exact h.functionKnown g hg
    · obtain rfl : g = f := by simpa using hg
      exact ⟨earlier, hearlier, fun hsome => by rw [hbody] at hsome; cases hsome⟩
  · obtain ⟨hmem, hname⟩ := h.functionDeclared name g hg
    exact ⟨List.mem_append_left _ hmem, hname⟩
  · exact h.variableKnown e he.of_function
  · obtain ⟨e, he, hrest⟩ := h.variableDeclared name symbol hget
    exact ⟨e, he.mono (by simp), hrest⟩
  · rcases List.mem_append.mp he with he | he
    · exact h.names e he
    · obtain rfl := List.mem_singleton.mp he
      exact hname
  · simp [hasSection, hbody] at hsection

theorem declareFunction_clean {program : List Decl} {f : FuncDecl} {s s' : GenState} {a : Unit}
    (h : Clean (declareFunction f) s a s') (hs : Declared program s) :
    Declared (program ++ [.function f]) s' := by
  unfold declareFunction at h
  simp only [clean_get_bind] at h
  split at h
  · exact absurd h not_clean_report
  next hglobals =>
  replace hglobals : s.globals.has f.name = false := by simpa using hglobals
  split at h
  · -- the name is new: the function is registered and enters the table
    next hnone =>
      obtain ⟨_, s₁, hregister, h⟩ := h.bind_inv (attentive_register _ _ _)
      obtain rfl := clean_modify.mp h
      obtain ⟨hsteady, hname⟩ := register_clean hregister
      refine hs.function hsteady.toGrows hname (fun g hg heq => ?_) fun _ => ?_
      · obtain ⟨g', hg', -⟩ := hs.functionKnown g hg
        rw [heq, hnone] at hg'
        cases hg'
      · exact notMem_filter (hs.id_notMem hsteady.toGrows hname hglobals
          ((Table.has_eq_false_iff _ _).mpr hnone))
  · -- the name is known: the function in the table is one of the program, of the same name
    next earlier hearlier =>
      obtain ⟨hmem, hsame⟩ := hs.functionDeclared _ _ hearlier
      have hname : s.names.get? f.id = some f.name := by
        have hname := hs.names _ hmem
        simp only [Decl.id, Decl.name, FuncDecl.id, hsame] at hname
        exact hname
      split at h
      · exact absurd h not_clean_report
      next hbodies =>
      split at h
      · exact absurd h not_clean_report
      split at h
      · next hbody =>
          obtain rfl := clean_modify.mp h
          exact hs.define hglobals hearlier (by simpa [hbody] using hbodies) hname
      · next hbody =>
          obtain ⟨-, rfl⟩ := clean_pure.mp h
          exact hs.announce hearlier (by simpa using hbody) hname

theorem declareAll_clean {before : List Decl} : (program : List Decl) → ∀ {s s' : GenState} {a : Unit},
    Clean (declareAll program) s a s' → Declared before s → Declared (before ++ program) s'
  | [], s, s', a, h, hs => by
      unfold declareAll at h
      obtain ⟨-, rfl⟩ := clean_pure.mp h
      simpa using hs
  | d :: rest, s, s', a, h, hs => by
      unfold declareAll at h
      cases d with
      | field v =>
          obtain ⟨_, s₁, hdeclared, h⟩ := h.bind_inv (attentive_declareVariable v)
          simpa using declareAll_clean rest h (declareVariable_clean hdeclared hs (.inl rfl))
      | var v =>
          obtain ⟨_, s₁, hdeclared, h⟩ := h.bind_inv (attentive_declareVariable v)
          simpa using declareAll_clean rest h (declareVariable_clean hdeclared hs (.inr rfl))
      | function f =>
          obtain ⟨_, s₁, hdeclared, h⟩ := h.bind_inv (attentive_declareFunction f)
          simpa using declareAll_clean rest h (declareFunction_clean hdeclared hs)

/-! ## Sections -/

/-- The function that is stored with some code. -/
def storedFunction (f : FuncDecl) (code : Code) : FunctionBody :=
  ⟨UInt8.ofNat f.params.length, f.returnType, Instr.encodeAll code⟩

/-- The section of a declaration. -/
inductive SectionOf (u : Tables) : Decl → Option Section → Prop
  /-- A field has a section with its initial value. -/
  | field {d : VarDecl} {v : Value} : v.Fills d.type →
    SectionOf u (.field d) (some ⟨.field, d.id, v.toPayload⟩)
  /-- A global variable has a section of its own kind, with its initial value. -/
  | var {d : VarDecl} {v : Value} : v.Fills d.type →
    SectionOf u (.var d) (some ⟨.var, d.id, v.toPayload⟩)
  /-- An announcement has none. -/
  | announced {f} : f.body? = none → SectionOf u (.function f) none
  /-- A function has a section with its code. -/
  | function {f body code} : f.body? = some body → FunctionCode u f body code →
    SectionOf u (.function f) (some ⟨.function, f.id, (storedFunction f code).toPayload⟩)

/-- The sections of some declarations. -/
inductive SectionsOf (u : Tables) : List Decl → List Section → Prop
  | nil : SectionsOf u [] []
  | cons {d rest first more} : SectionOf u d first → SectionsOf u rest more →
    SectionsOf u (d :: rest) (first.toList ++ more)

theorem declareParams_clean {ctx : FunctionContext} : (params : List Param) →
    (∀ p ∈ params, p.Proper) → ∀ {before s symbols s'}, Clean (declareParams params) s symbols s' →
    Inside ctx [] before s → ParamSymbols ctx.name before params symbols ∧ Grows s s'
      ∧ Inside ctx [] (before ++ symbols) s'
  | [], _, before, s, symbols, s', h, hs => by
      unfold declareParams at h
      obtain ⟨rfl, rfl⟩ := clean_pure.mp h
      exact ⟨.nil, .refl s, by simpa using hs⟩
  | p :: rest, hproper, before, s, symbols, s', h, hs => by
      unfold declareParams at h
      obtain ⟨⟨symbol, fresh⟩, s₁, hdeclared, h⟩ := h.bind_inv (attentive_declareLocal _ _)
      simp only at h
      split at h
      · exact absurd h not_clean_report_bind
      next hfresh =>
      obtain rfl : fresh = true := by simpa using hfresh
      obtain ⟨_, s₂, hregister, h⟩ := h.bind_inv (attentive_register _ _ _)
      obtain ⟨more, s₃, hmore, h⟩ := h.bind_inv (attentive_declareParams rest)
      obtain ⟨rfl, rfl⟩ := clean_pure.mp h
      have hp := hproper p (by simp)
      obtain ⟨hsymbol, hnotMem, hgrows, hinside, -⟩ :=
        declareLocal_clean hdeclared hregister hp.name hs
      obtain ⟨hsymbols, hgrows', hinside'⟩ :=
        declareParams_clean rest (fun q hq => hproper q (by simp [hq])) hmore hinside
      exact ⟨.cons hsymbol hp.type hnotMem hsymbols, hgrows.trans hgrows', by simpa using hinside'⟩

theorem functionCode_clean {f : FuncDecl} {body : List Stmt} {s s' : GenState} {code : Code}
    (h : Clean (functionCode f body) s code s') (hproper : f.Proper) (hbody : f.body? = some body)
    (hs : GlobalsNamed s) : Grows s s' ∧ ∀ u, Fits u s' →
      (∀ site ∈ Stmt.allCallSites body, site ∈ u.calls) → FunctionCode u f body code := by
  unfold functionCode at h
  simp only [clean_modify_bind] at h
  -- parameters, body, and perhaps a return behind it
  obtain ⟨params, s₁, hparams, h⟩ := h.bind_inv (attentive_declareParams f.params)
  obtain ⟨inside, s₂, hinside, h⟩ := h.bind_inv (attentive_stmts _ body)
  have hstart : Inside ⟨f.name, f.returnType⟩ [] [] { s with scope := ⟨f.name, [], []⟩ } :=
    ⟨⟨.nil, by simp, hs⟩, rfl, rfl, rfl⟩
  obtain ⟨hsymbols, hgrows₁, hs₁⟩ := declareParams_clean f.params hproper.params hparams hstart
  obtain ⟨inner, hemits⟩ := stmts_clean _ body (hproper.body body hbody) hinside hs₁
  simp only [List.nil_append] at hemits
  -- a function has a scope of its own, so only names are added for the rest of the unit
  have hgrows : Grows s s₂ :=
    ⟨fun id name hget => hemits.names id name (hgrows₁.names id name hget),
      hemits.globals.trans hgrows₁.globals, hemits.functions.trans hgrows₁.functions⟩
  split at h
  · next hends =>
      simp only [pure_bind] at h
      obtain ⟨rfl, rfl⟩ := clean_pure.mp h
      refine ⟨hgrows, fun u hu hsites => ?_⟩
      simp only [List.append_nil]
      exact .returning hends hsymbols (hemits.code u hu hsites)
  · -- the body can be left at its end, so a return is put there
    next hends =>
      obtain ⟨exit, s₃, hexit, h⟩ := h.bind_inv (attentive_returnCode _ _ _)
      obtain ⟨rfl, rfl⟩ := clean_pure.mp h
      obtain ⟨hsteady, hexit⟩ := returnCode_clean hexit (by simp) hemits.inside.toScoped
      refine ⟨hgrows.trans hsteady.toGrows, fun u hu hsites => ?_⟩
      refine .falling (by simpa using hends) hsymbols
        (hemits.code u (hu.mono hsteady.toGrows) hsites) ?_
      rw [← List.nil_append inner, ← hemits.inside.symbols]
      exact hexit u hu (by simp [Expr.optionalCallSites])

/-- The section of a variable holds the zero of its type or the value of its literal. -/
theorem variableSection_inv {kind : SectionKind} {d : VarDecl} {s s' : GenState}
    {r : Option Section} (h : Clean (variableSection kind d) s r s') : s = s' ∧ ∃ v : Value,
      (v = .zero d.type ∨ ∃ init, Expr.literal init d.type = .ok v)
        ∧ r = some ⟨kind, d.id, v.toPayload⟩ := by
  unfold variableSection at h
  simp only at h
  split at h
  · obtain ⟨rfl, rfl⟩ := clean_pure.mp h
    exact ⟨rfl, _, .inl rfl, rfl⟩
  · split at h
    · obtain ⟨rfl, rfl⟩ := clean_pure.mp h
      exact ⟨rfl, _, .inl rfl, rfl⟩
    · split at h
      · rw [literalOf_eq, pure_bind] at h
        split at h
        · next v hv =>
            obtain ⟨rfl, rfl⟩ := clean_pure.mp h
            exact ⟨rfl, v, .inr ⟨_, hv⟩, rfl⟩
        · exact absurd h not_clean_report_bind
      · exact absurd h not_clean_report_bind

theorem variableSection_clean {kind : SectionKind} {d : VarDecl} {s s' : GenState}
    {r : Option Section} (h : Clean (variableSection kind d) s r s') (hproper : d.Proper) :
    s = s' ∧ ∃ v : Value, v.Fills d.type ∧ r = some ⟨kind, d.id, v.toPayload⟩ := by
  obtain ⟨hsame, v, rfl | ⟨init, hliteral⟩, hr⟩ := variableSection_inv h
  · exact ⟨hsame, _, Value.fills_zero hproper.type, hr⟩
  · exact ⟨hsame, v, Expr.fills_literal hproper.type hliteral, hr⟩

theorem declSection_clean {d : Decl} {s s' : GenState} {r : Option Section}
    (h : Clean (declSection d) s r s') (hproper : d.Proper) (hs : GlobalsNamed s) :
    Grows s s' ∧ ∀ u, Fits u s' → (∀ site ∈ callSites [d], site ∈ u.calls) → SectionOf u d r := by
  cases d with
  | field d =>
      obtain ⟨rfl, v, hv, rfl⟩ := variableSection_clean h hproper.1
      exact ⟨.refl s, fun u _ _ => .field hv⟩
  | var d =>
      obtain ⟨rfl, v, hv, rfl⟩ := variableSection_clean h hproper.1
      exact ⟨.refl s, fun u _ _ => .var hv⟩
  | function f =>
      simp only [declSection] at h
      split at h
      · next hbody =>
          obtain ⟨rfl, rfl⟩ := clean_pure.mp h
          exact ⟨.refl s, fun u _ _ => .announced hbody⟩
      · next body hbody =>
          obtain ⟨code, s₁, hcode, h⟩ := h.bind_inv (attentive_functionCode f body)
          obtain ⟨rfl, rfl⟩ := clean_pure.mp h
          obtain ⟨hgrows, hcode⟩ := functionCode_clean hcode hproper hbody hs
          exact ⟨hgrows, fun u hu hsites =>
            .function hbody (hcode u hu fun site hmem => hsites site (by simp [callSites, hbody, hmem]))⟩

theorem sections_clean : (program : List Decl) → (∀ d ∈ program, d.Proper) → ∀ {s found s'},
    Clean (sections program) s found s' → GlobalsNamed s → Grows s s'
      ∧ ∀ u, Fits u s' → (∀ site ∈ callSites program, site ∈ u.calls) → SectionsOf u program found
  | [], _, s, found, s', h, hs => by
      unfold sections at h
      obtain ⟨rfl, rfl⟩ := clean_pure.mp h
      exact ⟨.refl s, fun u _ _ => .nil⟩
  | d :: rest, hproper, s, found, s', h, hs => by
      unfold sections at h
      obtain ⟨first, s₁, hfirst, h⟩ := h.bind_inv (attentive_declSection d)
      obtain ⟨more, s₂, hmore, h⟩ := h.bind_inv (attentive_sections rest)
      obtain ⟨rfl, rfl⟩ := clean_pure.mp h
      obtain ⟨hgrows₁, hfirst⟩ := declSection_clean hfirst (hproper d (by simp)) hs
      obtain ⟨hgrows₂, hmore⟩ :=
        sections_clean rest (fun e he => hproper e (by simp [he])) hmore (hs.mono hgrows₁)
      refine ⟨hgrows₁.trans hgrows₂, fun u hu hsites => .cons ?_ ?_⟩
      · exact hfirst u (hu.mono hgrows₂) fun site hmem => hsites site (by
          simp only [callSites, List.flatMap_cons, List.flatMap_nil, List.append_nil] at hmem ⊢
          exact List.mem_append_left _ hmem)
      · exact hmore u hu fun site hmem => hsites site (by
          simp only [callSites, List.flatMap_cons] at hmem ⊢
          exact List.mem_append_right _ hmem)

/-- Every section comes from a declaration of the unit. -/
theorem sections_mem : (program : List Decl) → ∀ {s found s'}, Clean (sections program) s found s' →
    ∀ x ∈ found, ∃ d ∈ program, ∃ s s', Clean (declSection d) s (some x) s'
  | [], s, found, s', h => by
      unfold sections at h
      obtain ⟨rfl, rfl⟩ := clean_pure.mp h
      simp
  | d :: rest, s, found, s', h => by
      unfold sections at h
      obtain ⟨first, s₁, hfirst, h⟩ := h.bind_inv (attentive_declSection d)
      obtain ⟨more, s₂, hmore, h⟩ := h.bind_inv (attentive_sections rest)
      obtain ⟨rfl, rfl⟩ := clean_pure.mp h
      intro x hx
      rcases List.mem_append.mp hx with hx | hx
      · obtain rfl : first = some x := by simpa using hx
        exact ⟨d, List.mem_cons_self, _, _, hfirst⟩
      · obtain ⟨e, he, hclean⟩ := sections_mem rest hmore x hx
        exact ⟨e, List.mem_cons_of_mem d he, hclean⟩

/-! ## Units -/

theorem Declared.mono {program : List Decl} {s s' : GenState} (h : Declared program s)
    (hgrows : Grows s s') : Declared program s' where
  functionKnown f hf := hgrows.functions ▸ h.functionKnown f hf
  functionDeclared name f hget := h.functionDeclared name f (hgrows.functions ▸ hget)
  variableKnown d hd := hgrows.globals ▸ h.variableKnown d hd
  variableDeclared name symbol hget := h.variableDeclared name symbol (hgrows.globals ▸ hget)
  names d hd := hgrows.names _ _ (h.names d hd)
  distinct := h.distinct

theorem Declared.globalsNamed {program : List Decl} {s : GenState} (h : Declared program s)
    (hproper : ∀ d ∈ program, d.Proper) : GlobalsNamed s := by
  intro name symbol hget
  obtain ⟨d, hd, rfl, rfl⟩ := h.variableDeclared name symbol hget
  cases hd with
  | field hd => exact ⟨(hproper _ hd).1.name, h.names _ hd⟩
  | var hd => exact ⟨(hproper _ hd).1.name, h.names _ hd⟩

/-- A unit with its tables and its sections. -/
structure Generated (u : Tables) (program : List Decl) (found : List Section) : Prop where
  /-- The declarations are proper. -/
  proper : ∀ d ∈ program, d.Proper
  /-- The calls are those of the program. -/
  calls : u.calls = callSites program
  /-- The tables are those of the declarations. -/
  declared : Declared program { names := u.names, globals := u.globals, functions := u.functions }
  /-- Each declaration has the section it is to have. -/
  sections : SectionsOf u program found

theorem generate_clean {program : List Decl} {found : List Section} {final : GenState}
    (h : Clean (generate program) {} found final) (hproper : ∀ d ∈ program, d.Proper) :
    ∃ u, u.names = final.names ∧ Generated u program found := by
  unfold generate at h
  obtain ⟨_, s₁, hdeclared, h⟩ := h.bind_inv (attentive_declareAll program)
  have hdeclared : Declared program s₁ := by
    simpa using declareAll_clean program hdeclared declared_nil
  obtain ⟨hgrows, hsections⟩ := sections_clean program hproper h (hdeclared.globalsNamed hproper)
  refine ⟨⟨final.names, final.globals, final.functions, callSites program⟩, rfl, hproper, rfl, ?_, ?_⟩
  · exact hdeclared.mono ⟨hgrows.names, hgrows.globals, hgrows.functions⟩
  · exact hsections _ ⟨fun _ _ h => h, rfl, rfl⟩ fun _ h => h

/-! ## Loading -/

/-- A program holds what some declarations declare. -/
structure Holds (u : Tables) (program : List Decl) (p : Program) : Prop where
  function : ∀ f body, .function f ∈ program → f.body? = some body →
    ∃ code, FunctionCode u f body code ∧ p.functions.get? f.id = some (storedFunction f code)
  global : ∀ d, DeclaresVariable program d → ∃ v, p.globals.get? d.id = some v ∧ v.Fills d.type

/-- What a program held before a section was added to it, it still holds. -/
structure Keeps (p p' : Program) : Prop where
  functions : ∀ id stored, p.functions.get? id = some stored → p'.functions.get? id = some stored
  globals : ∀ id v, p.globals.get? id = some v → p'.globals.get? id = some v

/-- The functions that come in with some declarations. -/
def Brings (program : List Decl) (p p' : Program) : Prop :=
  ∀ id stored, p'.functions.get? id = some stored → p.functions.get? id = some stored
    ∨ ∃ f body, .function f ∈ program ∧ f.body? = some body ∧ f.id = id

theorem ofPayload_toPayload {v : Value} (h : v.WellFormed) : Value.ofPayload v.toPayload = .ok v := by
  simp only [Value.ofPayload, Value.toPayload, h.known, Bool.not_true, Bool.false_eq_true, if_false]
  split
  · next size hsize => rw [if_pos (h.size size hsize)]
  · rfl

section

variable {p : Program} {id : Id} (hfunctions : p.functions.get? id = none)
  (hglobals : p.globals.get? id = none)

include hfunctions hglobals

theorem has_eq_false : (p.functions.has id || p.globals.has id) = false := by
  rw [(Table.has_eq_false_iff _ _).mpr hfunctions, (Table.has_eq_false_iff _ _).mpr hglobals]
  rfl

theorem addSection_variable {kind : SectionKind} {v : Value} (hkind : kind = .field ∨ kind = .var)
    (hv : v.WellFormed) : p.addSection ⟨kind, id, v.toPayload⟩ = .ok { p with
      globals := p.globals.set id v
      fields := if kind = .field then p.fields ++ [id] else p.fields } := by
  have hnew := has_eq_false hfunctions hglobals
  have hfunction : kind ≠ .function := by rcases hkind with rfl | rfl <;> decide
  simp only [Program.addSection, hnew, Bool.false_eq_true, if_false, if_neg hfunction,
    ofPayload_toPayload hv]
  rw [if_pos (by simpa using hkind)]

theorem addSection_function {f : FunctionBody} :
    p.addSection ⟨.function, id, f.toPayload⟩ = .ok { p with
      functions := p.functions.set id f
      functionNames := p.functionNames.set id (p.nameOf id) } := by
  have hnew := has_eq_false hfunctions hglobals
  simp only [Program.addSection, hnew, Bool.false_eq_true, if_false, if_true]
  rfl

end

/-- The section of one declaration is added. -/
theorem addSection_of_sectionOf {u : Tables} {d : Decl} {found : Section} {p : Program}
    (h : SectionOf u d (some found)) (hfunctions : p.functions.get? d.id = none)
    (hglobals : p.globals.get? d.id = none) : ∃ p', p.addSection found = .ok p' ∧ Holds u [d] p'
      ∧ Keeps p p' ∧ Brings [d] p p'
      ∧ ∀ id, id ≠ d.id → p.functions.get? id = none → p.globals.get? id = none →
        p'.functions.get? id = none ∧ p'.globals.get? id = none := by
  -- fields and variables differ in their kind only
  have hvariable {kind : SectionKind} {v : Value} {e : VarDecl} (hid : e.id = d.id)
      (hkind : kind = .field ∨ kind = .var) (hv : v.Fills e.type)
      (hdecl : d = .field e ∨ d = .var e) : ∃ p',
      p.addSection ⟨kind, e.id, v.toPayload⟩ = .ok p' ∧ Holds u [d] p' ∧ Keeps p p'
        ∧ Brings [d] p p' ∧ ∀ id, id ≠ d.id → p.functions.get? id = none →
          p.globals.get? id = none → p'.functions.get? id = none ∧ p'.globals.get? id = none := by
    rw [hid]
    refine ⟨_, addSection_variable hfunctions hglobals hkind hv.toWellFormed, ⟨?_, ?_⟩, ⟨?_, ?_⟩, ?_, ?_⟩
    · intro f body hf
      rcases hdecl with rfl | rfl <;> simp at hf
    · intro e' he'
      obtain rfl : e' = e := by
        rcases he' with he' | he' <;> rcases hdecl with rfl | rfl <;> simp_all
      exact ⟨v, by rw [hid]; exact Table.get?_set_self .., hv⟩
    · exact fun _ _ h => h
    · intro id w hget
      rw [Table.get?_set, if_neg fun heq => by rw [heq, hglobals] at hget; cases hget]
      exact hget
    · exact fun _ _ h => .inl h
    · intro id hne hf hg
      exact ⟨hf, by rw [Table.get?_set, if_neg hne]; exact hg⟩
  cases h with
  | field hv => exact hvariable rfl (.inl rfl) hv (.inl rfl)
  | var hv => exact hvariable rfl (.inr rfl) hv (.inr rfl)
  -- a function goes into the other table
  | @function f body code hbody hcode =>
      refine ⟨_, addSection_function hfunctions hglobals, ⟨?_, ?_⟩, ⟨?_, ?_⟩, ?_, ?_⟩
      · intro g body' hg hbody'
        obtain rfl : g = f := by simpa using hg
        obtain rfl := Option.some.inj (hbody.symm.trans hbody')
        exact ⟨code, hcode, Table.get?_set_self ..⟩
      · intro d hd
        rcases hd with hd | hd <;> simp at hd
      · intro id stored hget
        rw [Table.get?_set, if_neg fun heq => by
          rw [heq] at hget
          exact absurd (hfunctions.symm.trans hget) (by simp)]
        exact hget
      · exact fun _ _ h => h
      · intro id stored hget
        rw [Table.get?_set] at hget
        split at hget
        · next heq => exact .inr ⟨f, body, by simp, hbody, heq.symm⟩
        · exact .inl hget
      · intro id hne hf hg
        exact ⟨by rw [Table.get?_set, if_neg hne]; exact hf, hg⟩

/-- The sections of a unit are added one after the other to a program that has none of their ids; what
each of them does adds up to what all of them do. -/
theorem addSections_relates {u : Tables} {R : List Decl → Program → Program → Prop}
    (hnil : ∀ p, R [] p p) (hskip : ∀ f p, f.body? = none → R [.function f] p p)
    (hjoin : ∀ {a b p p₁ p₂}, R a p p₁ → R b p₁ p₂ → R (a ++ b) p p₂)
    {program : List Decl} {found : List Section} (h : SectionsOf u program found) :
    (∀ d ∈ program, ∀ first p, SectionOf u d (some first) → p.functions.get? d.id = none →
      p.globals.get? d.id = none → ∃ p', p.addSection first = .ok p' ∧ R [d] p p'
        ∧ ∀ id, id ≠ d.id → p.functions.get? id = none → p.globals.get? id = none →
          p'.functions.get? id = none ∧ p'.globals.get? id = none) →
    ∀ p : Program, ((program.filter hasSection).map Decl.id).Nodup →
    (∀ d ∈ program, hasSection d = true → p.functions.get? d.id = none
      ∧ p.globals.get? d.id = none) →
    ∃ p', p.addSections found = (p', none) ∧ R program p p' := by
  induction h with
  | nil => exact fun _ p _ _ => ⟨p, rfl, hnil p⟩
  | @cons d rest first more hfirst hmore ih =>
      intro hstep p hdistinct hfresh
      have ih := ih fun e he => hstep e (List.mem_cons_of_mem d he)
      cases first with
      -- an announced function has no section
      | none =>
          obtain ⟨f, rfl, hbody⟩ : ∃ f, d = .function f ∧ f.body? = none := by
            cases hfirst with
            | announced hbody => exact ⟨_, rfl, hbody⟩
          have hsection : hasSection (.function f) = false := by simp [hasSection, hbody]
          obtain ⟨p', hadd, hrest⟩ := ih p
            (by simpa [List.filter_cons, hsection] using hdistinct)
            (fun e he => hfresh e (by simp [he]))
          exact ⟨p', by simpa using hadd, hjoin (hskip f p hbody) hrest⟩
      | some first =>
          have hsection : hasSection d = true := by
            cases hfirst with
            | field => rfl
            | var => rfl
            | function hbody => simp [hasSection, hbody]
          -- its id is not used further back, so the rest is loaded as if nothing had been added
          obtain ⟨hd, hdistinct⟩ : d.id ∉ (rest.filter hasSection).map Decl.id
              ∧ ((rest.filter hasSection).map Decl.id).Nodup := by
            simpa only [List.filter_cons, hsection, if_true, List.map_cons, List.nodup_cons]
              using hdistinct
          obtain ⟨hfunctions, hglobals⟩ := hfresh d (by simp) hsection
          obtain ⟨p₁, hadd₁, hfirst₁, hrest₁⟩ :=
            hstep d (by simp) first p hfirst hfunctions hglobals
          obtain ⟨p', hadd, hrest⟩ := ih p₁ hdistinct fun e he hesection => by
            obtain ⟨hef, heg⟩ := hfresh e (by simp [he]) hesection
            refine hrest₁ e.id (fun heq => hd ?_) hef heg
            rw [← heq]
            exact List.mem_map.mpr ⟨e, List.mem_filter.mpr ⟨he, hesection⟩, rfl⟩
          refine ⟨p', ?_, hjoin hfirst₁ hrest⟩
          simp only [Option.toList_some, List.singleton_append, Program.addSections, hadd₁]
          exact hadd

theorem Holds.append {u : Tables} {a b : List Decl} {p p' : Program} (ha : Holds u a p)
    (hb : Holds u b p') (hkeeps : Keeps p p') : Holds u (a ++ b) p' where
  function f body hf hbody := by
    rcases List.mem_append.mp hf with hf | hf
    · obtain ⟨code, hcode, hget⟩ := ha.function f body hf hbody
      exact ⟨code, hcode, hkeeps.functions _ _ hget⟩
    · exact hb.function f body hf hbody
  global d hd := by
    rcases hd.of_append with hd | hd
    · obtain ⟨v, hget, hv⟩ := ha.global d hd
      exact ⟨v, hkeeps.globals _ _ hget, hv⟩
    · exact hb.global d hd

theorem Brings.append {a b : List Decl} {p p₁ p₂ : Program} (ha : Brings a p p₁)
    (hb : Brings b p₁ p₂) : Brings (a ++ b) p p₂ := by
  intro id stored hget
  rcases hb id stored hget with hget | ⟨f, body, hf, hrest⟩
  · rcases ha id stored hget with hbefore | ⟨f, body, hf, hrest⟩
    · exact .inl hbefore
    · exact .inr ⟨f, body, List.mem_append_left b hf, hrest⟩
  · exact .inr ⟨f, body, List.mem_append_right a hf, hrest⟩

/-- The sections of a unit are added to a program that has none of their ids. -/
theorem addSections_of_sectionsOf {u : Tables} {program : List Decl} {found : List Section}
    (h : SectionsOf u program found) : ∀ p : Program,
    ((program.filter hasSection).map Decl.id).Nodup →
    (∀ d ∈ program, hasSection d = true → p.functions.get? d.id = none
      ∧ p.globals.get? d.id = none) →
    ∃ p', p.addSections found = (p', none) ∧ Holds u program p' ∧ Keeps p p'
      ∧ Brings program p p' := by
  have hkeeps (p : Program) : Keeps p p := ⟨fun _ _ h => h, fun _ _ h => h⟩
  refine addSections_relates (R := fun program p p' => Holds u program p' ∧ Keeps p p'
    ∧ Brings program p p') ?_ ?_ ?_ h ?_
  · refine fun p => ⟨⟨fun f body hf => (by cases hf), fun d hd => ?_⟩, hkeeps p, fun _ _ h => .inl h⟩
    rcases hd with hd | hd <;> cases hd
  · refine fun f p hbody => ⟨⟨fun g body hg hgbody => ?_, fun d hd => ?_⟩, hkeeps p,
      fun _ _ h => .inl h⟩
    · obtain rfl : g = f := by simpa using hg
      rw [hbody] at hgbody
      cases hgbody
    · rcases hd with hd | hd <;> simp at hd
  · rintro a b p p₁ p₂ ⟨hholds, hkeeps, hbrings⟩ ⟨hholds', hkeeps', hbrings'⟩
    refine ⟨hholds.append hholds' hkeeps', ⟨fun id stored hget => ?_, fun id v hget => ?_⟩,
      hbrings.append hbrings'⟩
    · exact hkeeps'.functions _ _ (hkeeps.functions _ _ hget)
    · exact hkeeps'.globals _ _ (hkeeps.globals _ _ hget)
  · intro d _ first p hfirst hfunctions hglobals
    obtain ⟨p', hadd, hholds, hkeeps, hbrings, hrest⟩ :=
      addSection_of_sectionOf hfirst hfunctions hglobals
    exact ⟨p', hadd, ⟨hholds, hkeeps, hbrings⟩, hrest⟩

/-- A unit loads into an empty program, which then holds its functions and variables and no other
function. -/
theorem Generated.load {u : Tables} {program : List Decl} {script : Script}
    (h : Generated u program script.sections) : ∃ p, ({} : Program).load script = (p, none)
      ∧ Holds u program p ∧ ∀ id stored, p.functions.get? id = some stored →
        ∃ f body, .function f ∈ program ∧ f.body? = some body ∧ f.id = id := by
  obtain ⟨p, hadd, hholds, -, hbrings⟩ := addSections_of_sectionsOf h.sections
    (({} : Program).setNames (((script.library?.map (·.exports)).getD []).map fun e => (e.id, e.name)))
    h.declared.distinct (fun _ _ _ => ⟨rfl, rfl⟩)
  refine ⟨p, hadd, hholds, fun id stored hget => ?_⟩
  rcases hbrings id stored hget with hbefore | hfound
  · cases hbefore
  · exact hfound

end Gen

/-- A unit that compiles, with its tables. -/
theorem compile_generated {store : FileStore} {options : CompileOptions}
    {sources : List Macros.Source} {history : List Text} {script : Script}
    (h : (compile store options sources history).script? = some script) :
    ∃ u, u.names = (compile store options sources history).names
      ∧ Gen.Generated u (compile store options sources history).program script.sections := by
  obtain ⟨-, -, -, final, hgenerated, hnames⟩ := compile_clean h
  obtain ⟨u, hu, hunit⟩ := Gen.generate_clean hgenerated (compile_proper h)
  exact ⟨u, hu.trans hnames.symm, hunit⟩

end TickScript
