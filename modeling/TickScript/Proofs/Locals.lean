import TickScript.Proofs.Codegen.Scopes
import TickScript.Proofs.Machine.Frames
import TickScript.Proofs.Machine.Loading
import TickScript.Proofs.Syntax

/-!
# Local variables live as long as their scope

The generator keeps a symbol table of the variables that can be seen, the machine keeps in each call
the variables that exist. Whenever a call stands at the code of a statement, it has exactly the
variables of the symbol table with which the statement was compiled (`locals_live_in_scope`).

The proof puts together what two other modules say. `Proofs.Codegen.Scopes` gives code whose
annotation has the variables of the scope at the code of each statement; `Proofs.Machine.Frames`
says that a call of annotated code has the annotated variables. Between the two stands the loading
of the script, which may have put the function among any others.
-/

namespace TickScript

open Gen

/-- A compiled script is loaded, perhaps among others, and machines run it in any way. Every statement
of a function has code in it, and a symbol table that lists the parameters and what the blocks around
the statement have declared before it. A call that stands at this code has these variables and no
others, on whatever path it came there. -/
theorem locals_live_in_scope {store : FileStore} {options : CompileOptions}
    {sources : List Macros.Source} {history : List Text} {script : Script} {p : Program}
    (hscript : (compile store options sources history).script? = some script)
    (hcarries : p.Carries script) (hshort : ∀ s ∈ script.sections, s.data.length < 2 ^ 63) :
    (∀ f body stmt, .function f ∈ (compile store options sources history).program →
        f.body? = some body → Within stmt body → ∃ offset declared g code,
          UnitSite (compile store options sources history).program f offset declared stmt g code)
    ∧ ∀ {f offset declared stmt g code},
        UnitSite (compile store options sources history).program f offset declared stmt g code →
        namesOf g.scope.symbols = declared ∧ ∀ m, Machine.Arises p m → m.killFlag = false →
          ∀ call ∈ m.frames, call.id = f.id → call.ip = offset →
            Placed call.function.code offset code
              ∧ ∀ id, call.locals.has id = true ↔ id ∈ ids g.scope.symbols := by
  obtain ⟨-, -, -, final, hrun, -⟩ := compile_clean hscript
  refine ⟨fun f body stmt hf hbody hin => hin.exists_unitSite hrun hf hbody, ?_⟩
  intro f offset declared stmt g code hsite
  obtain ⟨hnames, whole, behind, hreturns, hsection, hlifetimes⟩ :=
    hsite.lives hrun (compile_proper hscript)
  refine ⟨hnames, fun m hm halive call hcall hid hip => ?_⟩
  obtain ⟨stored, hstored, hfunction⟩ := hcarries _ hsection rfl
  obtain rfl := Except.ok.inj hstored
  have hlong : (Instr.encodeAll whole).length < 2 ^ 63 := by
    have hdata := hshort _ hsection
    simp only [FunctionBody.toPayload, storedFunction, List.length_cons] at hdata
    omega
  have hencodable := hreturns.encodable hlong
  obtain ⟨A, rfl, hentry, hflows, hplaces⟩ := hlifetimes
  let chart : Chart := ⟨f.id, storedFunction f A.code, A, behind⟩
  have hchart : chart.Describes p := ⟨hfunction, rfl, hencodable, hlong, hentry, hflows⟩
  have hfollows := (hm.follows hchart).resolve_left (by simp [halive])
  obtain ⟨hsame, alive, hlives', hlocals⟩ := hfollows call hcall hid
  -- the call stands where the annotation has the variables of the scope
  have hlives := hplaces _ _ _ ⟨rfl, rfl, rfl⟩
  rw [hip] at hlives'
  obtain rfl := hlives'.unique hlives
  rw [hsame]
  exact ⟨hlives.placed hencodable, hlocals⟩

/-! ## A run with a variable that hides another -/

/-- A loop whose body declares a variable with the name of the parameter. -/
def hidingSource : Macros.Source :=
  ⟨"hide", "define f(int n) = void { while (n < 2) { n++; int n = 7; n = n + 1; } }"⟩

/-- The unit of `hidingSource`. -/
def hidingUnit : Compiled := compile (.memory { cwd := "/" }) {} [hidingSource]

/-- The script of `hidingSource`, loaded. -/
def hidingProgram : Program := (({} : Program).load (hidingUnit.script?.getD default)).1

/-- Runs a stage, if nothing is reported. -/
def Stage.clean? {σ α : Type} (x : Stage σ α) (s : σ) : Option (α × σ) :=
  match x s ⟨true, []⟩ with
  | .ok answer ⟨true, []⟩ => some answer
  | _ => none

theorem Stage.clean_of_clean? {σ α : Type} {x : Stage σ α} {s s' : σ} {a : α}
    (h : x.clean? s = some (a, s')) : x.Clean s a s' := by
  unfold clean? at h
  split at h
  · next answer hrun =>
      obtain rfl := Option.some.inj h
      exact hrun
  · cases h

/-- In a unit with one function whose body is a loop over three statements: the id of the function,
where the last statement stands, and the ids of the variables in its scope. -/
def lastInLoop? (program : List Decl) : Option (Id × Nat × List Id) :=
  match program with
  | [.function ⟨name, _, params, returnType,
      some [.loop _ _ kind _ _ start [first, second, last]]⟩] => do
    let ctx : FunctionContext := ⟨name, returnType⟩
    let (_, s) ← Stage.clean? (declareAll program) {}
    let (symbols, s) ← Stage.clean? (declareParams params) { s with scope := ⟨name, [], []⟩ }
    let (started, s) ← Stage.clean? (startCode start) { s with scope := s.scope.enter }
    let (front, s) ← Stage.clean? (stmt ctx first) { s with scope := s.scope.enter }
    let (middle, s) ← Stage.clean? (stmt ctx second) s
    let _ ← Stage.clean? (stmt ctx last) s
    let inLoop := Instr.sizeAll front + (Instr.sizeAll middle + 0)
    return (Name.id name, Instr.sizeAll (prologue symbols)
      + (Instr.sizeAll started.2 + (loopOffset kind + inLoop)), ids s.scope.symbols)
  | _ => none

theorem site_lastInLoop {program : List Decl} {id : Id} {offset : Nat} {alive : List Id}
    (h : lastInLoop? program = some (id, offset, alive)) : ∃ f declared stmt g code,
      UnitSite program f offset declared stmt g code ∧ f.id = id ∧ ids g.scope.symbols = alive := by
  unfold lastInLoop? at h
  split at h
  · next name _ params returnType _ _ kind _ _ start first second last =>
      simp only [Option.bind_eq_bind, Option.bind_eq_some_iff, Prod.exists] at h
      obtain ⟨_, s₁, hdeclare, symbols, s₂, hparams, started, prologueCode, s₃, hstarted, front, s₄,
        hfront, middle, s₅, hmiddle, code, s₆, hlast, hanswer⟩ := h
      obtain ⟨rfl, rfl, rfl⟩ : Name.id name = id ∧ _ = offset ∧ ids s₅.scope.symbols = alive := by
        simpa using hanswer
      have hnone : Stage.Clean (sections []) s₁ [] s₁ := by
        unfold sections
        exact Stage.clean_pure.mpr ⟨rfl, rfl⟩
      exact ⟨_, _, last, s₅, code, .function (List.nil_append _).symm rfl
        (Stage.clean_of_clean? hdeclare) hnone
        (.body (Stage.clean_of_clean? hparams)
          (.head (.loop (Stage.clean_of_clean? hstarted) (.block
            (.tail (Stage.clean_of_clean? hfront) (.tail (Stage.clean_of_clean? hmiddle)
              (.head (.here (Stage.clean_of_clean? hlast))))))))), rfl, rfl⟩
  · cases h

/-- The machine in the second round of the loop. -/
def hidingRun : Option Machine :=
  ((Machine.ofProgram hidingProgram).callId (Name.id "f") [.ofInt 0]).toOption.bind fun m =>
    (m.steps 41).toOption

/-- In front of the last statement of the loop, the call has the parameter and the variable that hides
it. -/
theorem hidingRun_locals : ∃ m call f declared stmt g code, Machine.Arises hidingProgram m
    ∧ call ∈ m.frames ∧ call.id = f.id ∧ call.ip = 116
    ∧ UnitSite hidingUnit.program f 116 declared stmt g code ∧ namesOf g.scope.symbols = declared
    ∧ Placed call.function.code 116 code
    ∧ ∀ id, call.locals.has id = true ↔ id = Name.id "f.n" ∨ id = Name.id "f.n$2" := by
  obtain ⟨hcompiled, hloaded, hlengths, hlast, hcalls⟩ :
      hidingUnit.script?.isSome = true
        ∧ (({} : Program).load (hidingUnit.script?.getD default)).2 = none
        ∧ (∀ s ∈ (hidingUnit.script?.getD default).sections, s.data.length < 2 ^ 63)
        ∧ lastInLoop? hidingUnit.program
          = some (Name.id "f", 116, [Name.id "f.n", Name.id "f.n$2"])
        ∧ hidingRun.map (fun m => (m.killFlag, m.frames.map fun call => (call.id, call.ip)))
          = some (false, [(Name.id "f", 116)]) := by
    decide +kernel
  obtain ⟨script, hscript⟩ := Option.isSome_iff_exists.mp hcompiled
  rw [hscript, Option.getD_some] at hloaded hlengths
  have hload : ({} : Program).load script = (hidingProgram, none) := by
    refine Prod.ext ?_ hloaded
    rw [hidingProgram, hscript]
    rfl
  obtain ⟨m, hm, hmcalls⟩ := Option.map_eq_some_iff.mp hcalls
  obtain ⟨halive, hframes⟩ := Prod.mk.inj hmcalls
  obtain ⟨call, rest, hcall⟩ : ∃ call rest, m.frames = call :: rest :=
    List.exists_cons_of_ne_nil (by rintro hnil; simp [hnil] at hframes)
  obtain ⟨⟨hid, hip⟩, -⟩ : (call.id = Name.id "f" ∧ call.ip = 116) ∧ rest = [] := by
    simpa [hcall] using hframes
  have hmem : call ∈ m.frames := by simp [hcall]
  have harises : Machine.Arises hidingProgram m := by
    obtain ⟨started, hstarted, hsteps⟩ := Option.bind_eq_some_iff.mp hm
    exact (Machine.Arises.new.call (Machine.toOption_eq_some hstarted)).steps 41
      (Machine.toOption_eq_some hsteps)
  obtain ⟨f, declared, stmt, g, code, hsite, hf, hids⟩ := site_lastInLoop hlast
  obtain ⟨hnames, hlocals⟩ :=
    (locals_live_in_scope hscript (Program.carries_load hload) hlengths).2 hsite
  obtain ⟨hplaced, hhas⟩ := hlocals m harises halive call hmem (hid.trans hf.symm) hip
  refine ⟨m, call, f, declared, stmt, g, code, harises, hmem, hid.trans hf.symm, hip, hsite, hnames,
    hplaced, fun id => ?_⟩
  rw [hhas, hids]
  simp

end TickScript
