import TickScript.Proofs.Codegen.Lifetimes
import TickScript.Proofs.Codegen.Names

/-!
# The scope of a statement and the variables alive at its code

The generator comes to a statement with a symbol table of its own: other branches have been compiled
before, in an order that is not that of the code. `Site` says in which state a statement is compiled
and where its code ends up. Every statement of a body has a site (`Within.exists_unitSite`), and at its
code exactly the variables of its symbol table are alive (`UnitSite.lives`).

`Site` is a relation and not a function, because the state in which a statement is compiled depends
on runs of the generator that come before it in the order of compiling and not in that of the code.
It has one rule for each way in which a statement stands inside of another one. A site is where two
inductions meet: one says that every statement has a site, the other that the code at the place of a
site has the variables of its scope alive. Both are over the syntax of the body, and both are
assembled from one lemma for each kind of statement.

Lifetimes are sets of ids, so they do not depend on the order of the symbols in a table; that ids of
visible variables differ (`Inside.nodup`) is what makes freeing a block remove its variables only.
-/

namespace TickScript

namespace Stage

/-- A stage has one clean run from a state. -/
theorem Clean.unique {σ α : Type} {x : Stage σ α} {s s₁ s₂ : σ} {a b : α} (h : Clean x s a s₁)
    (h' : Clean x s b s₂) : a = b ∧ s₁ = s₂ := by
  have hsame := h.symm.trans h'
  simpa using hsame

end Stage

namespace Gen

open Stage Annotated

/-! ## Where statements are compiled -/

/-- A piece of a body with the states in which the generator compiles it. -/
inductive Compiling where
  | one (stmt : Stmt) (s : GenState)
  | all (body : List Stmt) (s : GenState)
  | block (body : List Stmt) (s : GenState)
  /-- Branches in front of the code of the last one. That code, the other bodies and the tests are
  compiled one after the other, each starting in a state of its own. -/
  | chain (rest : Alternatives) (last : Code) (atLast atBodies atTests : GenState)

/-- While it compiles a piece, the generator compiles a statement in a state `g`, and what comes out
stands at an offset of the code of the piece. Since the piece began, the blocks around the statement
have declared some names. -/
inductive Site (ctx : FunctionContext) :
    Compiling → (offset : Nat) → (declared : List Text) → Stmt → (g : GenState) → Code → Prop
  /-- A statement in itself: what is compiled is the statement. -/
  | here {stmt s code s'} : Clean (Gen.stmt ctx stmt) s code s' → Site ctx (.one stmt s) 0 [] stmt s code
  /-- A site in the first of some statements is one in all of them. -/
  | head {first rest s offset declared stmt g code} :
    Site ctx (.one first s) offset declared stmt g code →
    Site ctx (.all (first :: rest) s) offset declared stmt g code
  /-- A site further back is compiled in the state that the first statement leaves, and stands
  behind its code. -/
  | tail {first rest s s₁ front offset declared stmt g code} :
    Clean (Gen.stmt ctx first) s front s₁ →
    Site ctx (.all rest s₁) offset declared stmt g code →
    Site ctx (.all (first :: rest) s) (Instr.sizeAll front + offset) (first.added ++ declared) stmt g
      code
  /-- A block is compiled in a scope that was entered for it. -/
  | block {body s offset declared stmt g code} :
    Site ctx (.all body { s with scope := s.scope.enter }) offset declared stmt g code →
    Site ctx (.block body s) offset declared stmt g code
  /-- The first branch is compiled after the last one and before the others; one instruction stands
  in front of the chain. -/
  | ifElse {name t condition body rest s last s₁ others s₂ offset declared stmt g code} :
    Clean (elseCode ctx rest) s last s₁ →
    Clean (branches ctx (.elseIf name t condition body rest)) s₁ others s₂ →
    Site ctx (.chain (.elseIf name t condition body rest) last s s₁ s₂) offset declared stmt g code →
    Site ctx (.one (.ifElse name t condition body rest) s) (1 + offset) declared stmt g code
  /-- The body is compiled behind what the loop starts with, and stands behind that as well. -/
  | loop {name t kind condition? step? start body s started s₁ offset declared stmt g code} :
    Clean (startCode start) { s with scope := s.scope.enter } started s₁ →
    Site ctx (.block body s₁) offset declared stmt g code →
    Site ctx (.one (.loop name t kind condition? step? start body) s)
      (Instr.sizeAll started.2 + (loopOffset kind + offset)) (start.added ++ declared) stmt g code
  /-- The last branch is compiled where the chain begins to be compiled. -/
  | otherwise {name t body last atLast atBodies atTests offset declared stmt g code} :
    Site ctx (.block body atLast) offset declared stmt g code →
    Site ctx (.chain (.otherwise name t body) last atLast atBodies atTests) offset declared stmt g code
  /-- The body of a branch stands behind its test, which is compiled after the bodies behind it. -/
  | branch {name t condition body rest last atLast atBodies atTests inside s₁ others s₂ tail s₃ test s₄
      offset declared stmt g code} :
    Clean (inBlock body (stmts ctx body)) atBodies inside s₁ →
    Clean (branches ctx rest) s₁ others s₂ → Clean (layBranches last others) atTests tail s₃ →
    Clean (expr .truth condition) s₃ test s₄ →
    Site ctx (.block body atBodies) offset declared stmt g code →
    Site ctx (.chain (.elseIf name t condition body rest) last atLast atBodies atTests)
      (bodyOffset test + offset) declared stmt g code
  /-- The branches further back stand behind the body and the jump over them. -/
  | behind {name t condition body rest last atLast atBodies atTests inside s₁ others s₂ tail s₃ test s₄
      offset declared stmt g code} :
    Clean (inBlock body (stmts ctx body)) atBodies inside s₁ →
    Clean (branches ctx rest) s₁ others s₂ → Clean (layBranches last others) atTests tail s₃ →
    Clean (expr .truth condition) s₃ test s₄ →
    Site ctx (.chain rest last atLast s₁ atTests) offset declared stmt g code →
    Site ctx (.chain (.elseIf name t condition body rest) last atLast atBodies atTests)
      (bodyOffset test + skipSize inside tail + offset) declared stmt g code

/-- An if statement is laid out as a chain that begins with its first branch. -/
theorem ifElse_clean {name : Text} {t : Token} {condition : Expr} {body : List Stmt}
    {rest : Alternatives} {ctx : FunctionContext} {s s' : GenState} {code : Code}
    (h : Clean (Gen.stmt ctx (.ifElse name t condition body rest)) s code s') :
    ∃ last s₁ others s₂ chain, Clean (elseCode ctx rest) s last s₁
      ∧ Clean (branches ctx (.elseIf name t condition body rest)) s₁ others s₂
      ∧ Clean (layBranches last others) s₂ chain s'
      ∧ code = .plain .saveCompare :: chain ++ [.plain .restoreCompare] := by
  unfold Gen.stmt at h
  obtain ⟨last, s₁, hlast, h⟩ := h.bind_inv (attentive_elseCode ctx rest)
  obtain ⟨first, s₂, hfirst, h⟩ := h.bind_inv (attentive_inBlock body (attentive_stmts ctx body))
  obtain ⟨others, s₃, hothers, h⟩ := h.bind_inv (attentive_branches ctx rest)
  obtain ⟨chain, s₄, hchain, h⟩ := h.bind_inv (attentive_layBranches _ _)
  obtain ⟨rfl, rfl⟩ := clean_pure.mp h
  refine ⟨last, s₁, ⟨t, condition, first⟩ :: others, s₃, chain, hlast, ?_, hchain, rfl⟩
  unfold branches
  exact hfirst.bind (hothers.bind (clean_pure.mpr ⟨rfl, rfl⟩))

/-- The body of a branch is compiled before those of the branches behind it, its test behind theirs. -/
theorem elseIf_clean {name : Text} {t : Token} {condition : Expr} {body : List Stmt}
    {rest : Alternatives} {ctx : FunctionContext} {atBodies atTests s s' : GenState}
    {all : List Branch} {last chain : Code}
    (hall : Clean (branches ctx (.elseIf name t condition body rest)) atBodies all s)
    (hchain : Clean (layBranches last all) atTests chain s') :
    ∃ inside s₁ others tail s₂ test s₃, Clean (inBlock body (stmts ctx body)) atBodies inside s₁
      ∧ Clean (branches ctx rest) s₁ others s ∧ Clean (layBranches last others) atTests tail s₂
      ∧ Clean (expr .truth condition) s₂ test s₃ ∧ Clean (branchCode t test inside tail) s₃ chain s' := by
  unfold branches at hall
  obtain ⟨inside, s₁, hinside, hall⟩ := hall.bind_inv (attentive_inBlock body (attentive_stmts ctx body))
  obtain ⟨others, s₂, hothers, hall⟩ := hall.bind_inv (attentive_branches ctx rest)
  obtain ⟨rfl, rfl⟩ := clean_pure.mp hall
  unfold layBranches at hchain
  obtain ⟨tail, s₃, htail, hchain⟩ := hchain.bind_inv (attentive_layBranches _ _)
  obtain ⟨test, s₄, htest, hchain⟩ := hchain.bind_inv (attentive_expr _ _)
  exact ⟨inside, s₁, others, tail, s₃, test, s₄, hinside, hothers, htail, htest, hchain⟩

mutual

/-- A statement stands in a body, or in a body inside of it. -/
inductive Within (stmt : Stmt) : List Stmt → Prop
  /-- The first statement of a list. -/
  | head {rest} : Within stmt (stmt :: rest)
  /-- A statement further on. -/
  | tail {first rest} : Within stmt rest → Within stmt (first :: rest)
  /-- A statement in one of the branches of a conditional. -/
  | ifElse {name t condition body alternatives rest} :
    WithinBranch stmt (.elseIf name t condition body alternatives) →
    Within stmt (.ifElse name t condition body alternatives :: rest)
  /-- A statement in the body of a loop. -/
  | loop {name t kind condition? step? start body rest} : Within stmt body →
    Within stmt (.loop name t kind condition? step? start body :: rest)

/-- A statement stands in the body of a branch. -/
inductive WithinBranch (stmt : Stmt) : Alternatives → Prop
  /-- A statement of the last branch. -/
  | otherwise {name t body} : Within stmt body → WithinBranch stmt (.otherwise name t body)
  /-- A statement of a branch with a condition. -/
  | branch {name t condition body rest} : Within stmt body →
    WithinBranch stmt (.elseIf name t condition body rest)
  /-- A statement of a branch further on. -/
  | behind {name t condition body rest} : WithinBranch stmt rest →
    WithinBranch stmt (.elseIf name t condition body rest)

end

/-- The generator compiles a statement while it compiles a piece. -/
def HasSite (ctx : FunctionContext) (piece : Compiling) (stmt : Stmt) : Prop :=
  ∃ offset declared g code, Site ctx piece offset declared stmt g code

/-- Whenever a body is compiled, a statement is. -/
def Sited (ctx : FunctionContext) (stmt : Stmt) (body : List Stmt) : Prop :=
  ∀ s code s', Clean (stmts ctx body) s code s' → HasSite ctx (.all body s) stmt

/-- Whenever branches are compiled and laid out, a statement is compiled. -/
def SitedBranch (ctx : FunctionContext) (stmt : Stmt) (rest : Alternatives) : Prop :=
  ∀ atLast atBodies atTests s₁ s₂ s₃ last others chain,
    Clean (elseCode ctx rest) atLast last s₁ → Clean (branches ctx rest) atBodies others s₂ →
    Clean (layBranches last others) atTests chain s₃ →
    HasSite ctx (.chain rest last atLast atBodies atTests) stmt

section

variable {ctx : FunctionContext} {stmt : Stmt}

/-- What has a site in a body has one in the block around it, where the generator compiles the body.
-/
theorem Sited.block {body : List Stmt} {s s' : GenState} {code : Code} (hbody : Sited ctx stmt body)
    (h : Clean (inBlock body (stmts ctx body)) s code s') : HasSite ctx (.block body s) stmt := by
  unfold inBlock enter at h
  simp only [clean_modify_bind] at h
  obtain ⟨inside, s₁, hinside, -⟩ := h.bind_inv (attentive_stmts ctx body)
  obtain ⟨offset, declared, g, here, hsite⟩ := hbody _ _ _ hinside
  exact ⟨offset, declared, g, here, .block hsite⟩

/-- The first statement of a body is compiled where the body is. -/
theorem sited_head {rest : List Stmt} : Sited ctx stmt (stmt :: rest) := by
  intro s code s' hrun
  unfold stmts at hrun
  obtain ⟨front, s₁, hfront, -⟩ := hrun.bind_inv (attentive_stmt ctx stmt)
  exact ⟨_, _, _, _, .head (.here hfront)⟩

/-- A statement further back is compiled in the state that the ones before it leave. -/
theorem Sited.tail {first : Stmt} {rest : List Stmt} (hrest : Sited ctx stmt rest) :
    Sited ctx stmt (first :: rest) := by
  intro s code s' hrun
  unfold stmts at hrun
  obtain ⟨front, s₁, hfront, hrun⟩ := hrun.bind_inv (attentive_stmt ctx first)
  obtain ⟨more, s₂, hmore, -⟩ := hrun.bind_inv (attentive_stmts ctx rest)
  obtain ⟨offset, declared, g, here, hsite⟩ := hrest _ _ _ hmore
  exact ⟨_, _, _, _, .tail hfront hsite⟩

/-- The alternatives of a chain are compiled before its first body. -/
theorem SitedBranch.ifElse {name : Text} {t : Token} {condition : Expr} {body rest : List Stmt}
    {alternatives : Alternatives}
    (hbranch : SitedBranch ctx stmt (.elseIf name t condition body alternatives)) :
    Sited ctx stmt (.ifElse name t condition body alternatives :: rest) := by
  intro s code s' hrun
  unfold stmts at hrun
  obtain ⟨front, s₁, hfront, -⟩ := hrun.bind_inv (attentive_stmt ctx _)
  obtain ⟨last, s₂, others, s₃, chain, hlast, hall, hchain, -⟩ := ifElse_clean hfront
  -- The last branch of the chain is the last one of the alternatives.
  have hlast' : Clean (elseCode ctx (.elseIf name t condition body alternatives)) s last s₂ := by
    unfold elseCode
    exact hlast
  obtain ⟨offset, declared, g, here, hsite⟩ := hbranch _ _ _ _ _ _ _ _ _ hlast' hall hchain
  exact ⟨_, _, _, _, .head (.ifElse hlast hall hsite)⟩

/-- The body of a loop is compiled behind its start, inside the block of the loop. -/
theorem Sited.loop {name : Text} {t : Token} {kind : LoopKind} {condition? : Option Expr}
    {step? : Option Expr} {start : LoopStart} {body rest : List Stmt} (hbody : Sited ctx stmt body) :
    Sited ctx stmt (.loop name t kind condition? step? start body :: rest) := by
  intro s code s' hrun
  unfold stmts at hrun
  obtain ⟨front, s₁, hfront, -⟩ := hrun.bind_inv (attentive_stmt ctx _)
  unfold Gen.stmt enter at hfront
  simp only [clean_modify_bind] at hfront
  obtain ⟨started, s₂, hstarted, hfront⟩ := hfront.bind_inv (attentive_startCode start)
  obtain ⟨inside, s₃, hinside, -⟩ :=
    hfront.bind_inv (attentive_inBlock body (attentive_stmts ctx body))
  obtain ⟨offset, declared, g, here, hsite⟩ := hbody.block hinside
  exact ⟨_, _, _, _, .head (.loop hstarted hsite)⟩

/-- The last branch of a chain is a block of its own. -/
theorem Sited.otherwise {name : Text} {t : Token} {body : List Stmt} (hbody : Sited ctx stmt body) :
    SitedBranch ctx stmt (.otherwise name t body) := by
  intro atLast atBodies atTests s₁ s₂ s₃ last others chain hlast hothers hchain
  unfold elseCode at hlast
  obtain ⟨offset, declared, g, here, hsite⟩ := hbody.block hlast
  exact ⟨_, _, _, _, .otherwise hsite⟩

/-- The body of a branch is a block of its own. -/
theorem Sited.branch {name : Text} {t : Token} {condition : Expr} {body : List Stmt}
    {rest : Alternatives} (hbody : Sited ctx stmt body) :
    SitedBranch ctx stmt (.elseIf name t condition body rest) := by
  intro atLast atBodies atTests s₁ s₂ s₃ last others chain hlast hothers hchain
  obtain ⟨inside, s₄, more, tail, s₅, test, s₆, hinside, hmore, htail, htest, -⟩ :=
    elseIf_clean hothers hchain
  obtain ⟨offset, declared, g, here, hsite⟩ := hbody.block hinside
  exact ⟨_, _, _, _, .branch hinside hmore htail htest hsite⟩

/-- A statement in a later branch has its site in that branch. -/
theorem SitedBranch.behind {name : Text} {t : Token} {condition : Expr} {body : List Stmt}
    {rest : Alternatives} (hrest : SitedBranch ctx stmt rest) :
    SitedBranch ctx stmt (.elseIf name t condition body rest) := by
  intro atLast atBodies atTests s₁ s₂ s₃ last others chain hlast hothers hchain
  obtain ⟨inside, s₄, more, tail, s₅, test, s₆, hinside, hmore, htail, htest, -⟩ :=
    elseIf_clean hothers hchain
  unfold elseCode at hlast
  obtain ⟨offset, declared, g, here, hsite⟩ := hrest _ _ _ _ _ _ _ _ _ hlast hmore htail
  exact ⟨_, _, _, _, .behind hinside hmore htail htest hsite⟩

/-- Every statement of a body is compiled while the body is. -/
theorem Within.sited {body : List Stmt} (h : Within stmt body) : Sited ctx stmt body :=
  -- The two relations are mutual: the recursor takes what is proved of each of them.
  @Within.rec stmt (fun body _ => Sited ctx stmt body) (fun rest _ => SitedBranch ctx stmt rest)
    sited_head (fun _ => Sited.tail) (fun _ => SitedBranch.ifElse) (fun _ => Sited.loop)
    (fun _ => Sited.otherwise) (fun _ => Sited.branch) (fun _ => SitedBranch.behind) body h

end

/-! ## The variables of a scope -/

/-- The ids of some variables. -/
def idSet (Γ : List Symbol) : Set Id := {id | id ∈ ids Γ}

theorem mem_idSet {Γ : List Symbol} {id : Id} : id ∈ idSet Γ ↔ id ∈ ids Γ := Iff.rfl

/-- A new variable is alive together with all that were. -/
theorem idSet_snoc (Γ : List Symbol) (symbol : Symbol) :
    idSet (Γ ++ [symbol]) = insert symbol.id (idSet Γ) := by
  ext id
  simp [mem_idSet, Set.mem_insert_iff, or_comm]

/-- Variables that can be seen at one place have different ids. -/
theorem Inside.nodup {ctx : FunctionContext} {outer inner : List Symbol} {s : GenState}
    (h : Inside ctx outer inner s) : (ids (outer ++ inner)).Nodup := by
  have hnodup {Γ : List Symbol} (hnamed : TickScript.Named ctx.name Γ) :
      (∀ symbol ∈ Γ, s.names.get? symbol.id = some symbol.qualified) → (ids Γ).Nodup := by
    induction hnamed with
    | nil =>
        intro _
        exact List.nodup_nil
    | @snoc Γ last hbefore hident hqualified _ ih =>
        intro hregistered
        rw [ids, List.map_append, List.map_singleton]
        apply List.nodup_append.mpr
        refine ⟨ih fun symbol hmem => hregistered symbol (by simp [hmem]), by simp, ?_⟩
        rintro id hid other hother rfl
        obtain ⟨symbol, hsymbol, hsame⟩ := List.mem_map.mp hid
        obtain rfl := List.mem_singleton.mp hother
        -- one id has one name behind it, but the last variable got a name of its own
        have hfirst := hregistered symbol (by simp [hsymbol])
        have hlast := hregistered last (by simp)
        rw [hsame, hlast] at hfirst
        apply hbefore.qualified_ne hsymbol hident
        rw [← hqualified]
        exact (Option.some.inj hfirst).symm
  rw [← h.symbols]
  apply hnodup
  · rw [← h.function]
    exact h.named
  · exact h.registered

/-- Freeing the variables of the innermost block leaves those of the blocks around it. -/
theorem idSet_diff {Γ Δ : List Symbol} (h : (ids (Γ ++ Δ)).Nodup) :
    idSet (Γ ++ Δ) \ {id | id ∈ (ids Δ).reverse} = idSet Γ := by
  rw [ids, List.map_append] at h
  have hdisjoint := (List.nodup_append.mp h).2.2
  ext id
  rw [Set.mem_sdiff, Set.mem_ofPred_eq, mem_idSet, mem_idSet, ids, List.map_append, List.mem_append,
    List.mem_reverse]
  constructor
  · rintro ⟨hmem | hmem, hnot⟩
    · exact hmem
    · exact absurd hmem hnot
  · intro hmem
    exact ⟨.inl hmem, fun hother => hdisjoint id hmem id hother rfl⟩

/-! ## Statements without statements inside -/

section

variable {u : Tables} {ctx : FunctionContext} {outer inner inner' Γ : List Symbol} {code : Code}

/-- Starting a variable makes and drops none. -/
theorem quiet_initCode {symbol : Symbol} {init? : Option Expr} (h : InitCode u Γ symbol init? code) :
    Quiet code := by
  cases h with
  | none => exact quiet_nil
  | constant => exact quiet_single rfl
  | value _ hcode => exact quiet_append.mpr ⟨quiet_exprCode hcode, quiet_single rfl⟩

/-- Neither does the step of a loop. -/
theorem quiet_nextCode {kind : LoopKind} {step? : Option Expr} (h : NextCode u Γ kind step? code) :
    Quiet code := by
  cases h with
  | none => exact quiet_nil
  | step _ hcode => exact quiet_exprCode hcode

/-- A declaration has one more variable alive behind it. -/
theorem lifetimes_declare {d : VarDecl} (h : StmtCode u ctx outer inner (.one (.declare d)) inner' code) :
    Lifetimes (idSet (outer ++ inner)) (idSet (outer ++ inner')) nowhere code := by
  cases h with
  | @declare _ _ _ symbol code _ _ _ hinit =>
      have hquiet := quiet_initCode hinit
      apply lifetimes_of_plain
      · exact List.forall_mem_cons.mpr ⟨rfl, hquiet.plain⟩
      · show survivors code (insert symbol.id (idSet (outer ++ inner))) = _
        rw [hquiet.survivors_eq, ← idSet_snoc, List.append_assoc]

/-- The start of a loop may declare one variable, which is alive behind it. -/
theorem lifetimes_start {start : LoopStart}
    (h : StmtCode u ctx outer inner (.start start) inner' code) :
    Lifetimes (idSet (outer ++ inner)) (idSet (outer ++ inner')) nowhere code := by
  cases h with
  | startNothing => exact quiet_nil.lifetimes
  | startDeclare h => exact lifetimes_declare h
  | startEvaluate hcode => exact (quiet_exprCode hcode).lifetimes

/-- A loop leaves no variable behind. -/
theorem inner_of_loop {name : Text} {t : Token} {kind : LoopKind} {condition? step? : Option Expr}
    {start : LoopStart} {body : List Stmt}
    (h : StmtCode u ctx outer inner (.one (.loop name t kind condition? step? start body)) inner' code) :
    inner' = inner := by
  cases h
  rfl

/-- A return is never left at its end. -/
theorem lifetimes_returnCode {e? : Option Expr} {before behind : Set Id}
    (h : ReturnCode u ctx Γ e? code) : Lifetimes before behind nowhere code := by
  have hleave {returnType : VarType} {result : Code} {freed : List Id}
      (hresult : ∀ i ∈ result, i.op.isJump = false) :
      Lifetimes before behind nowhere (leaveLayout returnType result freed) := by
    apply lifetimes_of_return
    refine List.forall_mem_append.mpr ⟨List.forall_mem_append.mpr
      ⟨hresult, plain_freeCode freed⟩, ?_⟩
    split
    · exact (quiet_literalCode _).plain
    · exact quiet_nil.plain
  cases h with
  | void => exact hleave quiet_nil.plain
  | zero => exact hleave (quiet_literalCode _).plain
  | constant =>
      apply hleave
      intro i hi
      simp only [List.mem_cons, List.not_mem_nil, or_false] at hi
      rcases hi with rfl | rfl | rfl <;> rfl
  | value _ _ hcode => exact hleave (quiet_exprCode hcode).plain

/-- Behind a return nothing is reached, so any set may be written there. -/
theorem lifetimes_exprStmt {name : Text} {t : Token} {kind : ExprKind} {value? : Option Expr}
    (h : StmtCode u ctx outer inner (.one (.expr name t kind value?)) inner' code)
    {behind : Set Id} (hbehind : kind = .return_ ∨ behind = idSet (outer ++ inner')) :
    Lifetimes (idSet (outer ++ inner)) behind nowhere code := by
  cases h with
  | return_ hreturn => exact lifetimes_returnCode hreturn
  | truth hcode =>
      obtain rfl := hbehind.resolve_left (by decide)
      exact (quiet_exprCode hcode).lifetimes
  | effect hkind _ hcode =>
      obtain rfl := hbehind.resolve_left hkind
      exact (quiet_exprCode hcode).lifetimes
  | nothing hkind =>
      obtain rfl := hbehind.resolve_left hkind
      exact quiet_nil.lifetimes

end

/-! ## Statements with statements inside -/

/-- The places of a piece: the code of its statements, each with the variables of its scope. -/
def scopePlaces (ctx : FunctionContext) (piece : Compiling) (offset : Nat) (alive : Set Id)
    (here : Code) : Prop :=
  ∃ declared stmt g, Site ctx piece offset declared stmt g here ∧ alive = idSet g.scope.symbols

/-- The code of a statement has the lifetimes of the scopes in it. A return is not left, so anything
may be alive behind it. -/
def StmtLives (ctx : FunctionContext) (stmt : Stmt) : Prop :=
  ∀ {outer inner : List Symbol} {s : GenState} {code : Code} {s' : GenState},
    Clean (Gen.stmt ctx stmt) s code s' → Inside ctx outer inner s →
    ∀ behind, endsWithReturn [stmt] = true ∨ behind = idSet s'.scope.symbols →
      Lifetimes (idSet (outer ++ inner)) behind (scopePlaces ctx (.one stmt s)) code

/-- The code of statements has the lifetimes of their scopes. A return at the end is not left, so
anything may be alive behind it. -/
def BodyLives (ctx : FunctionContext) (body : List Stmt) : Prop :=
  ∀ {outer inner : List Symbol} {s : GenState} {code : Code} {s' : GenState},
    Clean (stmts ctx body) s code s' → Inside ctx outer inner s →
    ∀ behind, endsWithReturn body = true ∨ behind = idSet s'.scope.symbols →
      Lifetimes (idSet (outer ++ inner)) behind (scopePlaces ctx (.all body s)) code

/-- Branches leave alive what is alive in front of them. -/
def ChainLives (ctx : FunctionContext) (rest : Alternatives) : Prop :=
  ∀ {outer inner : List Symbol} {atLast atBodies atTests s₁ s₂ s₃ : GenState} {last chain : Code}
    {others : List Branch},
    Clean (elseCode ctx rest) atLast last s₁ → Clean (branches ctx rest) atBodies others s₂ →
    Clean (layBranches last others) atTests chain s₃ → Inside ctx outer inner atLast →
    Inside ctx outer inner atBodies → Inside ctx outer inner atTests →
      Lifetimes (idSet (outer ++ inner)) (idSet (outer ++ inner))
        (scopePlaces ctx (.chain rest last atLast atBodies atTests)) chain

section

variable {ctx : FunctionContext} {outer inner : List Symbol} {s s' : GenState} {code : Code}

/-- The code of a statement starts with the variables of its scope alive; its other sites are those
of the statements inside. -/
theorem lifetimes_one {stmt : Stmt} {behind : Set Id} {places : Nat → Set Id → Code → Prop}
    (hrun : Clean (Gen.stmt ctx stmt) s code s') (hs : Inside ctx outer inner s)
    (hlives : Lifetimes (idSet (outer ++ inner)) behind places code)
    (hsites : ∀ offset declared st g here, Site ctx (.one stmt s) offset declared st g here →
      (offset = 0 ∧ g = s ∧ ∃ s₁, Clean (Gen.stmt ctx stmt) s here s₁)
        ∨ places offset (idSet g.scope.symbols) here) :
    Lifetimes (idSet (outer ++ inner)) behind (scopePlaces ctx (.one stmt s)) code := by
  apply hlives.start.mono
  rintro offset alive here ⟨declared, st, g, hsite, rfl⟩
  rcases hsites _ _ _ _ _ hsite with ⟨rfl, rfl, s₁, hrun'⟩ | hinside
  · rw [← hs.symbols]
    exact .inr ⟨rfl, rfl, (hrun.unique hrun').1.symm⟩
  · exact .inl hinside

/-- A block has the same variables alive before and behind it: its own are freed at its end. -/
theorem inBlock_lives {body : List Stmt} (ih : BodyLives ctx body) (hbody : Stmt.AllProper body)
    (h : Clean (inBlock body (stmts ctx body)) s code s') (hs : Inside ctx outer inner s) :
    Lifetimes (idSet (outer ++ inner)) (idSet (outer ++ inner)) (scopePlaces ctx (.block body s))
      code := by
  -- a statement has its site in the block exactly where it has one in the body
  have hsites (offset : Nat) (alive : Set Id) (here : Code) :
      scopePlaces ctx (.block body s) offset alive here →
      scopePlaces ctx (.all body { s with scope := s.scope.enter }) offset alive here := by
    rintro ⟨declared, stmt, g, hsite, rfl⟩
    cases hsite with
    | block hsite => exact ⟨declared, stmt, g, hsite, rfl⟩
  unfold inBlock enter at h
  simp only [clean_modify_bind] at h
  obtain ⟨inside, s₁, hinside, h⟩ := h.bind_inv (attentive_stmts ctx body)
  obtain ⟨found, s₂, hleave, h⟩ := h.bind_inv attentive_leave
  obtain ⟨dropped, hemits⟩ := stmts_clean ctx body hbody hinside hs.enter
  obtain ⟨rfl, -, -⟩ := leave_clean hleave hs ⟨hemits.names, hemits.globals, hemits.functions⟩
    hemits.inside hemits.marks
  have hstart : outer ++ inner ++ [] = outer ++ inner := List.append_nil _
  -- a body that ends in a return is followed by no freeing code
  split at h
  · next hends =>
      obtain ⟨rfl, -⟩ := clean_pure.mp h
      have hlives := ih hinside hs.enter (idSet (outer ++ inner)) (.inl hends)
      rw [hstart] at hlives
      exact hlives.mono hsites
  · obtain ⟨rfl, -⟩ := clean_pure.mp h
    have hlives := ih hinside hs.enter _ (.inr rfl)
    rw [hstart, hemits.inside.symbols] at hlives
    -- otherwise the freeing code takes what the body declared out again
    have hfreed := lifetimes_freeCode (ids found).reverse (idSet (outer ++ inner ++ found))
    rw [idSet_diff hemits.inside.nodup] at hfreed
    apply (hlives.append hfreed).mono
    intro offset alive here hplace
    exact .inl (hsites _ _ _ hplace)

/-- A branch with a condition, in front of the others. -/
theorem elseIf_lives {name : Text} {t : Token} {condition : Expr} {body : List Stmt}
    {rest : Alternatives} (ihbody : BodyLives ctx body) (ihrest : ChainLives ctx rest)
    (hcondition : condition.Proper) (hbody : Stmt.AllProper body) (hrest : rest.Proper) :
    ChainLives ctx (.elseIf name t condition body rest) := by
  intro outer inner atLast atBodies atTests s₁ s₂ s₃ last chain all hlast hall hchain hsLast hsBodies
    hsTests
  unfold elseCode at hlast
  obtain ⟨inside, s₄, others, tail, s₆, test, s₇, hinside, hothers, htail, htest, hlaid⟩ :=
    elseIf_clean hall hchain
  have hs₄ := hsBodies.steady (inBlock_clean hinside hsBodies (stmts_clean ctx body hbody)).1
  -- the conditions are compiled behind all bodies, from the state that these leave
  have hconditions := (branches_clean ctx rest hrest hothers hs₄).2.1
  obtain ⟨-, hfits, rfl⟩ := branchCode_clean hlaid
  have hs₆ := hsTests.steady (layBranches_clean hsTests.toScoped others hconditions htail)
  -- a test makes no variable, so what is alive in front of it is alive behind it
  have hquiet := quiet_exprCode ((expr_clean .truth condition hcondition htest hs₆.toScoped).code
    ⟨s₇.names, s₇.globals, s₇.functions, condition.callSites⟩ ⟨fun _ _ h => h, rfl, rfl⟩ fun _ h => h)
  have hlives := Lifetimes.branch hquiet.lifetimes (inBlock_lives ihbody hbody hinside hsBodies)
    (ihrest hlast hothers htail hsLast hs₄ hsTests) hfits
  apply hlives.mono
  -- a statement stands in the body of this branch or in one of those behind it
  rintro offset alive here ⟨declared, stmt, g, hsite, rfl⟩
  cases hsite with
  | branch hinside' hothers' htail' htest' hsite =>
      obtain ⟨rfl, rfl⟩ := hinside.unique hinside'
      obtain ⟨rfl, rfl⟩ := hothers.unique hothers'
      obtain ⟨rfl, rfl⟩ := htail.unique htail'
      obtain ⟨rfl, rfl⟩ := htest.unique htest'
      exact .inl ⟨_, rfl, declared, stmt, g, hsite, rfl⟩
  | behind hinside' hothers' htail' htest' hsite =>
      obtain ⟨rfl, rfl⟩ := hinside.unique hinside'
      obtain ⟨rfl, rfl⟩ := hothers.unique hothers'
      obtain ⟨rfl, rfl⟩ := htail.unique htail'
      obtain ⟨rfl, rfl⟩ := htest.unique htest'
      exact .inr ⟨_, rfl, declared, stmt, g, hsite, rfl⟩

/-- A declaration alone contains no other statement. -/
theorem declare_lives {d : VarDecl} (hproper : (Stmt.declare d).Proper) :
    StmtLives ctx (.declare d) := by
  intro outer inner s code s' h hs behind hbehind
  obtain ⟨inner', hemits⟩ := stmt_clean ctx (.declare d) hproper h hs
  obtain rfl := hbehind.resolve_left (by simp [endsWithReturn])
  rw [hemits.inside.symbols]
  apply lifetimes_one h hs (lifetimes_declare hemits.final)
  intro offset declared st g here hsite
  cases hsite with
  | here hrun => exact .inl ⟨rfl, rfl, _, hrun⟩

/-- An expression contains no statement. -/
theorem exprStmt_lives {name : Text} {t : Token} {kind : ExprKind} {value? : Option Expr}
    (hproper : (Stmt.expr name t kind value?).Proper) : StmtLives ctx (.expr name t kind value?) := by
  intro outer inner s code s' h hs behind hbehind
  obtain ⟨inner', hemits⟩ := stmt_clean ctx (.expr name t kind value?) hproper h hs
  have hkind : kind = .return_ ∨ behind = idSet (outer ++ inner') := by
    rw [← hemits.inside.symbols]
    apply hbehind.imp_left
    intro hends
    cases kind <;> simp_all [endsWithReturn]
  apply lifetimes_one h hs (lifetimes_exprStmt hemits.final hkind)
  intro offset declared st g here hsite
  cases hsite with
  | here hrun => exact .inl ⟨rfl, rfl, _, hrun⟩

/-- The branches of a chain keep what is alive, and every statement in one of them has its place
there. -/
theorem ifElse_lives {name : Text} {t : Token} {condition : Expr} {body : List Stmt}
    {rest : Alternatives} (ihbody : BodyLives ctx body) (ihrest : ChainLives ctx rest)
    (hcondition : condition.Proper) (hbody : Stmt.AllProper body) (hrest : rest.Proper) :
    StmtLives ctx (.ifElse name t condition body rest) := by
  intro outer inner s code s' h hs behind hbehind
  have hproper : (Alternatives.elseIf name t condition body rest).Proper := by
    simpa only [Alternatives.Proper] using ⟨hcondition, hbody, hrest⟩
  obtain ⟨last, s₁, others, s₂, chain, hlast, hall, hchain, rfl⟩ := ifElse_clean h
  have hs₁ := hs.steady (elseCode_clean ctx rest hrest hlast hs).1
  obtain ⟨hsteady₂, hconditions, -⟩ := branches_clean ctx _ hproper hall hs₁
  have hs₂ := hs₁.steady hsteady₂
  have hs₃ := hs₂.steady (layBranches_clean hs₂.toScoped _ hconditions hchain)
  obtain rfl := hbehind.resolve_left (by simp [endsWithReturn])
  rw [hs₃.symbols]
  have hchainLives : ChainLives ctx (.elseIf name t condition body rest) :=
    elseIf_lives ihbody ihrest hcondition hbody hrest
  have hlives := hchainLives (by unfold elseCode; exact hlast) hall hchain hs hs₁ hs₂
  have hsave : Quiet [.plain .saveCompare] := quiet_single rfl
  have hrestore : Quiet [.plain .restoreCompare] := quiet_single rfl
  apply lifetimes_one h hs ((hsave.lifetimes.append hlives).append hrestore.lifetimes)
  intro offset declared st g here hsite
  cases hsite with
  | here hrun => exact .inl ⟨rfl, rfl, _, hrun⟩
  | ifElse hlast' hall' hsite =>
      obtain ⟨rfl, rfl⟩ := hlast.unique hlast'
      obtain ⟨rfl, rfl⟩ := hall.unique hall'
      exact .inr (.inl (.inr ⟨_, rfl, declared, st, g, hsite, rfl⟩))

/-- The variables of the start live in the body, the step and the test, and not behind the loop. -/
theorem loop_lives {name : Text} {t : Token} {kind : LoopKind} {condition? step? : Option Expr}
    {start : LoopStart} {body : List Stmt} (ihbody : BodyLives ctx body)
    (hproper : (Stmt.loop name t kind condition? step? start body).Proper) :
    StmtLives ctx (.loop name t kind condition? step? start body) := by
  intro outer inner s code s' h hs behind hbehind
  obtain ⟨hcondition, hstep, hstart, hbody⟩ : (∀ e, condition? = some e → e.Proper)
      ∧ (∀ e, step? = some e → e.Proper) ∧ start.Proper ∧ Stmt.AllProper body := by
    simpa only [Stmt.Proper] using hproper
  have hcondition : (condition?.getD (alwaysTrue t)).Proper := by
    cases condition? with
    | none => simp [alwaysTrue, Expr.Proper]
    | some e => exact hcondition e rfl
  -- `hrun` keeps the run of the whole loop, `h` is taken apart
  have hrun := h
  unfold Gen.stmt enter at h
  simp only [clean_modify_bind] at h
  obtain ⟨started, s₁, hstarted, h⟩ := h.bind_inv (attentive_startCode start)
  obtain ⟨inside, s₂, hinside, h⟩ :=
    h.bind_inv (attentive_inBlock body (attentive_stmts ctx body))
  obtain ⟨around, s₃, haround, h⟩ := h.bind_inv (attentive_loopCode _ _ _ _ _)
  obtain ⟨release, s₄, hrelease, h⟩ := h.bind_inv (attentive_releaseCode _)
  obtain ⟨found, s₅, hleave, h⟩ := h.bind_inv attentive_leave
  obtain ⟨rfl, rfl⟩ := clean_pure.mp h
  have hemits := startCode_clean hstarted hstart hs.enter
  simp only [List.nil_append] at hemits
  have hs₁ := hemits.inside
  have hs₂ := hs₁.steady (inBlock_clean hinside hs₁ (stmts_clean ctx body hbody)).1
  obtain ⟨hsteady₃, next, test, rfl, hfits, hparts⟩ :=
    loopCode_clean haround hcondition hstep hs₂.toScoped
  obtain ⟨hnext, htest⟩ := hparts ⟨s₃.names, s₃.globals, s₃.functions, _⟩
    ⟨fun _ _ h => h, rfl, rfl⟩ fun _ h => h
  obtain ⟨rfl, -⟩ := releaseCode_clean hrelease (hs₂.steady hsteady₃)
  -- the loop gives the scope back as it was
  obtain ⟨inner', hwhole⟩ := stmt_clean ctx _ hproper hrun hs
  obtain rfl := hbehind.resolve_left (by simp [endsWithReturn])
  rw [hwhole.inside.symbols, inner_of_loop hwhole.final]
  -- the lives of the variable of the loop, of the body and of what is freed at the end
  have hprologue := lifetimes_start hemits.final
  have hbodyLives := inBlock_lives ihbody hbody hinside hs₁
  have hloop := (hbodyLives.append (quiet_nextCode hnext).lifetimes).loop
    (quiet_exprCode htest).lifetimes hfits
  have hfreed := lifetimes_freeCode (ids started.1.toList).reverse
    (idSet (outer ++ inner ++ started.1.toList))
  rw [idSet_diff hs₁.nodup] at hfreed
  rw [List.append_nil] at hprologue
  apply lifetimes_one hrun hs ((hprologue.append hloop).append hfreed)
  intro offset declared st g here hsite
  cases hsite with
  | here hrun => exact .inl ⟨rfl, rfl, _, hrun⟩
  | loop hstarted' hsite =>
      obtain ⟨rfl, rfl⟩ := hstarted.unique hstarted'
      exact .inr (.inl (.inr ⟨_, rfl, _, rfl, .inl ⟨_, st, g, hsite, rfl⟩⟩))

theorem bodyLives_nil : BodyLives ctx [] := by
  intro outer inner s code s' h hs behind hbehind
  unfold stmts at h
  obtain ⟨rfl, rfl⟩ := clean_pure.mp h
  obtain rfl := hbehind.resolve_left (by simp [endsWithReturn])
  rw [hs.symbols]
  apply quiet_nil.lifetimes.mono
  rintro offset alive here ⟨declared, stmt, g, hsite, -⟩
  cases hsite

/-- The statements behind a declaration have its variable alive; those behind a return are never
reached. -/
theorem bodyLives_cons {first : Stmt} {rest : List Stmt} (ihfirst : StmtLives ctx first)
    (ihrest : BodyLives ctx rest) (hfirst : first.Proper) : BodyLives ctx (first :: rest) := by
  intro outer inner s code s' h hs behind hbehind
  unfold stmts at h
  obtain ⟨front, s₁, hfront, h⟩ := h.bind_inv (attentive_stmt ctx first)
  obtain ⟨more, s₂, hmore, h⟩ := h.bind_inv (attentive_stmts ctx rest)
  obtain ⟨rfl, rfl⟩ := clean_pure.mp h
  obtain ⟨inner₁, hemits⟩ := stmt_clean ctx first hfirst hfront hs
  have hs₁ := hemits.inside
  have hsites (offset : Nat) (alive : Set Id) (here : Code) :
      scopePlaces ctx (.all (first :: rest) s) offset alive here →
      either (scopePlaces ctx (.one first s))
        (movedBy (Instr.sizeAll front) (scopePlaces ctx (.all rest s₁))) offset alive here := by
    rintro ⟨declared, stmt, g, hsite, rfl⟩
    cases hsite with
    | head hsite => exact .inl ⟨declared, stmt, g, hsite, rfl⟩
    | tail hfront' hsite =>
        obtain ⟨rfl, rfl⟩ := hfront.unique hfront'
        exact .inr ⟨_, rfl, _, stmt, g, hsite, rfl⟩
  cases rest with
  | nil =>
      -- the last statement decides what is alive behind the body
      unfold stmts at hmore
      obtain ⟨rfl, rfl⟩ := clean_pure.mp hmore
      have hlives := ihfirst hfront hs behind hbehind
      apply (hlives.append quiet_nil.lifetimes).mono
      intro offset alive here hplace
      rcases hsites _ _ _ hplace with hplace | ⟨_, -, _, _, _, hsite, -⟩
      · exact .inl hplace
      · cases hsite
  | cons second rest =>
      have hends : endsWithReturn (first :: second :: rest) = endsWithReturn (second :: rest) := by
        simp [endsWithReturn]
      rw [hends] at hbehind
      have hlives := ihfirst hfront hs _ (.inr rfl)
      rw [hs₁.symbols] at hlives
      exact (hlives.append (ihrest hmore hs₁ behind hbehind)).mono
        hsites

theorem chainLives_none : ChainLives ctx .none := by
  intro outer inner atLast atBodies atTests s₁ s₂ s₃ last chain others hlast hothers hchain hsLast
    hsBodies hsTests
  unfold elseCode at hlast
  unfold branches at hothers
  obtain ⟨rfl, -⟩ := clean_pure.mp hlast
  obtain ⟨rfl, -⟩ := clean_pure.mp hothers
  obtain ⟨rfl, -⟩ := clean_pure.mp hchain
  apply quiet_nil.lifetimes.mono
  rintro offset alive here ⟨declared, stmt, g, hsite, -⟩
  cases hsite

/-- The last branch is a block. -/
theorem chainLives_otherwise {name : Text} {t : Token} {body : List Stmt}
    (ihbody : BodyLives ctx body) (hbody : Stmt.AllProper body) :
    ChainLives ctx (.otherwise name t body) := by
  intro outer inner atLast atBodies atTests s₁ s₂ s₃ last chain others hlast hothers hchain hsLast
    hsBodies hsTests
  unfold elseCode at hlast
  unfold branches at hothers
  obtain ⟨rfl, -⟩ := clean_pure.mp hothers
  obtain ⟨rfl, -⟩ := clean_pure.mp hchain
  apply (inBlock_lives ihbody hbody hlast hsLast).mono
  rintro offset alive here ⟨declared, stmt, g, hsite, rfl⟩
  cases hsite with
  | otherwise hsite => exact ⟨declared, stmt, g, hsite, rfl⟩

end

mutual

/-- By recursion over the statement, one lemma for each constructor; the block structure is in
`inBlock_lives` alone. -/
theorem stmt_lives (ctx : FunctionContext) : (stmt : Stmt) → stmt.Proper → StmtLives ctx stmt
  | .declare _, h => declare_lives h
  | .expr _ _ _ _, h => exprStmt_lives h
  | .ifElse name t condition body rest, h => by
      obtain ⟨hcondition, hbody, hrest⟩ : condition.Proper ∧ Stmt.AllProper body ∧ rest.Proper := by
        simpa only [Stmt.Proper] using h
      exact ifElse_lives (stmts_lives ctx body hbody) (chain_lives ctx rest hrest) hcondition hbody
        hrest
  | .loop name t kind condition? step? start body, h => by
      obtain ⟨-, -, -, hbody⟩ : (∀ e, condition? = some e → e.Proper)
          ∧ (∀ e, step? = some e → e.Proper) ∧ start.Proper ∧ Stmt.AllProper body := by
        simpa only [Stmt.Proper] using h
      exact loop_lives (stmts_lives ctx body hbody) h

theorem stmts_lives (ctx : FunctionContext) :
    (body : List Stmt) → Stmt.AllProper body → BodyLives ctx body
  | [], _ => bodyLives_nil
  | first :: rest, h => by
      obtain ⟨hfirst, hrest⟩ : first.Proper ∧ Stmt.AllProper rest := by
        simpa only [Stmt.AllProper] using h
      exact bodyLives_cons (stmt_lives ctx first hfirst) (stmts_lives ctx rest hrest) hfirst

theorem chain_lives (ctx : FunctionContext) :
    (rest : Alternatives) → rest.Proper → ChainLives ctx rest
  | .none, _ => chainLives_none
  | .otherwise name t body, h => by
      have hbody : Stmt.AllProper body := by simpa only [Alternatives.Proper] using h
      exact chainLives_otherwise (stmts_lives ctx body hbody) hbody
  | .elseIf name t condition body rest, h => by
      obtain ⟨hcondition, hbody, hrest⟩ : condition.Proper ∧ Stmt.AllProper body ∧ rest.Proper := by
        simpa only [Alternatives.Proper] using h
      exact elseIf_lives (stmts_lives ctx body hbody) (chain_lives ctx rest hrest) hcondition hbody
        hrest

end

/-! ## The names of a scope -/

/-- The generator compiles a piece inside of blocks with these variables. -/
def Compiling.Inside (ctx : FunctionContext) (outer inner : List Symbol) : Compiling → Prop
  | .one stmt s => stmt.Proper ∧ Gen.Inside ctx outer inner s
  | .all body s => Stmt.AllProper body ∧ Gen.Inside ctx outer inner s
  | .block body s => Stmt.AllProper body ∧ Gen.Inside ctx outer inner s
  | .chain rest _ atLast atBodies atTests =>
    rest.Proper ∧ Gen.Inside ctx outer inner atLast ∧ Gen.Inside ctx outer inner atBodies
      ∧ Gen.Inside ctx outer inner atTests

/-- A scope holds what the piece found, and behind it what the blocks around the statement have
declared since. -/
theorem Site.namesOf_scope {ctx : FunctionContext} {piece : Compiling} {offset : Nat}
    {declared : List Text} {stmt : Stmt} {g : GenState} {code : Code}
    (h : Site ctx piece offset declared stmt g code) : ∀ {outer inner : List Symbol},
    piece.Inside ctx outer inner →
    namesOf g.scope.symbols = namesOf (outer ++ inner) ++ declared := by
  -- the induction is on the way to the statement: each step changes the scope as the generator does
  -- on the way
  induction h with
  | here _ =>
      rintro outer inner ⟨-, hs⟩
      rw [hs.symbols, List.append_nil]
  | head _ ih =>
      rintro outer inner ⟨hproper, hs⟩
      rw [Stmt.AllProper] at hproper
      exact ih ⟨hproper.1, hs⟩
  | @tail first rest s s₁ front offset declared stmt g code hfront _ ih =>
      rintro outer inner ⟨hproper, hs⟩
      rw [Stmt.AllProper] at hproper
      obtain ⟨inner₁, hemits⟩ := stmt_clean ctx first hproper.1 hfront hs
      have hadded : namesOf inner₁ = namesOf inner ++ first.added := namesOf_stmtCode hemits.final
      have hscope := ih ⟨hproper.2, hemits.inside⟩
      simpa [namesOf, hadded] using hscope
  | block _ ih =>
      rintro outer inner ⟨hproper, hs⟩
      simpa using ih ⟨hproper, hs.enter⟩
  | @ifElse name t condition body rest s last s₁ others s₂ offset declared stmt g code hlast hothers _
      ih =>
      rintro outer inner ⟨hproper, hs⟩
      have hrest : rest.Proper := by
        rw [Stmt.Proper] at hproper
        exact hproper.2.2
      have hchain : (Alternatives.elseIf name t condition body rest).Proper := by
        simpa only [Stmt.Proper, Alternatives.Proper] using hproper
      have hs₁ := hs.steady (elseCode_clean ctx rest hrest hlast hs).1
      have hs₂ := hs₁.steady (branches_clean ctx _ hchain hothers hs₁).1
      exact ih ⟨hchain, hs, hs₁, hs₂⟩
  | @loop name t kind condition? step? start body s started s₁ offset declared stmt g code hstarted _
      ih =>
      rintro outer inner ⟨hproper, hs⟩
      rw [Stmt.Proper] at hproper
      obtain ⟨-, -, hstart, hbody⟩ := hproper
      have hemits := startCode_clean hstarted hstart hs.enter
      have hadded : namesOf started.1.toList = start.added := by
        simpa [StmtPiece.added] using namesOf_stmtCode hemits.final
      have hscope := ih ⟨hbody, hemits.inside⟩
      simpa [namesOf, hadded] using hscope
  | otherwise _ ih =>
      rintro outer inner ⟨hproper, hs, -, -⟩
      rw [Alternatives.Proper] at hproper
      exact ih ⟨hproper, hs⟩
  | branch _ _ _ _ _ ih =>
      rintro outer inner ⟨hproper, -, hs, -⟩
      rw [Alternatives.Proper] at hproper
      exact ih ⟨hproper.2.1, hs⟩
  | @behind name t condition body rest last atLast atBodies atTests inside s₁ others s₂ tail s₃ test s₄
      offset declared stmt g code hinside _ _ _ _ ih =>
      rintro outer inner ⟨hproper, hsLast, hsBodies, hsTests⟩
      rw [Alternatives.Proper] at hproper
      obtain ⟨-, hbody, hrest⟩ := hproper
      have hs₁ := hsBodies.steady (inBlock_clean hinside hsBodies (stmts_clean ctx body hbody)).1
      exact ih ⟨hrest, hsLast, hs₁, hsTests⟩

/-! ## Functions -/

/-- A statement in the body of a function, which is compiled from a state: the parameters are
declared first, and the code that takes them stands in front. -/
inductive FunctionSite (f : FuncDecl) (body : List Stmt) (s : GenState) :
    (offset : Nat) → (declared : List Text) → Stmt → (g : GenState) → Code → Prop
  | body {params s₁ offset declared stmt g code} :
    Clean (declareParams f.params) { s with scope := ⟨f.name, [], []⟩ } params s₁ →
    Site ⟨f.name, f.returnType⟩ (.all body s₁) offset declared stmt g code →
    FunctionSite f body s (Instr.sizeAll (prologue params) + offset)
      (f.params.map (·.name) ++ declared) stmt g code

/-- Taking the arguments makes the variables of the parameters. -/
theorem survivors_prologue (params : List Symbol) : survivors (prologue params) ∅ = idSet params := by
  have htaken (taken : List Symbol) (alive : Set Id) :
      survivors (taken.flatMap fun p =>
        [.allocate (storageSize p.type none) p.type p.id, .withWord .popVar p.id]) alive
        = {id | id ∈ alive ∨ id ∈ ids taken} := by
    induction taken generalizing alive with
    | nil =>
        ext id
        simp [survivors]
    | cons p taken ih =>
        rw [List.flatMap_cons, survivors_append, ih]
        ext id
        show id ∈ insert p.id alive ∨ id ∈ ids taken ↔ id ∈ alive ∨ id ∈ ids (p :: taken)
        rw [Set.mem_insert_iff, ids, ids, List.map_cons, List.mem_cons, or_comm (a := id = p.id),
          or_assoc]
  ext id
  rw [prologue, htaken, Set.mem_ofPred_eq, mem_idSet, ids, List.map_reverse, List.mem_reverse]
  simp

/-- Taking the parameters jumps nowhere. -/
theorem plain_prologue (params : List Symbol) : ∀ i ∈ prologue params, i.op.isJump = false := by
  intro i hi
  obtain ⟨p, -, hi⟩ := List.mem_flatMap.mp hi
  simp only [List.mem_cons, List.not_mem_nil, or_false] at hi
  rcases hi with rfl | rfl <;> rfl

section

variable {f : FuncDecl} {body : List Stmt} {s s' : GenState} {code : Code}

/-- A function starts without variables, and the code of its statements stands where the variables of
their scopes are alive. -/
theorem functionCode_lives (h : Clean (functionCode f body) s code s') (hproper : f.Proper)
    (hbody : f.body? = some body) (hs : GlobalsNamed s) :
    ∃ behind, Lifetimes ∅ behind (fun offset alive here => ∃ declared stmt g,
      FunctionSite f body s offset declared stmt g here ∧ alive = idSet g.scope.symbols) code := by
  unfold functionCode at h
  simp only [clean_modify_bind] at h
  obtain ⟨params, s₁, hparams, h⟩ := h.bind_inv (attentive_declareParams f.params)
  obtain ⟨inside, s₂, hinside, h⟩ := h.bind_inv (attentive_stmts _ body)
  have hstart : Inside ⟨f.name, f.returnType⟩ [] [] { s with scope := ⟨f.name, [], []⟩ } :=
    ⟨⟨.nil, by simp, hs⟩, rfl, rfl, rfl⟩
  obtain ⟨-, -, hs₁⟩ := declareParams_clean f.params hproper.params hparams hstart
  -- the prologue makes the variables of the parameters, and there is no place in it
  have hprologue : Lifetimes ∅ (idSet params) nowhere (prologue params) :=
    lifetimes_of_plain (plain_prologue params) (survivors_prologue params)
  -- the statements stand behind the prologue
  have hsites (offset : Nat) (alive : Set Id) (here : Code)
      (hplace : ∃ declared stmt g, FunctionSite f body s offset declared stmt g here
        ∧ alive = idSet g.scope.symbols) :
      movedBy (Instr.sizeAll (prologue params))
        (scopePlaces ⟨f.name, f.returnType⟩ (.all body s₁)) offset alive here := by
    obtain ⟨declared, stmt, g, hsite, rfl⟩ := hplace
    obtain ⟨hparams', hsite⟩ := hsite
    obtain ⟨rfl, rfl⟩ := hparams.unique hparams'
    exact ⟨_, rfl, _, stmt, g, hsite, rfl⟩
  have hlives := stmts_lives _ body (hproper.body body hbody) hinside hs₁
  simp only [List.nil_append] at hlives
  -- a body that ends in a return has its own end; any other one is followed by a return
  split at h
  · next hends =>
      simp only [pure_bind] at h
      obtain ⟨rfl, -⟩ := clean_pure.mp h
      refine ⟨∅, ?_⟩
      rw [List.append_nil]
      apply (hprologue.append (hlives ∅ (.inl hends))).mono
      intro offset alive here hplace
      exact .inr (hsites _ _ _ hplace)
  · obtain ⟨exit, s₃, hexit, h⟩ := h.bind_inv (attentive_returnCode _ _ _)
    obtain ⟨rfl, -⟩ := clean_pure.mp h
    obtain ⟨inner, hemits⟩ := stmts_clean _ body (hproper.body body hbody) hinside hs₁
    have hreturn := (returnCode_clean hexit (by simp) hemits.inside.toScoped).2
      ⟨s₃.names, s₃.globals, s₃.functions, []⟩ ⟨fun _ _ h => h, rfl, rfl⟩
      (by simp [Expr.optionalCallSites])
    refine ⟨∅, ?_⟩
    apply ((hprologue.append (hlives _ (.inr rfl))).append (lifetimes_returnCode hreturn)).mono
    intro offset alive here hplace
    exact .inl (.inr (hsites _ _ _ hplace))

/-- The scope of a statement holds the parameters, and behind them what the blocks around the
statement have declared before it. -/
theorem FunctionSite.namesOf_scope {offset : Nat} {declared : List Text} {stmt : Stmt} {g : GenState}
    {here : Code} (h : FunctionSite f body s offset declared stmt g here) (hproper : f.Proper)
    (hbody : f.body? = some body) (hs : GlobalsNamed s) : namesOf g.scope.symbols = declared := by
  obtain ⟨hparams, hsite⟩ := h
  have hstart : Inside ⟨f.name, f.returnType⟩ [] [] { s with scope := ⟨f.name, [], []⟩ } :=
    ⟨⟨.nil, by simp, hs⟩, rfl, rfl, rfl⟩
  obtain ⟨hsymbols, -, hs₁⟩ := declareParams_clean f.params hproper.params hparams hstart
  have hscope := hsite.namesOf_scope ⟨hproper.body body hbody, hs₁⟩
  rw [List.nil_append, List.nil_append, namesOf_paramSymbols hsymbols] at hscope
  exact hscope

end

/-! ## Units -/

/-- A statement in the body of a function of a unit. All names are declared first, then the sections
are generated one after the other. -/
inductive UnitSite (program : List Decl) (f : FuncDecl) :
    (offset : Nat) → (declared : List Text) → Stmt → (g : GenState) → Code → Prop
  | function {before after body found s₁ s₂ offset declared stmt g code} :
    program = before ++ .function f :: after → f.body? = some body →
    Clean (declareAll program) {} () s₁ → Clean (sections before) s₁ found s₂ →
    FunctionSite f body s₂ offset declared stmt g code →
    UnitSite program f offset declared stmt g code

/-- The run that generates the section of a function. -/
theorem sections_split {before after : List Decl} {d : Decl} {s s' : GenState} {found : List Section}
    (h : Clean (sections (before ++ d :: after)) s found s') : ∃ first s₁ section? s₂ more,
    Clean (sections before) s first s₁ ∧ Clean (declSection d) s₁ section? s₂
      ∧ Clean (sections after) s₂ more s' ∧ found = first ++ (section?.toList ++ more) := by
  induction before generalizing s found with
  | nil =>
      rw [List.nil_append] at h
      unfold sections at h
      obtain ⟨section?, s₂, hsection, h⟩ := h.bind_inv (attentive_declSection d)
      obtain ⟨more, s₃, hmore, h⟩ := h.bind_inv (attentive_sections after)
      obtain ⟨rfl, rfl⟩ := clean_pure.mp h
      exact ⟨[], s, section?, s₂, more, clean_pure.mpr ⟨rfl, rfl⟩, hsection, hmore, rfl⟩
  | cons e before ih =>
      rw [List.cons_append] at h
      unfold sections at h
      obtain ⟨first, s₁, hfirst, h⟩ := h.bind_inv (attentive_declSection e)
      obtain ⟨rest, s₂, hrest, h⟩ := h.bind_inv (attentive_sections _)
      obtain ⟨rfl, rfl⟩ := clean_pure.mp h
      obtain ⟨others, s₃, section?, s₄, more, hothers, hsection, hmore, rfl⟩ := ih hrest
      refine ⟨first.toList ++ others, s₃, section?, s₄, more, ?_, hsection, hmore, by simp⟩
      unfold sections
      exact hfirst.bind (hothers.bind (clean_pure.mpr ⟨rfl, rfl⟩))

/-- The section of a function whose body has a statement holds code in which the variables of the
statement's scope are alive where its code stands. -/
theorem UnitSite.lives {program : List Decl} {f : FuncDecl} {found : List Section} {final : GenState}
    {offset : Nat} {declared : List Text} {stmt : Stmt} {g : GenState} {here : Code}
    (h : UnitSite program f offset declared stmt g here)
    (hrun : Clean (generate program) {} found final) (hproper : ∀ d ∈ program, d.Proper) :
    namesOf g.scope.symbols = declared ∧ ∃ code behind, Returns code
      ∧ ⟨.function, f.id, (storedFunction f code).toPayload⟩ ∈ found
      ∧ Lifetimes ∅ behind (fun at_ alive front =>
        at_ = offset ∧ alive = idSet g.scope.symbols ∧ front = here) code := by
  obtain ⟨rfl, hbody, hdeclare, hbefore, hsite⟩ := h
  rename_i before after body earlier s₁ s₂
  unfold generate at hrun
  obtain ⟨_, s₁', hdeclare', hrun⟩ := hrun.bind_inv (attentive_declareAll _)
  -- the run of the whole unit is the one in which the statement was found
  obtain ⟨-, rfl⟩ := hdeclare.unique hdeclare'
  -- it is cut at the section of the function
  obtain ⟨first, s₂', section?, s₃, more, hbefore', hsection, hafter, rfl⟩ := sections_split hrun
  obtain ⟨rfl, rfl⟩ := hbefore.unique hbefore'
  have hdeclared : Declared (before ++ .function f :: after) s₁ := by
    simpa using declareAll_clean _ hdeclare declared_nil
  obtain ⟨hgrows₂, -⟩ := sections_clean before (fun d hd => hproper d (by simp [hd])) hbefore
    (hdeclared.globalsNamed hproper)
  have hs₂ := (hdeclared.globalsNamed hproper).mono hgrows₂
  -- what is known of the state in front of the function and of the function itself
  have hf : f.Proper := hproper (.function f) (by simp)
  simp only [declSection, hbody] at hsection
  obtain ⟨code, s₄, hcode, hsection⟩ := hsection.bind_inv (attentive_functionCode f body)
  obtain ⟨rfl, rfl⟩ := clean_pure.mp hsection
  obtain ⟨hgrows, hfunction⟩ := functionCode_clean hcode hf hbody hs₂
  have hreturns := returns_functionCode
    (hfunction ⟨s₄.names, s₄.globals, s₄.functions, Stmt.allCallSites body⟩
      ⟨fun _ _ h => h, rfl, rfl⟩ fun _ h => h)
    (hdeclared.nonnegative hproper (hgrows.globals.trans hgrows₂.globals)) hf.returnType
  obtain ⟨behind, hlives⟩ := functionCode_lives hcode hf hbody hs₂
  refine ⟨hsite.namesOf_scope hf hbody hs₂, code, behind, hreturns, by simp [storedFunction], hlives.mono ?_⟩
  -- the site of the statement is one of the places of the code
  rintro at_ alive front ⟨rfl, rfl, rfl⟩
  exact ⟨declared, stmt, g, hsite, rfl⟩

/-- Every statement of a function of a unit that compiles is compiled in it. -/
theorem Within.exists_unitSite {program : List Decl} {f : FuncDecl} {body : List Stmt}
    {found : List Section} {final : GenState} {stmt : Stmt} (h : Within stmt body)
    (hrun : Clean (generate program) {} found final) (hf : .function f ∈ program)
    (hbody : f.body? = some body) :
    ∃ offset declared g code, UnitSite program f offset declared stmt g code := by
  obtain ⟨before, after, rfl⟩ := List.append_of_mem hf
  unfold generate at hrun
  obtain ⟨_, s₁, hdeclare, hrun⟩ := hrun.bind_inv (attentive_declareAll _)
  obtain ⟨first, s₂, section?, s₃, more, hbefore, hsection, -⟩ := sections_split hrun
  simp only [declSection, hbody] at hsection
  obtain ⟨code, s₄, hcode, -⟩ := hsection.bind_inv (attentive_functionCode f body)
  unfold functionCode at hcode
  simp only [clean_modify_bind] at hcode
  obtain ⟨params, s₅, hparams, hcode⟩ := hcode.bind_inv (attentive_declareParams f.params)
  obtain ⟨inside, s₆, hinside, -⟩ := hcode.bind_inv (attentive_stmts _ body)
  obtain ⟨offset, declared, g, here, hsite⟩ := h.sited _ _ _ hinside
  exact ⟨_, _, _, _, .function rfl hbody hdeclare hbefore (.body hparams hsite)⟩

end Gen

end TickScript
