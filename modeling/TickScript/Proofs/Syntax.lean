import TickScript.Proofs.Token
import TickScript.Proofs.Value
import TickScript.Stmt.Parser

/-!
# What the readers guarantee

The trees that come out of the readers are narrower than their types: a binary operator relates,
connects or computes, a variable has an identifier for its name and a type other than void, a
function has at most 255 parameters. Code generation relies on all of this without looking.

Each reader is looked at in a clean run, where it answers a tree or fails to find one and then has
reported it. The readers that call each other are treated together, for some fuel at a time: with
one more unit each of them is proper by a lemma of its own, and the induction only puts these
together. Names of types are a fact about tokens that comes from the scanner (`Proofs.Token`) and is
handed on through all cutting of token lists.
-/

namespace TickScript

/-- The kind of an operator between two operands other than an assignment. -/
def TokenKind.IsBinary (kind : TokenKind) : Prop :=
  (∃ relation, kind.relation? = some relation) ∨ (∃ connective, kind.connective? = some connective)
    ∨ ∃ op, kind.arithmetic? = some op

mutual

/-- Every binary operator of an expression is one. -/
def Expr.Proper : Expr → Prop
  | .unary _ operand => operand.Proper
  | .binary operator left right => operator.kind.IsBinary ∧ left.Proper ∧ right.Proper
  | .assign _ _ value => value.Proper
  | .call _ args => Expr.AllProper args
  | _ => True

/-- All of some expressions are proper. -/
def Expr.AllProper : List Expr → Prop
  | [] => True
  | e :: rest => e.Proper ∧ Expr.AllProper rest

end

/-- The declaration of a variable as the readers make it. -/
structure VarDecl.Proper (d : VarDecl) : Prop where
  name : isIdentifier d.name = true
  type : d.type.Storable
  initial : ∀ e, d.initial? = some e → e.Proper

/-- What a loop starts with, as the readers make it. -/
def LoopStart.Proper : LoopStart → Prop
  | .nothing => True
  | .declare d => d.Proper
  | .evaluate e => e.Proper

mutual

/-- A statement as the readers make it. -/
def Stmt.Proper : Stmt → Prop
  | .declare d => d.Proper
  | .expr _ _ _ value? => ∀ e, value? = some e → e.Proper
  | .ifElse _ _ condition body rest =>
    condition.Proper ∧ Stmt.AllProper body ∧ rest.Proper
  | .loop _ _ _ condition? step? start body =>
    (∀ e, condition? = some e → e.Proper) ∧ (∀ e, step? = some e → e.Proper) ∧ start.Proper
      ∧ Stmt.AllProper body

/-- Statements as the readers make them. -/
def Stmt.AllProper : List Stmt → Prop
  | [] => True
  | s :: rest => s.Proper ∧ Stmt.AllProper rest

/-- The branches behind the first one as the readers make them. -/
def Alternatives.Proper : Alternatives → Prop
  | .none => True
  | .otherwise _ _ body => Stmt.AllProper body
  | .elseIf _ _ condition body rest => condition.Proper ∧ Stmt.AllProper body ∧ rest.Proper

end

theorem Stmt.allProper_append {a b : List Stmt} (ha : AllProper a) (hb : AllProper b) :
    AllProper (a ++ b) := by
  induction a with
  | nil => exact hb
  | cons s rest ih =>
      simp only [List.cons_append, AllProper] at ha ⊢
      exact ⟨ha.1, ih ha.2⟩

/-- A parameter as the readers make it. -/
structure Param.Proper (p : Param) : Prop where
  name : isIdentifier p.name = true
  type : p.type.Storable

/-- The declaration of a function as the readers make it. -/
structure FuncDecl.Proper (f : FuncDecl) : Prop where
  /-- The name is an identifier. -/
  name : isIdentifier f.name = true
  /-- Every parameter can be stored. -/
  params : ∀ p ∈ f.params, p.Proper
  /-- A byte holds the number of parameters. -/
  count : f.params.length ≤ 255
  /-- The result type is known. -/
  returnType : f.returnType.isKnown = true
  /-- The body is proper. -/
  body : ∀ stmts, f.body? = some stmts → Stmt.AllProper stmts

/-- A declaration of a unit as the readers make it. -/
def Decl.Proper : Decl → Prop
  | .field d => d.Proper ∧ d.id = Name.id d.name
  | .var d => d.Proper ∧ d.id = Name.id d.name
  | .function f => f.Proper

/-! ## Expressions -/

namespace Expr

/-- A reading gives a proper expression. -/
def ReadsProper (r : Reading) : Prop := ∀ e rest, r = .ok (e, rest) → e.Proper

theorem readsProper_failAt {t : Token} {cause : Cause} : ReadsProper (failAt t cause) := by
  intro e rest h
  cases h

theorem readsProper_ok {e : Expr} {rest : List Token} (h : e.Proper) :
    ReadsProper (.ok (e, rest)) := by
  intro e' rest' heq
  cases heq
  exact h

theorem readsProper_bind {α : Type} {x : Except Diagnostic α} {f : α → Reading}
    (h : ∀ a, x = .ok a → ReadsProper (f a)) : ReadsProper (x >>= f) := by
  intro e rest heq
  cases hx : x with
  | error d => simp [hx, bind, Except.bind] at heq
  | ok a =>
      rw [hx] at heq
      exact h a hx e rest heq

theorem readsProper_string (opening : Token) (tokens : List Token) :
    ReadsProper (readString opening tokens) := by
  unfold readString
  split
  · exact readsProper_failAt
  · split
    · exact readsProper_ok trivial
    · split
      · split
        · exact readsProper_ok trivial
        · exact readsProper_failAt
      · exact readsProper_failAt

/-- A step of what has been read, or the refusal of anything but a variable. -/
theorem readsProper_step (t : Token) (e : Expr) (after : Bool) (rest : List Token) :
    ReadsProper (match variableToken? e with
      | some target => .ok (.step t target after, rest)
      | none => failAt t (.operandNotVariable t.text)) := by
  split
  · exact readsProper_ok trivial
  · exact readsProper_failAt

/-- The readers of expressions with some fuel give proper expressions. -/
structure ProperReaders (fuel : Nat) : Prop where
  from_ : ∀ final least tokens, ReadsProper (readFrom final fuel least tokens)
  operand : ∀ final t rest, ReadsProper (readOperand final fuel t rest)
  operators : ∀ final least left rest, left.Proper →
    ReadsProper (readOperators final fuel least left rest)
  operator : ∀ final left t rest, left.Proper → 0 < t.kind.infixPower →
    ReadsProper (readOperator final fuel left t rest)
  arguments : ∀ final opening tokens args rest,
    readArguments final fuel opening tokens = .ok (args, rest) → AllProper args

/-- An operator that binds and is no assignment, step, index or call stands between operands. -/
theorem isBinary_of_infixPower {kind : TokenKind} (hpos : 0 < kind.infixPower)
    (hassign : ¬ kind.infixPower = 1) (hparen : kind ≠ .leftParen) (hbracket : kind ≠ .leftBracket)
    (hinc : kind ≠ .increment) (hdec : kind ≠ .decrement) : kind.IsBinary := by
  cases kind <;> simp_all [TokenKind.infixPower, TokenKind.IsBinary, TokenKind.relation?,
    TokenKind.connective?, TokenKind.arithmetic?]

/-- Without fuel nothing is read, or what was read before. -/
theorem properReaders_zero : ProperReaders 0 := by
  constructor
  · intro final least tokens
    unfold readFrom
    exact readsProper_failAt
  · intro final t rest
    unfold readOperand
    exact readsProper_failAt
  · intro final least left rest h
    unfold readOperators
    exact readsProper_ok h
  · intro final left t rest h _
    unfold readOperator
    exact readsProper_ok h
  · intro final opening tokens args rest h
    simp [readArguments, failAt] at h

section

variable {fuel : Nat} (ih : ProperReaders fuel)

include ih

theorem proper_readFrom (final : Token) (least : Nat) (tokens : List Token) :
    ReadsProper (readFrom final (fuel + 1) least tokens) := by
  cases tokens with
  | nil =>
      unfold readFrom
      exact readsProper_failAt
  | cons t rest =>
      unfold readFrom
      refine readsProper_bind fun r hr => ?_
      exact ih.operators _ _ _ _ (ih.operand _ _ _ r.1 r.2 hr)

theorem proper_readOperand (final t : Token) (rest : List Token) :
    ReadsProper (readOperand final (fuel + 1) t rest) := by
  have hunary : ReadsProper (readFrom final fuel TokenKind.operandPower rest >>= fun r =>
      .ok (.unary t r.1, r.2)) :=
    readsProper_bind fun r hr => readsProper_ok (ih.from_ _ _ _ r.1 r.2 hr)
  have hstep := readsProper_bind (x := readFrom final fuel TokenKind.operandPower rest)
    fun r _ => readsProper_step t r.1 false r.2
  have hparen : ReadsProper (readFrom final fuel 0 rest >>= fun r => do
      let rest ← expect final .rightParen r.2
      .ok (r.1, rest)) :=
    readsProper_bind fun r hr => readsProper_bind fun _ _ =>
      readsProper_ok (ih.from_ _ _ _ r.1 r.2 hr)
  unfold readOperand
  split
  case h_2 =>
    split
    · exact readsProper_ok trivial
    · exact readsProper_failAt
  all_goals first
    | exact readsProper_ok trivial
    | exact readsProper_failAt
    | exact readsProper_string t rest
    | exact hunary
    | exact hstep
    | exact hparen

theorem proper_readOperators (final : Token) (least : Nat) (left : Expr) (rest : List Token)
    (h : left.Proper) : ReadsProper (readOperators final (fuel + 1) least left rest) := by
  cases rest with
  | nil =>
      unfold readOperators
      exact readsProper_ok h
  | cons t rest =>
      unfold readOperators
      dsimp only
      split
      · exact readsProper_ok h
      · next hpower =>
          refine readsProper_bind fun r hr => ?_
          exact ih.operators _ _ _ _ (ih.operator _ _ _ _ h (by omega) r.1 r.2 hr)

theorem proper_readOperator (final : Token) (left : Expr) (t : Token) (rest : List Token)
    (h : left.Proper) (hpower : 0 < t.kind.infixPower) :
    ReadsProper (readOperator final (fuel + 1) left t rest) := by
  have hcall (callee : Token) (tokens : List Token) :
      ReadsProper (readArguments final fuel t tokens >>= fun r => .ok (.call callee r.1, r.2)) :=
    readsProper_bind fun r hr => readsProper_ok (ih.arguments _ _ _ r.1 r.2 hr)
  have hstep := readsProper_step t left true rest
  unfold readOperator
  split
  · -- behind a name an opening parenthesis starts a call
    refine readsProper_bind fun callee _ => ?_
    split
    · split
      · exact readsProper_ok trivial
      · exact hcall callee _
    · exact hcall callee _
  · exact readsProper_bind fun r _ => readsProper_bind fun _ _ => readsProper_ok trivial
  · exact hstep
  · exact hstep
  · next hparen hbracket hinc hdec =>
      -- what is left is an assignment or an operator between two operands
      split
      · split
        · exact readsProper_bind fun r hr => readsProper_ok (ih.from_ _ _ _ r.1 r.2 hr)
        · exact readsProper_failAt
      · next hassign =>
          refine readsProper_bind fun r hr => readsProper_ok ⟨?_, h, ih.from_ _ _ _ r.1 r.2 hr⟩
          exact isBinary_of_infixPower hpower (by simpa using hassign) hparen hbracket hinc hdec

theorem proper_readArguments (final opening : Token) (tokens : List Token) (args : List Expr)
    (rest : List Token) (h : readArguments final (fuel + 1) opening tokens = .ok (args, rest)) :
    AllProper args := by
  simp only [readArguments, bind, Except.bind] at h
  cases hfirst : readFrom final fuel 0 tokens with
  | error d => simp [hfirst] at h
  | ok r =>
      have hr := ih.from_ final 0 tokens r.1 r.2 hfirst
      simp only [hfirst] at h
      split at h
      · cases h
      · split at h
        · obtain ⟨rfl, -⟩ := Prod.mk.inj (Except.ok.inj h)
          exact ⟨hr, trivial⟩
        · split at h
          · split at h
            · cases h
            · next more hmore =>
                obtain ⟨rfl, -⟩ := Prod.mk.inj (Except.ok.inj h)
                exact ⟨hr, ih.arguments _ _ _ more.1 more.2 hmore⟩
          · cases h

end

theorem properReaders (fuel : Nat) : ProperReaders fuel := by
  induction fuel with
  | zero => exact properReaders_zero
  | succ fuel ih =>
      exact ⟨proper_readFrom ih, proper_readOperand ih, proper_readOperators ih, proper_readOperator ih,
        proper_readArguments ih⟩

theorem proper_of_parse {tokens : List Token} {e : Expr} (h : parse tokens = .ok e) : e.Proper := by
  unfold parse at h
  split at h
  · cases h
  · split at h
    · cases h
    · next e' hread =>
        obtain rfl := Except.ok.inj h
        exact (properReaders _).from_ _ _ _ e' [] hread
    · cases h

end Expr

/-! ## Cutting token lists -/

namespace Parsing

open Stage

theorem namesTypes_segment {opening? : Option TokenKind} {closing : TokenKind} {depth : Nat}
    {tokens : List Token} (h : NamesTypes tokens) :
    NamesTypes (segment opening? closing depth tokens).1
      ∧ NamesTypes (segment opening? closing depth tokens).2.1 := by
  induction tokens generalizing depth with
  | nil => exact ⟨.nil, .nil⟩
  | cons t rest ih =>
      have ht : t.NamesType := h t (by simp)
      have hrest : NamesTypes rest := h.subset fun r hr => List.mem_cons_of_mem t hr
      unfold segment
      split
      · exact ⟨.nil, hrest⟩
      · exact ⟨.cons ht (ih hrest).1, (ih hrest).2⟩

theorem namesTypes_recover {tokens : List Token} (h : NamesTypes tokens) :
    NamesTypes (recover tokens) := by
  induction tokens with
  | nil => exact .nil
  | cons t rest ih =>
      have hrest : NamesTypes rest := h.subset fun r hr => List.mem_cons_of_mem t hr
      unfold recover
      split
      · exact hrest
      · split
        · exact (namesTypes_segment hrest).2
        · exact ih hrest

theorem namesTypes_onto {t : Token} {parts : List (List Token)} (ht : t.NamesType)
    (hparts : ∀ part ∈ parts, NamesTypes part) :
    ∀ part ∈ (match parts with
      | [] => [[t]]
      | part :: parts => (t :: part) :: parts), NamesTypes part := by
  cases parts with
  | nil => simpa using NamesTypes.cons ht .nil
  | cons part parts =>
      simp only [List.mem_cons] at hparts ⊢
      rintro p (rfl | hp)
      · exact .cons ht (hparts part (.inl rfl))
      · exact hparts p (.inr hp)

theorem namesTypes_splitTop {separator : TokenKind} {depth : Int} {tokens : List Token}
    (h : NamesTypes tokens) : ∀ part ∈ splitTop separator depth tokens, NamesTypes part := by
  induction tokens generalizing depth with
  | nil => simp [splitTop, NamesTypes.nil]
  | cons t rest ih =>
      have ht : t.NamesType := h t (by simp)
      have hrest : NamesTypes rest := h.subset fun r hr => List.mem_cons_of_mem t hr
      have honto (parts : List (List Token)) := @namesTypes_onto t parts ht
      unfold splitTop
      split
      all_goals first
        | exact honto _ (ih hrest)
        | skip
      split
      · simp only [List.mem_cons]
        rintro p (rfl | hp)
        · exact .nil
        · exact ih hrest p hp
      · exact honto _ (ih hrest)

theorem accept_eq_some {kind : TokenKind} {tokens rest : List Token} {t : Token}
    (h : accept kind tokens = some (t, rest)) : t.kind = kind ∧ tokens = t :: rest := by
  cases tokens with
  | nil => cases h
  | cons t' rest' =>
      simp only [accept] at h
      split at h
      · obtain ⟨rfl, rfl⟩ := Prod.mk.inj (Option.some.inj h)
        exact ⟨‹_›, rfl⟩
      · cases h

theorem namesTypes_accept {kind : TokenKind} {tokens rest : List Token} {t : Token}
    (h : NamesTypes tokens) (haccept : accept kind tokens = some (t, rest)) :
    t.NamesType ∧ NamesTypes rest := by
  obtain ⟨-, rfl⟩ := accept_eq_some haccept
  exact ⟨h t (by simp), h.subset fun r hr => List.mem_cons_of_mem t hr⟩

/-! ## Declarations -/

/-- What clean runs of a reader answer. -/
abbrev Gives {α : Type} (x : Parsing α) (Q : α → Prop) : Prop := Ensures (fun _ => True) x Q

theorem gives_unterminated (content : List Token) (t : Token) (cause : Cause) :
    Gives (unterminated content t cause) fun _ => True := by
  unfold unterminated
  split
  · refine ensures_bind ensures_get fun s _ => ?_
    split
    · exact ensures_bind (ensures_modify fun _ _ => trivial) fun _ _ => ensures_report
    · exact ensures_pure trivial
  · exact ensures_report

theorem gives_expect {ctx : ParseContext} {kind : TokenKind} {tokens : List Token}
    (h : NamesTypes tokens) : Gives (expect ctx kind tokens) fun r =>
      ∀ t rest, r = some (t, rest) → t.kind = kind ∧ t.NamesType ∧ NamesTypes rest := by
  unfold expect
  split
  · next found haccept =>
      refine ensures_pure fun t rest heq => ?_
      obtain rfl := Option.some.inj heq
      exact ⟨(accept_eq_some haccept).1, namesTypes_accept h haccept⟩
  · exact ensures_report_bind

theorem gives_expression (ctx : ParseContext) (tokens : List Token) :
    Gives (expression ctx tokens) fun e? => ∀ e, e? = some e → e.Proper := by
  unfold expression
  split
  · next e hparse =>
      refine ensures_pure fun e' heq => ?_
      obtain rfl := Option.some.inj heq
      exact Expr.proper_of_parse hparse
  · exact ensures_report_bind
  · exact ensures_report_bind

theorem gives_freshName (ctx : ParseContext) (kind : String) :
    Gives (freshName ctx kind) fun _ => True :=
  ensures_bind (ensures_modify fun _ _ => trivial) fun _ _ =>
    ensures_bind ensures_get fun _ _ => ensures_pure trivial

theorem gives_statementTokens {start : Token} {tokens : List Token} (h : NamesTypes tokens) :
    Gives (statementTokens start tokens) fun r =>
      (∀ content, r.1 = some content → NamesTypes content) ∧ NamesTypes r.2 := by
  have hcut : NamesTypes (segment none .semicolon 0 tokens).1
      ∧ NamesTypes (segment none .semicolon 0 tokens).2.1 := namesTypes_segment h
  unfold statementTokens
  dsimp only
  split
  · refine ensures_pure ⟨fun content heq => ?_, hcut.2⟩
    obtain rfl := Option.some.inj heq
    exact hcut.1
  · exact ensures_bind (gives_unterminated _ _ _) fun _ _ =>
      ensures_pure ⟨by simp, hcut.2⟩

/-- The parts of a declaration behind a type. -/
structure ProperParts (type name : Token) (initial? : Option Expr) : Prop where
  nonvoid : type.text ≠ Text.ofString "void"
  name : isIdentifier name.text = true
  initial : ∀ e, initial? = some e → e.Proper

theorem gives_declParts (ctx : ParseContext) (type : Token) (content : List Token) :
    Gives (declParts ctx type content) fun r =>
      ∀ parts, r = some parts → ProperParts type parts.1 parts.2 := by
  unfold declParts
  split
  · exact ensures_report_bind
  · next hvoid =>
      split
      · exact ensures_report_bind
      · next name rest =>
          split
          · exact ensures_report_bind
          · -- a type other than void and an identifier
            next hname =>
              have hnonvoid : type.text ≠ Text.ofString "void" := by simpa using hvoid
              have hident : isIdentifier name.text = true := by
                simp only [Bool.or_eq_true, Bool.not_eq_true', not_or, Bool.not_eq_false] at hname
                exact hname.2
              split
              · refine ensures_pure fun parts heq => ?_
                obtain rfl := Option.some.inj heq
                exact ⟨hnonvoid, hident, fun _ h => by cases h⟩
              · split
                · exact ensures_report_bind
                · split
                  · exact ensures_report_bind
                  · -- with a start value, which is an expression as the reader gives it
                    refine ensures_bind (gives_expression _ _) fun e? he => ?_
                    split
                    · next e =>
                        refine ensures_pure fun parts heq => ?_
                        obtain rfl := Option.some.inj heq
                        exact ⟨hnonvoid, hident, he⟩
                    · exact ensures_pure fun _ heq => by cases heq

theorem storable_ofName {type : Token} (hkind : type.kind = .typeName) (h : type.NamesType)
    (hvoid : type.text ≠ Text.ofString "void") : (VarType.ofName type.text).Storable := by
  obtain ⟨hknown, hname⟩ := ofName_keyword _ (h hkind) hkind
  exact ⟨hknown, fun heq => hvoid (hname heq)⟩

/-- A variable that is read behind a type. -/
theorem proper_varDecl {ctx : ParseContext} {type name : Token} {initial? : Option Expr}
    (hkind : type.kind = .typeName) (h : type.NamesType) (hparts : ProperParts type name initial?) :
    (varDecl ctx type name initial?).Proper
      ∧ (ctx.function = [] → (varDecl ctx type name initial?).id = Name.id name.text) := by
  refine ⟨⟨hparts.name, storable_ofName hkind h hparts.nonvoid, hparts.initial⟩, fun hctx => ?_⟩
  simp [varDecl, hctx]

theorem gives_declTail {ctx : ParseContext} {type : Token} {tokens : List Token}
    (h : NamesTypes tokens) : Gives (declTail ctx type tokens) fun r =>
      (∀ parts, r.1 = some parts → ProperParts type parts.1 parts.2) ∧ NamesTypes r.2 := by
  refine ensures_bind (gives_statementTokens h) ?_
  rintro ⟨content?, rest⟩ ⟨-, hrest⟩
  dsimp only
  split
  · exact ensures_pure ⟨by simp, hrest⟩
  · exact ensures_bind (gives_declParts _ _ _) fun parts? hparts => ensures_pure ⟨hparts, hrest⟩

theorem gives_variable {ctx : ParseContext} {type : Token} {tokens : List Token}
    (hkind : type.kind = .typeName) (htype : type.NamesType) (h : NamesTypes tokens) :
    Gives (variable_ ctx type tokens) fun r =>
      (∀ d, r.1 = some d → d.Proper ∧ (ctx.function = [] → d.id = Name.id d.name))
        ∧ NamesTypes r.2 := by
  refine ensures_bind (gives_declTail h) fun r hr => ensures_pure ⟨fun d heq => ?_, hr.2⟩
  obtain ⟨parts, hparts, rfl⟩ := Option.map_eq_some_iff.mp heq
  exact proper_varDecl hkind htype (hr.1 parts hparts)

/-! ## Statements -/

/-- A reader that answers a proper statement, if any, and what is left. -/
abbrev GivesStmt (x : Parsing (Option Stmt × List Token)) : Prop :=
  Gives x fun r => (∀ s, r.1 = some s → s.Proper) ∧ NamesTypes r.2

/-- A reader that answers proper statements and what is left. -/
abbrev GivesStmts (x : Parsing (List Stmt × List Token)) : Prop :=
  Gives x fun r => Stmt.AllProper r.1 ∧ NamesTypes r.2

theorem gives_none {rest : List Token} (h : NamesTypes rest) :
    GivesStmt (pure (none, rest)) :=
  ensures_pure ⟨by simp, h⟩

theorem gives_some {s : Stmt} {rest : List Token} (hs : s.Proper) (h : NamesTypes rest) :
    GivesStmt (pure (some s, rest)) := by
  refine ensures_pure ⟨fun s' heq => ?_, h⟩
  obtain rfl := Option.some.inj heq
  exact hs

theorem gives_return {ctx : ParseContext} {word : Token} {tokens : List Token}
    (h : NamesTypes tokens) : GivesStmt (return_ ctx word tokens) := by
  refine ensures_bind (gives_statementTokens h) ?_
  rintro ⟨content?, rest⟩ ⟨-, hrest⟩
  dsimp only
  split
  · exact gives_none hrest
  · refine ensures_bind (gives_freshName _ _) fun name _ => ?_
    split
    · exact gives_some (s := .expr name word .return_ none) (by simp [Stmt.Proper]) hrest
    · refine ensures_bind (gives_expression _ _) fun e? he => ?_
      split
      · exact gives_some he hrest
      · exact gives_none hrest

theorem gives_exprStatement {ctx : ParseContext} {start : Token} {tokens : List Token}
    (h : NamesTypes tokens) : GivesStmt (exprStatement ctx start tokens) := by
  refine ensures_bind (gives_statementTokens h) ?_
  rintro ⟨content?, rest⟩ ⟨-, hrest⟩
  dsimp only
  split
  · exact gives_none hrest
  · split
    · exact gives_none hrest
    · refine ensures_bind (gives_expression _ _) fun e? he => ?_
      split
      · exact ensures_bind (gives_freshName _ _) fun name _ => gives_some he hrest
      · exact gives_none hrest

theorem gives_condition {ctx : ParseContext} {word : Token} {tokens : List Token}
    (h : NamesTypes tokens) : Gives (condition ctx word tokens) fun r =>
      (∀ e, r.1 = some e → e.Proper) ∧ NamesTypes r.2 := by
  refine ensures_bind (gives_expect h) fun found hfound => ?_
  split
  · exact ensures_pure ⟨by simp, h⟩
  · next tokens' =>
      obtain ⟨-, -, htokens⟩ := hfound _ _ rfl
      have hcut : NamesTypes (parenthesised tokens').1 ∧ NamesTypes (parenthesised tokens').2.1 :=
        namesTypes_segment htokens
      dsimp only
      split
      · exact ensures_bind (gives_unterminated _ _ _) fun _ _ =>
          ensures_pure ⟨by simp, hcut.2⟩
      · split
        · exact ensures_report_bind
        · exact ensures_bind (gives_expression _ _) fun e? he => ensures_pure ⟨he, hcut.2⟩

theorem gives_forStart {ctx : ParseContext} {init : List Token} (h : NamesTypes init) :
    Gives (forStart ctx init) fun r => ∀ start, r = some start → start.Proper := by
  unfold forStart
  split
  · refine ensures_pure fun start heq => ?_
    obtain rfl := Option.some.inj heq
    trivial
  · next first rest =>
      split
      · next hkind =>
          refine ensures_bind (gives_declParts _ _ _) fun parts? hparts => ?_
          split
          · next name value =>
              refine ensures_pure fun start heq => ?_
              obtain rfl := Option.some.inj heq
              exact (proper_varDecl hkind (h first (by simp)) (hparts _ rfl)).1
          · exact ensures_pure fun _ heq => by cases heq
      · refine ensures_bind (gives_expression _ _) fun e? he => ensures_pure fun start heq => ?_
        obtain ⟨e, rfl, rfl⟩ := Option.map_eq_some_iff.mp heq
        exact he e rfl

theorem gives_optionalExpression (ctx : ParseContext) (tokens : List Token) :
    Gives (optionalExpression ctx tokens) fun r =>
      ∀ e? e, r = some e? → e? = some e → e.Proper := by
  unfold optionalExpression
  split
  · refine ensures_pure fun e? e heq he => ?_
    obtain rfl := Option.some.inj heq
    cases he
  · refine ensures_bind (gives_expression _ _) fun e? he => ensures_pure fun e?' e heq he' => ?_
    obtain ⟨e', rfl, rfl⟩ := Option.map_eq_some_iff.mp heq
    exact he e he'

theorem gives_forHeader {ctx : ParseContext} {init cond step : List Token} (h : NamesTypes init) :
    Gives (forHeader ctx init cond step) fun r => ∀ parts, r = some parts →
      parts.1.Proper ∧ (∀ e, parts.2.1 = some e → e.Proper)
        ∧ ∀ e, parts.2.2 = some e → e.Proper := by
  refine ensures_bind (gives_forStart h) fun start? hstart => ?_
  split
  · exact ensures_pure fun _ heq => by cases heq
  · next start =>
      refine ensures_bind (gives_optionalExpression _ _) fun cond?? hcond => ?_
      split
      · exact ensures_pure fun _ heq => by cases heq
      · next cond? =>
          refine ensures_bind (gives_optionalExpression _ _) fun step?? hstep => ?_
          refine ensures_pure fun parts heq => ?_
          obtain ⟨step?, rfl, rfl⟩ := Option.map_eq_some_iff.mp heq
          exact ⟨hstart start rfl, fun e he => hcond cond? e rfl he, fun e he => hstep step? e rfl he⟩

/-- The readers of statements with some fuel answer proper statements. -/
structure ProperReaders (fuel : Nat) : Prop where
  statements : ∀ ctx tokens, NamesTypes tokens → Gives (statements ctx fuel tokens) Stmt.AllProper
  statement : ∀ ctx tokens, NamesTypes tokens → GivesStmts (statement ctx fuel tokens)
  branchBody : ∀ ctx word tokens, NamesTypes tokens → GivesStmts (branchBody ctx fuel word tokens)
  branch : ∀ ctx word tokens, NamesTypes tokens → Gives (branch ctx fuel word tokens) fun r =>
    (∀ parts, r.1 = some parts → parts.1.Proper ∧ Stmt.AllProper parts.2.1 ∧ parts.2.2.Proper)
      ∧ NamesTypes r.2
  doLoop : ∀ ctx word tokens, NamesTypes tokens → GivesStmt (doLoop ctx fuel word tokens)
  whileLoop : ∀ ctx word tokens, NamesTypes tokens → GivesStmt (whileLoop ctx fuel word tokens)
  forLoop : ∀ ctx word tokens, NamesTypes tokens → GivesStmt (forLoop ctx fuel word tokens)

/-- A reader of one statement as one of several. -/
theorem gives_toList {x : Parsing (Option Stmt × List Token)} (hx : GivesStmt x) :
    GivesStmts (do let (s?, rest) ← x; return (s?.toList, rest)) := by
  refine ensures_bind hx ?_
  rintro ⟨s?, rest⟩ ⟨hs, hrest⟩
  refine ensures_pure ⟨?_, hrest⟩
  cases s? with
  | none => trivial
  | some s => exact ⟨hs s rfl, trivial⟩

/-- A block in braces, closed or not. -/
theorem gives_block {ctx : ParseContext} {fuel : Nat} (ih : ProperReaders fuel) {t : Token}
    {cause : Cause} {tokens : List Token} (h : NamesTypes tokens) :
    GivesStmts (do
      let (body, rest, closed) := braced tokens
      if !closed then unterminated body t cause
      return (← statements (.ofTokens ctx.function body) fuel body, rest)) := by
  have hcut : NamesTypes (braced tokens).1 ∧ NamesTypes (braced tokens).2.1 := namesTypes_segment h
  have hbody : GivesStmts (do
      return (← statements (.ofTokens ctx.function (braced tokens).1) fuel (braced tokens).1,
        (braced tokens).2.1)) :=
    ensures_bind (ih.statements _ _ hcut.1) fun body hbody => ensures_pure ⟨hbody, hcut.2⟩
  dsimp only
  split
  · exact ensures_bind (gives_unterminated _ _ _) fun _ _ => hbody
  · exact hbody

/-- Without fuel no statement is read. -/
theorem properReaders_zero : ProperReaders 0 := by
  constructor
  · intro ctx tokens h
    unfold statements
    exact ensures_pure trivial
  · intro ctx tokens h
    unfold statement
    exact ensures_pure ⟨trivial, h⟩
  · intro ctx word tokens h
    unfold branchBody
    exact ensures_pure ⟨trivial, h⟩
  · intro ctx word tokens h
    unfold branch
    exact ensures_pure ⟨by simp, h⟩
  · intro ctx word tokens h
    unfold doLoop
    exact gives_none h
  · intro ctx word tokens h
    unfold whileLoop
    exact gives_none h
  · intro ctx word tokens h
    unfold forLoop
    exact gives_none h

section

variable {fuel : Nat} (ih : ProperReaders fuel)

include ih

theorem proper_statements (ctx : ParseContext) (tokens : List Token) (h : NamesTypes tokens) :
    Gives (statements ctx (fuel + 1) tokens) Stmt.AllProper := by
  cases tokens with
  | nil =>
      unfold statements
      exact ensures_pure trivial
  | cons t rest =>
      unfold statements
      refine ensures_bind (ih.statement ctx (t :: rest) h) ?_
      rintro ⟨first, rest⟩ ⟨hfirst, hrest⟩
      exact ensures_bind (ih.statements ctx rest hrest) fun more hmore =>
        ensures_pure (Stmt.allProper_append hfirst hmore)

theorem proper_statement (ctx : ParseContext) (tokens : List Token) (h : NamesTypes tokens) :
    GivesStmts (statement ctx (fuel + 1) tokens) := by
  cases tokens with
  | nil =>
      unfold statement
      exact ensures_pure ⟨trivial, .nil⟩
  | cons t rest =>
      have ht : t.NamesType := h t (by simp)
      have hrest : NamesTypes rest := h.subset fun r hr => List.mem_cons_of_mem t hr
      unfold statement
      split
      · -- a declaration
        next hkind =>
          refine ensures_bind (gives_variable hkind ht hrest) ?_
          rintro ⟨d?, rest⟩ ⟨hd, hrest⟩
          refine ensures_pure ⟨?_, hrest⟩
          cases d? with
          | none => trivial
          | some d => exact ⟨(hd d rfl).1, trivial⟩
      · -- a chain of branches, possibly cut short by an error
        refine ensures_bind (gives_freshName _ _) fun name _ => ?_
        refine ensures_bind (ih.branch ctx t rest hrest) ?_
        rintro ⟨branch?, rest⟩ ⟨hbranch, hrest⟩
        refine ensures_pure ⟨?_, hrest⟩
        cases branch? with
        | none => trivial
        | some parts => exact ⟨hbranch parts rfl, trivial⟩
      · exact gives_toList (ih.doLoop ctx t rest hrest)
      · exact gives_toList (ih.whileLoop ctx t rest hrest)
      · exact gives_toList (ih.forLoop ctx t rest hrest)
      · exact gives_toList (gives_return hrest)
      · exact gives_block ih hrest
      · exact ensures_pure ⟨trivial, hrest⟩
      · exact ensures_report_bind
      · exact ensures_report_bind
      · exact ensures_report_bind
      · exact gives_toList (gives_exprStatement h)

theorem proper_branchBody (ctx : ParseContext) (word : Token) (tokens : List Token)
    (h : NamesTypes tokens) : GivesStmts (branchBody ctx (fuel + 1) word tokens) := by
  unfold branchBody
  cases tokens with
  | nil => exact ensures_report_bind
  | cons t rest =>
      have hrest : NamesTypes rest := h.subset fun r hr => List.mem_cons_of_mem t hr
      dsimp only
      split
      · exact gives_block ih hrest
      · exact ih.statement ctx (t :: rest) h

/-- Each else hands its chain on to the if in front of it. -/
theorem proper_branch (ctx : ParseContext) (word : Token) (tokens : List Token)
    (h : NamesTypes tokens) : Gives (branch ctx (fuel + 1) word tokens) fun r =>
      (∀ parts, r.1 = some parts → parts.1.Proper ∧ Stmt.AllProper parts.2.1 ∧ parts.2.2.Proper)
        ∧ NamesTypes r.2 := by
  unfold branch
  refine ensures_bind (gives_condition h) ?_
  rintro ⟨cond?, rest⟩ ⟨hcond, hrest⟩
  cases cond? with
  | none => exact ensures_pure ⟨by simp, namesTypes_recover hrest⟩
  | some cond =>
      refine ensures_bind (ih.branchBody ctx word rest hrest) ?_
      rintro ⟨body, rest⟩ ⟨hbody, hrest⟩
      dsimp only
      split
      · refine ensures_pure ⟨fun parts heq => ?_, hrest⟩
        obtain rfl := Option.some.inj heq
        exact ⟨hcond cond rfl, hbody, trivial⟩
      · -- something follows the keyword: a further condition, or the last branch
        next elseToken rest' helse =>
          have helse := (namesTypes_accept hrest helse).2
          refine ensures_bind (gives_freshName _ _) fun name _ => ?_
          split
          · next ifToken rest'' hif =>
              refine ensures_bind (ih.branch ctx ifToken rest'' (namesTypes_accept helse hif).2) ?_
              rintro ⟨next?, rest⟩ ⟨hnext, hrest⟩
              refine ensures_pure ⟨fun parts heq => ?_, hrest⟩
              obtain ⟨next, rfl, rfl⟩ := Option.map_eq_some_iff.mp heq
              exact ⟨hcond cond rfl, hbody, hnext next rfl⟩
          · refine ensures_bind (ih.branchBody ctx elseToken rest' helse) ?_
            rintro ⟨elseBody, rest⟩ ⟨helseBody, hrest⟩
            refine ensures_pure ⟨fun parts heq => ?_, hrest⟩
            obtain rfl := Option.some.inj heq
            exact ⟨hcond cond rfl, hbody, helseBody⟩

theorem proper_doLoop (ctx : ParseContext) (word : Token) (tokens : List Token)
    (h : NamesTypes tokens) : GivesStmt (doLoop ctx (fuel + 1) word tokens) := by
  unfold doLoop
  refine ensures_bind (gives_freshName _ _) fun name _ => ?_
  refine ensures_bind (ih.branchBody ctx word tokens h) ?_
  rintro ⟨body, rest⟩ ⟨hbody, hrest⟩
  refine ensures_bind (gives_expect hrest) fun found hfound => ?_
  split
  · exact gives_none (namesTypes_recover hrest)
  · next whileToken rest' =>
      obtain ⟨-, -, hrest⟩ := hfound _ _ rfl
      refine ensures_bind (gives_condition hrest) ?_
      rintro ⟨cond?, rest⟩ ⟨hcond, hrest⟩
      cases cond? with
      | none => exact gives_none (namesTypes_recover hrest)
      | some cond =>
          refine ensures_bind (gives_expect hrest) fun found hfound => ?_
          split
          · exact gives_none hrest
          · obtain ⟨-, -, hrest⟩ := hfound _ _ rfl
            exact gives_some ⟨hcond, by simp, trivial, hbody⟩ hrest

theorem proper_whileLoop (ctx : ParseContext) (word : Token) (tokens : List Token)
    (h : NamesTypes tokens) : GivesStmt (whileLoop ctx (fuel + 1) word tokens) := by
  unfold whileLoop
  refine ensures_bind (gives_freshName _ _) fun name _ => ?_
  refine ensures_bind (gives_condition h) ?_
  rintro ⟨cond?, rest⟩ ⟨hcond, hrest⟩
  cases cond? with
  | none => exact gives_none (namesTypes_recover hrest)
  | some cond =>
      refine ensures_bind (ih.branchBody ctx word rest hrest) ?_
      rintro ⟨body, rest⟩ ⟨hbody, hrest⟩
      exact gives_some ⟨hcond, by simp, trivial, hbody⟩ hrest

theorem proper_forLoop (ctx : ParseContext) (word : Token) (tokens : List Token)
    (h : NamesTypes tokens) : GivesStmt (forLoop ctx (fuel + 1) word tokens) := by
  unfold forLoop
  refine ensures_bind (gives_freshName _ _) fun name _ => ?_
  refine ensures_bind (gives_expect h) fun found hfound => ?_
  split
  · exact gives_none (namesTypes_recover h)
  · next tokens' =>
      obtain ⟨-, -, htokens⟩ := hfound _ _ rfl
      have hcut : NamesTypes (parenthesised tokens').1
          ∧ NamesTypes (parenthesised tokens').2.1 := namesTypes_segment htokens
      dsimp only
      split
      · exact ensures_bind (gives_unterminated _ _ _) fun _ _ => gives_none hcut.2
      · split
        · next init cond step hsplit =>
            have hinit : NamesTypes init :=
              namesTypes_splitTop hcut.1 init (by rw [hsplit]; simp)
            refine ensures_bind (gives_forHeader hinit) fun header? hheader => ?_
            split
            · exact gives_none hcut.2
            · obtain ⟨hstart, hcond, hstep⟩ := hheader _ rfl
              refine ensures_bind (ih.branchBody ctx word _ hcut.2) ?_
              rintro ⟨body, rest⟩ ⟨hbody, hrest⟩
              exact gives_some ⟨hcond, hstep, hstart, hbody⟩ hrest
        · exact ensures_report_bind

end

theorem properReaders (fuel : Nat) : ProperReaders fuel := by
  induction fuel with
  | zero => exact properReaders_zero
  | succ fuel ih =>
      exact ⟨proper_statements ih, proper_statement ih, proper_branchBody ih, proper_branch ih,
        proper_doLoop ih, proper_whileLoop ih, proper_forLoop ih⟩

/-! ## Units -/

theorem gives_parameters {word name : Token} {parts : List (List Token)}
    (h : ∀ part ∈ parts, NamesTypes part) :
    Gives (parameters word name parts) fun r => ∀ params, r = some params → ∀ p ∈ params, p.Proper := by
  induction parts with
  | nil =>
      refine ensures_pure fun params heq => ?_
      obtain rfl := Option.some.inj heq
      simp
  | cons part rest ih =>
      unfold parameters
      split
      · next type param =>
          have htype : type.NamesType := h _ (List.mem_cons_self ..) type (by simp)
          split
          · exact ensures_report_bind
          · -- the parameter has a type word and an identifier
            next hshape =>
              simp only [ne_eq, decide_not, Bool.or_eq_true, Bool.not_eq_true', not_or,
                decide_eq_false_iff_not, Decidable.not_not, Bool.not_eq_false] at hshape
              obtain ⟨⟨hkind, -⟩, hident⟩ := hshape
              -- the keywords that begin a declaration name known types
              obtain ⟨hknown, -⟩ := ofName_keyword _ (htype hkind) hkind
              dsimp only
              split
              · exact ensures_report_bind
              · next hvoid =>
                  refine ensures_bind (ih fun p hp => h p (by simp [hp])) fun more hmore => ?_
                  refine ensures_pure fun params heq => ?_
                  obtain ⟨more, rfl, rfl⟩ := Option.map_eq_some_iff.mp heq
                  simp only [List.mem_cons]
                  rintro p (rfl | hp)
                  · exact ⟨hident, hknown, hvoid⟩
                  · exact hmore more rfl p hp
      · exact ensures_report_bind

theorem gives_returnType {ctx : ParseContext} {tokens : List Token} (h : NamesTypes tokens) :
    Gives (returnType ctx tokens) fun r =>
      (∀ type, r.1 = some type → type.isKnown = true) ∧ NamesTypes r.2 := by
  unfold returnType
  split
  · refine ensures_pure ⟨fun type heq => ?_, h⟩
    obtain rfl := Option.some.inj heq
    rfl
  · next haccept =>
      have hrest := (namesTypes_accept h haccept).2
      refine ensures_bind (gives_expect hrest) fun found hfound => ?_
      split
      · next type tokens' =>
          obtain ⟨hkind, htype, hrest⟩ := hfound _ _ rfl
          refine ensures_pure ⟨fun t heq => ?_, hrest⟩
          obtain rfl := Option.some.inj heq
          exact (ofName_keyword _ (htype hkind) hkind).1
      · exact ensures_pure ⟨by simp, namesTypes_recover hrest⟩

/-- A reader that answers a proper function, if any, and what is left. -/
abbrev GivesFunction (x : Parsing (Option FuncDecl × List Token)) : Prop :=
  Gives x fun r => (∀ f, r.1 = some f → f.Proper) ∧ NamesTypes r.2

theorem gives_functionEnd {ctx : ParseContext} {announced : FuncDecl} {tokens : List Token}
    (hannounced : announced.Proper) (h : NamesTypes tokens) :
    GivesFunction (functionEnd ctx announced tokens) := by
  unfold functionEnd
  split
  · next haccept =>
      refine ensures_pure ⟨fun f heq => ?_, (namesTypes_accept h haccept).2⟩
      obtain rfl := Option.some.inj heq
      exact hannounced
  · refine ensures_bind (gives_expect h) fun found hfound => ?_
    split
    · exact ensures_pure ⟨by simp, namesTypes_recover h⟩
    · next opening tokens' =>
        obtain ⟨-, -, htokens⟩ := hfound _ _ rfl
        have hcut : NamesTypes (braced tokens').1 ∧ NamesTypes (braced tokens').2.1 :=
          namesTypes_segment htokens
        have hbody : GivesFunction (do
            let stmts ← body announced.name (braced tokens').1
            return (some { announced with body? := some stmts }, (braced tokens').2.1)) := by
          refine ensures_bind ((properReaders _).statements _ _ hcut.1) fun stmts hstmts => ?_
          refine ensures_pure ⟨fun f heq => ?_, hcut.2⟩
          obtain rfl := Option.some.inj heq
          exact { hannounced with body := fun s hs => Option.some.inj hs ▸ hstmts }
        dsimp only
        split
        · exact ensures_bind (gives_unterminated _ _ _) fun _ _ => hbody
        · exact hbody

theorem gives_functionTail {ctx : ParseContext} {word name : Token} {params : List Param}
    {tokens : List Token} (hname : isIdentifier name.text = true) (hparams : ∀ p ∈ params, p.Proper)
    (hcount : params.length ≤ 255) (h : NamesTypes tokens) :
    GivesFunction (functionTail ctx word name params tokens) := by
  refine ensures_bind (gives_returnType h) ?_
  rintro ⟨type?, rest⟩ ⟨htype, hrest⟩
  cases type? with
  | none => exact ensures_pure ⟨by simp, hrest⟩
  | some type => exact gives_functionEnd ⟨hname, hparams, hcount, htype type rfl, by simp⟩ hrest

/-- What follows the parameters of a declaration, once they are read and counted. -/
theorem gives_counted {ctx : ParseContext} {word name : Token} {params? : Option (List Param)}
    {tokens : List Token} (hname : isIdentifier name.text = true) (h : NamesTypes tokens) :
    (∀ params, params? = some params → ∀ p ∈ params, p.Proper) → GivesFunction (match params? with
      | none => return (none, tokens)
      | some params => do
        if maxParameters < params.length then
          report word (.tooManyParameters name.text)
        functionTail ctx word name params tokens) := by
  intro hparams
  split
  · exact ensures_pure ⟨by simp, h⟩
  · next params =>
      split
      · exact ensures_report_bind
      · next hcount =>
          exact gives_functionTail hname (hparams params rfl)
            (by simpa [maxParameters] using hcount) h

theorem gives_function {ctx : ParseContext} {word : Token} {tokens : List Token}
    (h : NamesTypes tokens) : GivesFunction (function ctx word tokens) := by
  unfold function
  split
  · exact ensures_report_bind
  · next name tokens' haccept =>
      have htokens := (namesTypes_accept h haccept).2
      split
      · exact ensures_report_bind
      · next hname =>
          refine ensures_bind (gives_expect htokens) fun found hfound => ?_
          split
          · exact ensures_pure ⟨by simp, namesTypes_recover htokens⟩
          · next inner' =>
              obtain ⟨-, -, hinner⟩ := hfound _ _ rfl
              have hcut : NamesTypes (parenthesised inner').1
                  ∧ NamesTypes (parenthesised inner').2.1 := namesTypes_segment hinner
              have hname : isIdentifier name.text = true := by simpa using hname
              dsimp only
              split
              · exact ensures_bind (gives_unterminated _ _ _) fun _ _ =>
                  ensures_pure ⟨by simp, hcut.2⟩
              · split
                · refine ensures_bind (ensures_pure (Q := fun r => r = some []) rfl) fun _ hr => ?_
                  exact gives_counted hname hcut.2 (by rintro params rfl; cases hr; simp)
                · exact ensures_bind (gives_parameters (namesTypes_splitTop hcut.1)) fun _ hr =>
                    gives_counted hname hcut.2 hr

theorem gives_field {ctx : ParseContext} {word : Token} {tokens : List Token}
    (h : NamesTypes tokens) : Gives (field ctx word tokens) fun r =>
      (∀ d, r.1 = some d → d.Proper ∧ (ctx.function = [] → d.id = Name.id d.name))
        ∧ NamesTypes r.2 := by
  refine ensures_bind (gives_expect h) fun found hfound => ?_
  split
  · exact ensures_pure ⟨by simp, namesTypes_recover h⟩
  · next type tokens' =>
      obtain ⟨hkind, htype, hrest⟩ := hfound _ _ rfl
      refine ensures_bind (gives_declTail hrest) ?_
      rintro ⟨parts?, rest⟩ ⟨hparts, hrest⟩
      refine ensures_pure ⟨fun d heq => ?_, hrest⟩
      obtain ⟨parts, rfl, rfl⟩ := Option.map_eq_some_iff.mp heq
      have ⟨hproper, hid⟩ := @proper_varDecl ctx _ _ _ hkind htype (hparts parts rfl)
      exact ⟨⟨hproper.name, hproper.type, hproper.initial⟩, hid⟩

theorem gives_declaration {ctx : ParseContext} {t : Token} {rest : List Token}
    (hctx : ctx.function = []) (ht : t.NamesType) (h : NamesTypes rest) :
    Gives (declaration ctx t rest) fun r =>
      (∀ d, r.1 = some d → d.Proper) ∧ NamesTypes r.2 := by
  unfold declaration
  split
  · refine ensures_bind (gives_function h) ?_
    rintro ⟨f?, rest⟩ ⟨hf, hrest⟩
    refine ensures_pure ⟨fun d heq => ?_, hrest⟩
    obtain ⟨f, rfl, rfl⟩ := Option.map_eq_some_iff.mp heq
    exact hf f rfl
  · refine ensures_bind (gives_field h) ?_
    rintro ⟨d?, rest⟩ ⟨hd, hrest⟩
    refine ensures_pure ⟨fun d heq => ?_, hrest⟩
    obtain ⟨d, rfl, rfl⟩ := Option.map_eq_some_iff.mp heq
    exact ⟨(hd d rfl).1, (hd d rfl).2 hctx⟩
  · next hkind =>
      refine ensures_bind (gives_variable hkind ht h) ?_
      rintro ⟨d?, rest⟩ ⟨hd, hrest⟩
      refine ensures_pure ⟨fun d heq => ?_, hrest⟩
      obtain ⟨d, rfl, rfl⟩ := Option.map_eq_some_iff.mp heq
      exact ⟨(hd d rfl).1, (hd d rfl).2 hctx⟩
  · exact ensures_pure ⟨by simp, h⟩
  all_goals exact ensures_report_bind

theorem gives_declarations {ctx : ParseContext} (hctx : ctx.function = []) (fuel : Nat)
    {tokens : List Token} (h : NamesTypes tokens) :
    Gives (declarations ctx fuel tokens) fun ds => ∀ d ∈ ds, d.Proper := by
  induction fuel generalizing tokens with
  | zero =>
      unfold declarations
      exact ensures_pure (by simp)
  | succ fuel ih =>
      cases tokens with
      | nil =>
          unfold declarations
          exact ensures_pure (by simp)
      | cons t rest =>
          unfold declarations
          refine ensures_bind (gives_declaration hctx (h t (by simp))
            (h.subset fun r hr => List.mem_cons_of_mem t hr)) ?_
          rintro ⟨d?, rest⟩ ⟨hd, hrest⟩
          refine ensures_bind (ih hrest) fun more hmore => ensures_pure fun d hmem => ?_
          rcases List.mem_append.mp hmem with hmem | hmem
          · exact hd d (by simpa using hmem)
          · exact hmore d hmem

end Parsing

/-- The declarations behind a script are proper. -/
theorem compile_proper {store : FileStore} {options : CompileOptions} {sources : List Macros.Source}
    {history : List Text} {script : Script}
    (h : (compile store options sources history).script? = some script) :
    ∀ d ∈ (compile store options sources history).program, d.Proper := by
  obtain ⟨tokens, ⟨s, hmacros⟩, ⟨s', hparsed⟩, -⟩ := compile_clean h
  have htokens : NamesTypes tokens :=
    ((Macros.ensures_processAll _ sources).of_clean (by simp [Macros.Sound]) hmacros).2
  exact ((Parsing.gives_declarations rfl _ htokens).of_clean trivial hparsed).2

end TickScript
