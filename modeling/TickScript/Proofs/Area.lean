import TickScript.Proofs.Reporting
import TickScript.Stmt.Parser

/-!
# Areas of the sources

An area says which lines of which files belong to it. A token or a diagnostic lies in an area when
its place belongs to it, and a list, a tree or an answer does when every token in it does. A stage
points into an area when all that it reports lies there; it is confined to the area when its answer
does as well. What the stages say about places is put together from these two notions: whoever is
handed tokens of an area reports within it and hands on tokens of the area.

`Points` is the general form: it also describes the answer, and it allows a stage to break down,
since a stage that gives no answer in a state has nothing to say about it there. `PointsInto` and
`Confined` are the two cases that the stages of the compiler need. The laws follow the way stages
are put together, with one for `pure`, one for a report and one for a bind; the bind law comes in
three forms, by whether the first answer holds places. Which of them applies is decided by the types
alone, because every type of data has one `LiesIn` instance, and data without tokens has the trivial
one.
-/

namespace TickScript

/-- Some lines of some files. -/
abbrev Area := Text → Int → Prop

/-- Data that holds tokens or diagnostics, all of which may lie in an area. -/
class Located (α : Type) where
  LiesIn : Area → α → Prop

export Located (LiesIn)

variable {σ α β γ : Type} {A : Area}

/-! ## Tokens and containers -/

instance locatedToken : Located Token := ⟨fun A t => A t.file t.line⟩

instance locatedDiagnostic : Located Diagnostic := ⟨fun A d => A d.file d.line⟩

instance locatedList [Located α] : Located (List α) := ⟨fun A l => ∀ a ∈ l, LiesIn A a⟩

instance locatedOption [Located α] : Located (Option α) := ⟨fun A o => ∀ a ∈ o, LiesIn A a⟩

instance locatedPair [Located α] [Located β] : Located (α × β) :=
  ⟨fun A p => LiesIn A p.1 ∧ LiesIn A p.2⟩

section

variable [Located α] [Located β]

@[simp] theorem liesIn_nil : LiesIn A ([] : List α) := by
  simp [LiesIn]

@[simp] theorem liesIn_cons {a : α} {l : List α} :
    LiesIn A (a :: l) ↔ LiesIn A a ∧ LiesIn A l := List.forall_mem_cons

@[simp] theorem liesIn_append {l l' : List α} :
    LiesIn A (l ++ l') ↔ LiesIn A l ∧ LiesIn A l' := List.forall_mem_append

@[simp] theorem liesIn_none : LiesIn A (none : Option α) := by
  simp [LiesIn]

@[simp] theorem liesIn_some {a : α} : LiesIn A (some a) ↔ LiesIn A a := by
  simp [LiesIn]

@[simp] theorem liesIn_pair {a : α} {b : β} : LiesIn A (a, b) ↔ LiesIn A a ∧ LiesIn A b :=
  Iff.rfl

@[simp] theorem liesIn_toList {o : Option α} : LiesIn A o.toList ↔ LiesIn A o := by
  cases o <;> simp

/-- A default of the area does for an option whose value lies there. -/
theorem liesIn_getD {o : Option α} {a : α} (ho : LiesIn A o) (ha : LiesIn A a) :
    LiesIn A (o.getD a) := by
  cases o with
  | none => exact ha
  | some b => exact liesIn_some.1 ho

theorem liesIn_map {f : α → β} {o : Option α} (h : LiesIn A o)
    (hf : ∀ a, LiesIn A a → LiesIn A (f a)) : LiesIn A (o.map f) := by
  cases o with
  | none => exact liesIn_none
  | some a => exact liesIn_some.2 (hf a (liesIn_some.1 h))

end

@[simp] theorem liesIn_endAfter {t : Token} : LiesIn A t.endAfter ↔ LiesIn A t := Iff.rfl

/-! ## Data without a place -/

instance locatedUnit : Located Unit := ⟨fun _ _ => True⟩

instance locatedBool : Located Bool := ⟨fun _ _ => True⟩

instance locatedByte : Located UInt8 := ⟨fun _ _ => True⟩

instance locatedVarType : Located VarType := ⟨fun _ _ => True⟩

instance locatedParseState : Located ParseState := ⟨fun _ _ => True⟩

/-! ## Trees -/

namespace Expr

mutual

/-- Whether every token of an expression lies in an area. -/
def Lies (A : Area) : Expr → Prop
  | ident token => LiesIn A token
  | number token => LiesIn A token
  | string opening _ => LiesIn A opening
  | word token => LiesIn A token
  | unary operator operand => LiesIn A operator ∧ operand.Lies A
  | step operator target _ => LiesIn A operator ∧ LiesIn A target
  | binary operator left right => LiesIn A operator ∧ left.Lies A ∧ right.Lies A
  | assign operator target value => LiesIn A operator ∧ LiesIn A target ∧ value.Lies A
  | call callee args => LiesIn A callee ∧ AllLie A args
  | index target subscript => target.Lies A ∧ subscript.Lies A

/-- Whether every token of some expressions lies in an area. -/
def AllLie (A : Area) : List Expr → Prop
  | [] => True
  | e :: rest => e.Lies A ∧ AllLie A rest

end

instance locatedExpr : Located Expr := ⟨Lies⟩

/-- The arguments of a call lie in an area as a list of expressions does. -/
theorem allLie_iff {args : List Expr} : AllLie A args ↔ LiesIn A args := by
  induction args with
  | nil => simp [AllLie]
  | cons e rest ih =>
      rw [AllLie, ih, liesIn_cons]
      rfl

@[simp] theorem liesIn_call {callee : Token} {args : List Expr} :
    LiesIn A (call callee args) ↔ LiesIn A callee ∧ LiesIn A args := by
  rw [← allLie_iff]
  rfl

/-- An expression starts at one of its tokens. -/
theorem liesIn_position : (e : Expr) → LiesIn A e → LiesIn A e.position
  | ident _, h => h
  | number _, h => h
  | string _ _, h => h
  | word _, h => h
  | unary _ _, h => h.1
  | step _ _ _, h => h.1
  | binary _ left _, h => liesIn_position left h.2.1
  | assign _ _ _, h => h.2.1
  | call _ _, h => h.1
  | index target _, h => liesIn_position target h.1

end Expr

instance locatedVarDecl : Located VarDecl := ⟨fun A d => LiesIn A d.token ∧ LiesIn A d.initial?⟩

instance locatedLoopStart : Located LoopStart where
  LiesIn A
    | .nothing => True
    | .declare d => LiesIn A d
    | .evaluate e => LiesIn A e

mutual

/-- Whether every token of a statement lies in an area. -/
def Stmt.Lies (A : Area) : Stmt → Prop
  | .declare d => LiesIn A d
  | .expr _ t _ value? => LiesIn A t ∧ LiesIn A value?
  | .ifElse _ t condition body rest =>
    LiesIn A t ∧ LiesIn A condition ∧ Stmt.AllLie A body ∧ rest.Lies A
  | .loop _ t _ condition? step? start body =>
    LiesIn A t ∧ LiesIn A condition? ∧ LiesIn A step? ∧ LiesIn A start ∧ Stmt.AllLie A body

/-- Whether every token of some statements lies in an area. -/
def Stmt.AllLie (A : Area) : List Stmt → Prop
  | [] => True
  | s :: rest => s.Lies A ∧ Stmt.AllLie A rest

/-- Whether every token of some branches lies in an area. -/
def Alternatives.Lies (A : Area) : Alternatives → Prop
  | .none => True
  | .otherwise _ t body => LiesIn A t ∧ Stmt.AllLie A body
  | .elseIf _ t condition body rest =>
    LiesIn A t ∧ LiesIn A condition ∧ Stmt.AllLie A body ∧ rest.Lies A

end

instance locatedStmt : Located Stmt := ⟨Stmt.Lies⟩

instance locatedAlternatives : Located Alternatives := ⟨Alternatives.Lies⟩

theorem Stmt.allLie_iff {body : List Stmt} : Stmt.AllLie A body ↔ LiesIn A body := by
  induction body with
  | nil => simp [Stmt.AllLie]
  | cons s rest ih =>
      rw [Stmt.AllLie, ih, liesIn_cons]
      rfl

@[simp] theorem liesIn_exprStmt {name : Text} {t : Token} {kind : ExprKind}
    {value? : Option Expr} :
    LiesIn A (Stmt.expr name t kind value?) ↔ LiesIn A t ∧ LiesIn A value? := Iff.rfl

@[simp] theorem liesIn_ifElse {name : Text} {t : Token} {condition : Expr}
    {body : List Stmt} {rest : Alternatives} :
    LiesIn A (Stmt.ifElse name t condition body rest)
      ↔ LiesIn A t ∧ LiesIn A condition ∧ LiesIn A body ∧ LiesIn A rest := by
  rw [← Stmt.allLie_iff]
  rfl

@[simp] theorem liesIn_loop {name : Text} {t : Token} {kind : LoopKind}
    {condition? step? : Option Expr} {start : LoopStart} {body : List Stmt} :
    LiesIn A (Stmt.loop name t kind condition? step? start body) ↔ LiesIn A t
      ∧ LiesIn A condition? ∧ LiesIn A step? ∧ LiesIn A start ∧ LiesIn A body := by
  rw [← Stmt.allLie_iff]
  rfl

@[simp] theorem liesIn_otherwise {name : Text} {t : Token} {body : List Stmt} :
    LiesIn A (Alternatives.otherwise name t body) ↔ LiesIn A t ∧ LiesIn A body := by
  rw [← Stmt.allLie_iff]
  rfl

@[simp] theorem liesIn_elseIf {name : Text} {t : Token} {condition : Expr}
    {body : List Stmt} {rest : Alternatives} :
    LiesIn A (Alternatives.elseIf name t condition body rest)
      ↔ LiesIn A t ∧ LiesIn A condition ∧ LiesIn A body ∧ LiesIn A rest := by
  rw [← Stmt.allLie_iff]
  rfl

instance locatedParam : Located Param := ⟨fun A p => LiesIn A p.token⟩

instance locatedFuncDecl : Located FuncDecl :=
  ⟨fun A f => LiesIn A f.token ∧ LiesIn A f.params ∧ LiesIn A f.body?⟩

instance locatedDecl : Located Decl where
  LiesIn A
    | .field d => LiesIn A d
    | .var d => LiesIn A d
    | .function f => LiesIn A f

/-! ## Stages -/

namespace Stage

/-- In a state, the stage does not come to an answer although it may go on behind its reports. -/
def Breaks (x : Stage σ α) (s : σ) : Prop :=
  ∀ entries, ∃ e log, x s ⟨false, entries⟩ = .error e log

/-- Whatever the state, the stage reports within the area and its answer is as described, unless it
breaks down. -/
def Points (A : Area) (x : Stage σ α) (Q : α → Prop) : Prop :=
  ∀ s, x.Breaks s ∨ ∃ r new, x.Answers s r new ∧ Q r.1 ∧ LiesIn A new

/-- The stage reports within the area. -/
def PointsInto (A : Area) (x : Stage σ α) : Prop := Points A x fun _ => True

/-- The stage reports within the area and answers with something that lies there. -/
def Confined [Located α] (A : Area) (x : Stage σ α) : Prop := Points A x (LiesIn A)

section

variable {x : Stage σ α} {f : α → Stage σ β} {Q : α → Prop} {S : β → Prop}

/-- What is known of a stage that never breaks down. -/
theorem Points.answers (hx : Points A x Q) (hfaithful : Faithful x) (s : σ) :
    ∃ r new, x.Answers s r new ∧ Q r.1 ∧ LiesIn A new := by
  refine (hx s).resolve_left fun hbreaks => ?_
  obtain ⟨r, new, hanswers⟩ := hfaithful s
  obtain ⟨e, log, herror⟩ := hbreaks []
  rw [hanswers.lenient] at herror
  cases herror

theorem points_pure {a : α} (h : Q a) : Points A (pure a : Stage σ α) Q :=
  fun s => .inr ⟨(a, s), [], ⟨fun _ => rfl, fun _ => rfl⟩, h, liesIn_nil⟩

/-- A stage that breaks down has nowhere to point. -/
theorem points_breakDown {breakdown : Breakdown} :
    Points A (liftM (breakDown breakdown : Reporting α) : Stage σ α) Q :=
  fun _ => .inl fun _ => ⟨_, _, rfl⟩

/-- What is pointed at first and what is pointed at next is pointed at together; the second stage may
rely on the answer of the first. -/
theorem points_bind (hx : Points A x Q) (hf : ∀ a, Q a → Points A (f a) S) :
    Points A (x >>= f) S := by
  intro s
  obtain hbreaks | ⟨⟨a, s'⟩, new, hx, ha, hnew⟩ := hx s
  · left
    intro entries
    obtain ⟨e, log, hrun⟩ := hbreaks entries
    exact ⟨e, log, by rw [run_bind, hrun]⟩
  · obtain hbreaks | ⟨r, more, hf, hr, hmore⟩ := hf a ha s'
    · left
      intro entries
      obtain ⟨e, log, hrun⟩ := hbreaks (new ++ entries)
      refine ⟨e, log, ?_⟩
      rw [run_bind, hx.lenient]
      exact hrun
    · exact .inr ⟨r, more ++ new, hx.bind hf, hr, liesIn_append.2 ⟨hmore, hnew⟩⟩

/-- A weaker demand on the answer is met as well. -/
theorem Points.mono {Q' : α → Prop} (hx : Points A x Q) (h : ∀ a, Q a → Q' a) : Points A x Q' := by
  intro s
  obtain hbreaks | ⟨r, new, hx, hr, hnew⟩ := hx s
  · exact .inl hbreaks
  · exact .inr ⟨r, new, hx, h r.1 hr, hnew⟩

/-- A stage that does not report points into every area. -/
theorem points_of_silent (g : σ → α × σ) (hx : ∀ s log, x s log = .ok (g s) log)
    (hg : ∀ s, Q (g s).1) : Points A x Q :=
  fun s => .inr ⟨g s, [], ⟨fun _ => hx s _, fun _ => hx s _⟩, hg s, liesIn_nil⟩

/-- A report points at the place of its token. -/
theorem points_report {t : Token} {cause : Cause} (h : LiesIn A t) :
    Points A (liftM (report t cause) : Stage σ Unit) fun _ => True :=
  fun s => .inr ⟨((), s), [Diagnostic.at_ t cause], ⟨fun _ => rfl, fun _ => rfl⟩, trivial,
    liesIn_cons.2 ⟨h, liesIn_nil⟩⟩

theorem pointsInto_pure (a : α) : PointsInto A (pure a : Stage σ α) :=
  points_pure trivial

theorem pointsInto_get : PointsInto A (get : Stage σ σ) :=
  points_of_silent (fun s => (s, s)) (fun _ _ => rfl) fun _ => trivial

theorem pointsInto_set (s : σ) : PointsInto A (set s : Stage σ PUnit) :=
  points_of_silent (fun _ => (⟨⟩, s)) (fun _ _ => rfl) fun _ => trivial

theorem pointsInto_modify (g : σ → σ) : PointsInto A (modify g : Stage σ PUnit) :=
  points_of_silent (fun s => (⟨⟩, g s)) (fun _ _ => rfl) fun _ => trivial

theorem pointsInto_report {t : Token} {cause : Cause} (h : LiesIn A t) :
    PointsInto A (liftM (report t cause) : Stage σ Unit) := points_report h

theorem pointsInto_bind (hx : PointsInto A x) (hf : ∀ a, PointsInto A (f a)) :
    PointsInto A (x >>= f) := points_bind hx fun a _ => hf a

/-- A report in front of something else, made on a condition. -/
theorem pointsInto_reportIf {c : Prop} [Decidable c] {t : Token} (ht : LiesIn A t) {cause : Cause}
    (hx : PointsInto A x) :
    PointsInto A (if c then liftM (report t cause) >>= fun _ => x else x) := by
  split
  · exact pointsInto_bind (pointsInto_report ht) fun _ => hx
  · exact hx

/-- What a stage answers can be made into something else. -/
theorem PointsInto.map (hx : PointsInto A x) {g : α → β} :
    PointsInto A (x >>= fun a => pure (g a)) := pointsInto_bind hx fun _ => pointsInto_pure _

end

section

variable [Located α] [Located β] {x : Stage σ α} {f : α → Stage σ β}

theorem confined_pure {a : α} (h : LiesIn A a) : Confined A (pure a : Stage σ α) :=
  points_pure h

/-- Stages that hand on what lies in the area stay in it one behind the other. -/
theorem confined_bind (hx : Confined A x) (hf : ∀ a, LiesIn A a → Confined A (f a)) :
    Confined A (x >>= f) := points_bind hx hf

/-- A stage may be handed what another one answers, if that lies in the area. -/
theorem Confined.bind_pointsInto {g : α → Stage σ γ} (hx : Confined A x)
    (hg : ∀ a, LiesIn A a → PointsInto A (g a)) : PointsInto A (x >>= g) := points_bind hx hg

/-- Where the first answer holds no places, nothing is asked of it. -/
theorem PointsInto.bind_confined {y : Stage σ γ} {g : γ → Stage σ α} (hy : PointsInto A y)
    (hg : ∀ c, Confined A (g c)) : Confined A (y >>= g) := points_bind hy fun c _ => hg c

/-- Of an answer without places nothing has to be known. -/
theorem PointsInto.confined (h : ∀ a : α, LiesIn A a) (hx : PointsInto A x) : Confined A x :=
  hx.mono fun a _ => h a

theorem confined_report {t : Token} {cause : Cause} (h : LiesIn A t) :
    Confined A (liftM (report t cause) : Stage σ Unit) := pointsInto_report h

end

end Stage

end TickScript
