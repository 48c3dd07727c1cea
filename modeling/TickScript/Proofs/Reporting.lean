import TickScript.Diagnostic

/-!
# Reporting

The stages of a compilation carry a state and report into a log. A stage is faithful when the log
only listens: what the stage computes does not depend on what was reported before, a lenient log
collects the reports in order, and a strict one ends the stage at the first of them; above all, the
stage never breaks down. Faithful stages compose, so it is enough to look at their parts. Where a part
breaks down in some states, `Total` says from which ones it answers.

A run is clean when a strict log lets it through, that is, when nothing was reported. Clean runs are
taken apart at every bind, which is how everything about accepted sources is proved. A stage needs to
be no more than attentive for it: it may break down, but it reports nothing behind the back of the log.

`Answers` is the heart of this: it fixes what a stage computes and reports, for both kinds of log
and for any log so far. A stage in a unit may be run with different logs, by a strict compilation,
by a lenient one and by the editor, and the three are compared through it (`Proofs.Strictness`).
-/

namespace TickScript

/-- A stage of a compilation with a state of its own. -/
abbrev Stage (σ : Type) := StateT σ Reporting

variable {σ α β : Type}

/-- In a state, a stage answers `r` and reports `new`, the last report first. -/
structure Stage.Answers (x : Stage σ α) (s : σ) (r : α × σ) (new : List Diagnostic) : Prop where
  lenient : ∀ entries, x s ⟨false, entries⟩ = .ok r ⟨false, new ++ entries⟩
  strict : ∀ entries, x s ⟨true, entries⟩ = match new.getLast? with
    | none => .ok r ⟨true, entries⟩
    | some first => .error .reported ⟨true, first :: entries⟩

/-- A stage does not break down, and the log only listens to it. -/
def Stage.Faithful (x : Stage σ α) : Prop := ∀ s, ∃ r new, x.Answers s r new

/-- From the states in which `P` holds a stage does not break down, and `Q` holds of its answer and of
the state behind it. -/
def Stage.Total (P : σ → Prop) (x : Stage σ α) (Q : α → σ → Prop) : Prop :=
  ∀ s, P s → ∃ a s' new, x.Answers s (a, s') new ∧ Q a s'

/-- A strict log that lets a stage through has heard nothing. -/
def Stage.Attentive (x : Stage σ α) : Prop :=
  ∀ s r log, x s ⟨true, []⟩ = .ok r log → log = ⟨true, []⟩

/-- A run in which nothing is reported. -/
def Stage.Clean (x : Stage σ α) (s : σ) (a : α) (s' : σ) : Prop :=
  x s ⟨true, []⟩ = .ok (a, s') ⟨true, []⟩

namespace Stage

/-- One stage after the other, over one log. -/
theorem run_bind (x : Stage σ α) (f : α → Stage σ β) (s : σ) (log : Log) :
    (x >>= f) s log = match x s log with
      | .ok (a, s) log => f a s log
      | .error e log => .error e log := by
  simp only [bind, StateT.bind, EStateM.bind]
  cases x s log <;> rfl

/-! ## Faithful stages -/

@[grind .] theorem faithful_pure (a : α) : Faithful (pure a : Stage σ α) :=
  fun s => ⟨(a, s), [], fun _ => rfl, fun _ => rfl⟩

@[grind .] theorem faithful_get : Faithful (get : Stage σ σ) :=
  fun s => ⟨(s, s), [], fun _ => rfl, fun _ => rfl⟩

@[grind .] theorem faithful_set (s' : σ) : Faithful (set s' : Stage σ PUnit) :=
  fun _ => ⟨(⟨⟩, s'), [], fun _ => rfl, fun _ => rfl⟩

@[grind .] theorem faithful_modify (f : σ → σ) : Faithful (modify f : Stage σ PUnit) :=
  fun s => ⟨(⟨⟩, f s), [], fun _ => rfl, fun _ => rfl⟩

@[grind .] theorem faithful_report (t : Token) (cause : Cause) :
    Faithful (liftM (report t cause) : Stage σ Unit) :=
  fun s => ⟨((), s), [Diagnostic.at_ t cause], fun _ => rfl, fun _ => rfl⟩

/-- What both stages report is added to the log. -/
theorem Answers.bind {x : Stage σ α} {f : α → Stage σ β} {s s' : σ} {a : α} {r : β × σ}
    {new more : List Diagnostic} (hx : x.Answers s (a, s') new) (hf : (f a).Answers s' r more) :
    (x >>= f).Answers s r (more ++ new) where
  lenient entries := by
    rw [run_bind, hx.lenient]
    simp only [hf.lenient, List.append_assoc]
  strict entries := by
    rw [run_bind, hx.strict, List.getLast?_append]
    cases new.getLast? with
    | none => simp only [hf.strict, Option.none_or]
    | some first => rfl

@[grind ←] theorem faithful_bind {x : Stage σ α} {f : α → Stage σ β} (hx : Faithful x)
    (hf : ∀ a, Faithful (f a)) : Faithful (x >>= f) := by
  intro s
  obtain ⟨⟨a, s'⟩, new, hx⟩ := hx s
  obtain ⟨r, more, hf⟩ := hf a s'
  exact ⟨r, more ++ new, hx.bind hf⟩

@[grind ←] theorem faithful_map {x : Stage σ α} (f : α → β) (hx : Faithful x) : Faithful (f <$> x) := by
  rw [map_eq_pure_bind]
  exact faithful_bind hx fun _ => faithful_pure _

/-! ## Stages that answer from some states -/

section

variable {P P' : σ → Prop} {Q Q' : α → σ → Prop} {R : β → σ → Prop} {x : Stage σ α}
  {f : α → Stage σ β}

/-- A stage that comes to its end from every state is faithful. -/
theorem Total.faithful (hx : Total (fun _ => True) x Q) : Faithful x := by
  intro s
  obtain ⟨a, s', new, hanswers, -⟩ := hx s trivial
  exact ⟨(a, s'), new, hanswers⟩

/-- More may be asked before and less after. -/
theorem Total.mono (hx : Total P x Q) (hP : ∀ s, P' s → P s) (hQ : ∀ a s, Q a s → Q' a s) :
    Total P' x Q' := by
  intro s hs
  obtain ⟨a, s', new, hanswers, hpost⟩ := hx s (hP s hs)
  exact ⟨a, s', new, hanswers, hQ a s' hpost⟩

theorem total_pure {a : α} (h : ∀ s, P s → Q a s) : Total P (pure a) Q :=
  fun s hs => ⟨a, s, [], ⟨fun _ => rfl, fun _ => rfl⟩, h s hs⟩

theorem total_get : Total P get fun s s' => P s' ∧ s = s' :=
  fun s hs => ⟨s, s, [], ⟨fun _ => rfl, fun _ => rfl⟩, hs, rfl⟩

/-- Behind a look at the state this state is known. -/
theorem total_get_bind {f : σ → Stage σ β} (hf : ∀ s, P s → Total (· = s) (f s) R) :
    Total P (get >>= f) R := by
  intro s hs
  obtain ⟨b, s', new, hanswers, hpost⟩ := hf s hs s rfl
  exact ⟨b, s', new, ⟨hanswers.lenient, hanswers.strict⟩, hpost⟩

theorem total_set {s' : σ} {Q : PUnit → σ → Prop} (h : Q ⟨⟩ s') : Total P (set s') Q :=
  fun _ _ => ⟨⟨⟩, s', [], ⟨fun _ => rfl, fun _ => rfl⟩, h⟩

theorem total_modify {g : σ → σ} {Q : PUnit → σ → Prop} (h : ∀ s, P s → Q ⟨⟩ (g s)) :
    Total P (modify g) Q :=
  fun s hs => ⟨⟨⟩, g s, [], ⟨fun _ => rfl, fun _ => rfl⟩, h s hs⟩

theorem total_report {t : Token} {cause : Cause} :
    Total P (liftM (report t cause) : Stage σ Unit) fun _ => P :=
  fun s hs => ⟨(), s, [Diagnostic.at_ t cause], ⟨fun _ => rfl, fun _ => rfl⟩, hs⟩

/-- A report that is made or not does not matter. -/
theorem total_reportIf {c : Prop} [Decidable c] {t : Token} {cause : Cause} (hx : Total P x Q) :
    Total P (if c then liftM (report t cause) >>= fun _ => x else x) Q := by
  intro s hs
  split
  · obtain ⟨a, s', new, hanswers, hpost⟩ := hx s hs
    have hreport : Answers (liftM (report t cause)) s ((), s) [Diagnostic.at_ t cause] :=
      ⟨fun _ => rfl, fun _ => rfl⟩
    exact ⟨a, s', _, hreport.bind hanswers, hpost⟩
  · exact hx s hs

/-- What is known without the state may be used about the stage. -/
theorem total_and {p : Prop} (hx : p → Total P x Q) : Total (fun s => p ∧ P s) x Q :=
  fun s hs => hx hs.1 s hs.2

/-- The second stage starts where the first one may end. -/
theorem total_bind (hx : Total P x Q) (hf : ∀ a, Total (Q a) (f a) R) : Total P (x >>= f) R := by
  intro s hs
  obtain ⟨a, s₁, new, hfirst, hmiddle⟩ := hx s hs
  obtain ⟨b, s₂, more, hsecond, hpost⟩ := hf a s₁ hmiddle
  exact ⟨b, s₂, more ++ new, hfirst.bind hsecond, hpost⟩

end

/-! ## Attentive stages -/

@[grind .] theorem attentive_pure (a : α) : Attentive (pure a : Stage σ α) := by
  intro s r log hrun
  cases hrun
  rfl

@[grind .] theorem attentive_get : Attentive (get : Stage σ σ) := by
  intro s r log hrun
  cases hrun
  rfl

@[grind .] theorem attentive_set (s' : σ) : Attentive (set s' : Stage σ PUnit) := by
  intro s r log hrun
  cases hrun
  rfl

@[grind .] theorem attentive_modify (g : σ → σ) : Attentive (modify g : Stage σ PUnit) := by
  intro s r log hrun
  cases hrun
  rfl

@[grind .] theorem attentive_report (t : Token) (cause : Cause) :
    Attentive (liftM (report t cause) : Stage σ Unit) := by
  intro s r log hrun
  cases hrun

@[grind .] theorem attentive_breakDown (breakdown : Breakdown) :
    Attentive (liftM (breakDown breakdown : Reporting α) : Stage σ α) := by
  intro s r log hrun
  cases hrun

@[grind ←] theorem attentive_bind {x : Stage σ α} {f : α → Stage σ β} (hx : Attentive x)
    (hf : ∀ a, Attentive (f a)) : Attentive (x >>= f) := by
  intro s r log hrun
  rw [run_bind] at hrun
  cases hfirst : x s ⟨true, []⟩ with
  | error e log' => simp [hfirst] at hrun
  | ok middle log' =>
      obtain rfl := hx s middle log' hfirst
      rw [hfirst] at hrun
      exact hf middle.1 middle.2 r log hrun

@[grind ←] theorem attentive_map {x : Stage σ α} (f : α → β) (hx : Attentive x) :
    Attentive (f <$> x) := by
  rw [map_eq_pure_bind]
  exact attentive_bind hx fun _ => attentive_pure _

/-! ## Clean runs -/

/-- A run that leaves an empty log is clean, whatever the log does with reports. -/
theorem Faithful.clean {x : Stage σ α} (hx : Faithful x) {s s' : σ} {a : α} {log log' : Log}
    (hrun : x s log = .ok (a, s') log') (hlog : log'.entries = []) :
    log.entries = [] ∧ x.Clean s a s' := by
  obtain ⟨r, new, hlenient, hstrict⟩ := hx s
  obtain ⟨strict, entries⟩ := log
  cases strict with
  | false =>
      rw [hlenient] at hrun
      obtain ⟨rfl, rfl⟩ : r = (a, s') ∧ _ = log' := by simpa using hrun
      obtain ⟨rfl, rfl⟩ : new = [] ∧ entries = [] := by simpa using hlog
      exact ⟨rfl, hstrict []⟩
  | true =>
      rw [hstrict] at hrun
      cases hfirst : new.getLast? with
      | some first => simp [hfirst] at hrun
      | none =>
          obtain ⟨rfl, rfl⟩ : r = (a, s') ∧ _ = log' := by simpa [hfirst] using hrun
          obtain rfl : entries = [] := hlog
          refine ⟨rfl, ?_⟩
          rw [Clean, hstrict, hfirst]

section

variable {x : Stage σ α} {f : α → Stage σ β} {s s' : σ} {a : α} {b : β}

/-- A clean run of two stages is one of the first and then one of the second. -/
theorem Clean.bind_inv (h : Clean (x >>= f) s b s') (hx : Attentive x) :
    ∃ a s₁, Clean x s a s₁ ∧ Clean (f a) s₁ b s' := by
  rw [Clean, run_bind] at h
  cases hrun : x s ⟨true, []⟩ with
  | error e log => simp [hrun] at h
  | ok r log =>
      obtain rfl := hx s r log hrun
      obtain ⟨a, s₁⟩ := r
      rw [hrun] at h
      exact ⟨a, s₁, hrun, h⟩

/-- Clean runs in a row make a clean run. -/
theorem Clean.bind {s₁ : σ} (hx : Clean x s a s₁) (hf : Clean (f a) s₁ b s') :
    Clean (x >>= f) s b s' := by
  rw [Clean, run_bind, hx]
  exact hf

/-- A clean run of two stages is a clean run of each. -/
theorem clean_bind (hx : Attentive x) :
    Clean (x >>= f) s b s' ↔ ∃ a s₁, Clean x s a s₁ ∧ Clean (f a) s₁ b s' := by
  constructor
  · intro h
    exact h.bind_inv hx
  · rintro ⟨a, s₁, hfirst, hsecond⟩
    exact hfirst.bind hsecond

@[simp] theorem clean_pure {a' : α} : Clean (pure a' : Stage σ α) s a s' ↔ a' = a ∧ s = s' := by
  constructor
  · intro h
    cases h
    exact ⟨rfl, rfl⟩
  · rintro ⟨rfl, rfl⟩
    rfl

@[simp] theorem clean_get_bind {f : σ → Stage σ β} : Clean (get >>= f) s b s' ↔ Clean (f s) s b s' :=
  Iff.rfl

@[simp] theorem clean_set_bind {s₁ : σ} {f : PUnit → Stage σ β} :
    Clean (set s₁ >>= f) s b s' ↔ Clean (f ⟨⟩) s₁ b s' :=
  Iff.rfl

@[simp] theorem clean_modify_bind {g : σ → σ} {f : PUnit → Stage σ β} :
    Clean (modify g >>= f) s b s' ↔ Clean (f ⟨⟩) (g s) b s' :=
  Iff.rfl

@[simp] theorem clean_modify {g : σ → σ} {u : PUnit} :
    Clean (modify g : Stage σ PUnit) s u s' ↔ g s = s' := by
  constructor
  · intro h
    cases h
    rfl
  · rintro rfl
    rfl

/-- Whatever reports is not clean. -/
@[simp] theorem not_clean_report {t : Token} {cause : Cause} {u : Unit} :
    ¬ Clean (liftM (report t cause) : Stage σ Unit) s u s' := by
  intro h
  cases h

@[simp] theorem not_clean_report_bind {t : Token} {cause : Cause} {f : Unit → Stage σ β} :
    ¬ Clean (liftM (report t cause) >>= f) s b s' := by
  intro h
  cases h

/-- A breakdown is no clean run either. -/
@[simp] theorem not_clean_breakDown {breakdown : Breakdown} :
    ¬ Clean (liftM (breakDown breakdown : Reporting α) : Stage σ α) s a s' := by
  intro h
  cases h

end

/-! ## What clean runs ensure -/

/-- Clean runs of a stage keep an invariant of the state and answer as the postcondition says. -/
def Ensures (I : σ → Prop) (x : Stage σ α) (Q : α → Prop) : Prop :=
  ∀ s r log, I s → x s ⟨true, []⟩ = .ok r log → log = ⟨true, []⟩ ∧ I r.2 ∧ Q r.1

variable {I : σ → Prop} {Q : α → Prop}

theorem ensures_pure {a : α} (h : Q a) : Ensures I (pure a) Q := by
  intro s r log hI hrun
  cases hrun
  exact ⟨rfl, hI, h⟩

/-- The invariant is handed from stage to stage, with what is known of the answer. -/
theorem ensures_bind {x : Stage σ α} {f : α → Stage σ β} {R : β → Prop} (hx : Ensures I x Q)
    (hf : ∀ a, Q a → Ensures I (f a) R) : Ensures I (x >>= f) R := by
  intro s r log hI hrun
  rw [run_bind] at hrun
  cases hfirst : x s ⟨true, []⟩ with
  | error e log => simp [hfirst] at hrun
  | ok first log' =>
      obtain ⟨rfl, hI', hQ⟩ := hx s first log' hI hfirst
      rw [hfirst] at hrun
      exact hf first.1 hQ first.2 r log hI' hrun

theorem ensures_get : Ensures I get I := by
  intro s r log hI hrun
  cases hrun
  exact ⟨rfl, hI, hI⟩

theorem ensures_modify {g : σ → σ} (h : ∀ s, I s → I (g s)) :
    Ensures I (modify g) fun _ => True := by
  intro s r log hI hrun
  cases hrun
  exact ⟨rfl, h s hI, trivial⟩

theorem ensures_set {s' : σ} (h : I s') : Ensures I (set s') fun _ => True := by
  intro s r log _ hrun
  cases hrun
  exact ⟨rfl, h, trivial⟩

theorem ensures_report {t : Token} {cause : Cause} {R : Unit → Prop} :
    Ensures I (liftM (report t cause)) R := by
  intro s r log _ hrun
  cases hrun

/-- Nothing has to be shown behind a report. -/
theorem ensures_report_bind {t : Token} {cause : Cause} {f : Unit → Stage σ β} {R : β → Prop} :
    Ensures I (liftM (report t cause) >>= f) R :=
  ensures_bind (Q := fun _ => False) ensures_report fun _ h => h.elim

/-- Less may be said of the answer. -/
theorem Ensures.mono {x : Stage σ α} {R : α → Prop} (hx : Ensures I x Q) (h : ∀ a, Q a → R a) :
    Ensures I x R := fun s r log hI hrun =>
  let ⟨hlog, hI', hQ⟩ := hx s r log hI hrun
  ⟨hlog, hI', h r.1 hQ⟩

/-- A clean run is one of the runs. -/
theorem Ensures.of_clean {x : Stage σ α} (hx : Ensures I x Q) {s s' : σ} {a : α} (hI : I s)
    (h : Clean x s a s') : I s' ∧ Q a :=
  (hx s (a, s') ⟨true, []⟩ hI h).2

end Stage

end TickScript
