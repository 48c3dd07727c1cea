import TickScript.Machine.Program
import TickScript.Proofs.Value

/-!
# What loading leaves

Scripts are loaded one after another into a program, each up to the first section that does not load.
`Program.Built scripts p` are the programs that come about in this way. The variables of such a
program are those of the sections that did load, in their order and with the types that the sections
declare (`Program.Built.declared`); all of these types are known and no two variables share an id.

A section that does not load ends the loading of its script, and what was loaded before it stays.
That is why `Built` keeps a list of scripts and not of sections, and why the theorem about globals
mentions those sections that did load. Functions are treated in the same way at the end: a program
carries the functions of each script that loaded to its end.
-/

namespace TickScript

/-- The variable that a section declares: the first byte of its data is the type. -/
def Section.declared? (s : Section) : Option (Id × VarType) :=
  if s.kind = .field ∨ s.kind = .var then s.data.head?.map fun tag => (s.id, ⟨tag⟩) else none

/-- The tag of a payload is the type of the value in it. -/
theorem Value.head?_of_ofPayload {data : Text} {v : Value} (h : Value.ofPayload data = .ok v) :
    data.head? = some v.type.tag ∧ v.type.isKnown = true := by
  unfold ofPayload at h
  split at h
  · cases h
  · next tag body =>
      by_cases hknown : VarType.isKnown ⟨tag⟩ = true
      · have hv : v = ⟨⟨tag⟩, body⟩ := by
          simp only [hknown, Bool.not_true, Bool.false_eq_true, if_false] at h
          split at h
          · split at h
            · exact (Except.ok.inj h).symm
            · cases h
          · exact (Except.ok.inj h).symm
        rw [hv]
        exact ⟨rfl, hknown⟩
      · simp [hknown] at h

namespace Program

/-- Programs as loading makes them, with the scripts in the order in which they were loaded. -/
inductive Built : List Script → Program → Prop
  /-- Nothing is loaded. -/
  | empty : Built [] {}
  /-- One more script is loaded. -/
  | load {scripts : List Script} {p : Program} (script : Script) : Built scripts p →
      Built (scripts ++ [script]) (p.load script).1
  /-- Names are added for the listings. -/
  | addNames {scripts : List Script} {p : Program} (names : Names) : Built scripts p →
      Built scripts (p.addNames names)

/-- The variables of a program are those that some sections declare. -/
structure Declared (p : Program) (sections : List Section) : Prop where
  /-- The variables have the types that the sections declare. -/
  types : p.globals.types = sections.filterMap Section.declared?
  /-- Each value is of a known type. -/
  known : p.globals.Known
  /-- No id is declared twice. -/
  distinct : p.globals.keys.Nodup

/-- A section that loads is new and adds the variable that it declares. -/
theorem Declared.addSection {p p' : Program} {sections : List Section} {s : Section}
    (h : p.Declared sections) (hadd : p.addSection s = .ok p') : p'.Declared (sections ++ [s]) := by
  unfold Program.addSection at hadd
  split at hadd
  · cases hadd
  · next hfresh =>
      split at hadd
      · next hfunction =>
          have hother : s.declared? = none := by
            rw [Section.declared?, hfunction, if_neg (by decide)]
          split at hadd
          · cases hadd
          · obtain rfl := Except.ok.inj hadd
            refine ⟨?_, h.known, h.distinct⟩
            simp [hother, h.types]
      · split at hadd
        · next hkind =>
            split at hadd
            · cases hadd
            · next v hv =>
                obtain rfl := Except.ok.inj hadd
                obtain ⟨hhead, hknown⟩ := Value.head?_of_ofPayload hv
                have hdeclared : s.declared? = some (s.id, v.type) := by
                  rw [Section.declared?, if_pos (by simpa using hkind), hhead]
                  rfl
                have hnone : p.globals.get? s.id = none := by
                  simp only [Bool.or_eq_true, not_or, Bool.not_eq_true] at hfresh
                  exact (Table.has_eq_false_iff _ _).1 hfresh.2
                have hset := Table.set_of_get?_eq_none hnone v
                refine ⟨?_, h.known.set hknown, ?_⟩
                · simp [Table.types, hset, hdeclared, ← h.types]
                · have hkeys : Table.keys (p.globals.set s.id v) = p.globals.keys ++ [s.id] := by
                    simp [Table.keys, hset]
                  rw [hkeys]
                  refine List.nodup_append.2 ⟨h.distinct, by simp, ?_⟩
                  rintro id hid _ hsame rfl
                  obtain rfl := List.mem_singleton.1 hsame
                  exact Table.not_mem_keys_of_get? hnone hid
        · cases hadd

/-- Sections are added up to the first that is refused. -/
theorem Declared.addSections {p : Program} {sections : List Section} (h : p.Declared sections)
    (more : List Section) :
    ∃ taken, taken <+: more ∧ (p.addSections more).1.Declared (sections ++ taken) := by
  induction more generalizing p sections with
  | nil => exact ⟨[], List.prefix_refl _, by simpa [Program.addSections] using h⟩
  | cons s rest ih =>
      unfold Program.addSections
      split
      · exact ⟨[], List.nil_prefix, by simpa using h⟩
      · next p' hadd =>
          obtain ⟨taken, hprefix, hdeclared⟩ := ih (h.addSection hadd)
          exact ⟨s :: taken, by simpa using hprefix, by simpa using hdeclared⟩

/-- The globals of a program are those of the sections that were taken. -/
theorem Built.declared {scripts : List Script} {p : Program} (h : Built scripts p) :
    ∃ taken, taken.Sublist (scripts.flatMap (·.sections)) ∧ p.Declared taken := by
  induction h with
  | empty => exact ⟨[], List.nil_sublist _, ⟨rfl, nofun, List.nodup_nil⟩⟩
  | addNames names _ ih =>
      obtain ⟨taken, hsublist, hdeclared⟩ := ih
      exact ⟨taken, hsublist, ⟨hdeclared.types, hdeclared.known, hdeclared.distinct⟩⟩
  | @load scripts p script _ ih =>
      obtain ⟨taken, hsublist, hdeclared⟩ := ih
      have hnamed : (p.setNames (((script.library?.map (·.exports)).getD []).map
          fun e => (e.id, e.name))).Declared taken :=
        ⟨hdeclared.types, hdeclared.known, hdeclared.distinct⟩
      obtain ⟨more, hprefix, hloaded⟩ := hnamed.addSections script.sections
      refine ⟨taken ++ more, ?_, hloaded⟩
      simpa using hsublist.append hprefix.sublist

theorem known_load (script : Script) : (({} : Program).load script).1.globals.Known := by
  obtain ⟨taken, -, hdeclared⟩ := (Built.empty.load script).declared
  exact hdeclared.known

/-! ## Functions -/

/-- The functions of a script are among those of a program. -/
def Carries (p : Program) (script : Script) : Prop :=
  ∀ s ∈ script.sections, s.kind = .function →
    ∃ f, FunctionBody.ofPayload s.data = .ok f ∧ p.functions.get? s.id = some f

/-- A section that loads is new, so the functions that are there stay. -/
theorem addSection_functions {p p' : Program} {s : Section} (h : p.addSection s = .ok p') :
    (∀ id f, p.functions.get? id = some f → p'.functions.get? id = some f)
      ∧ (s.kind = .function →
        ∃ f, FunctionBody.ofPayload s.data = .ok f ∧ p'.functions.get? s.id = some f) := by
  unfold addSection at h
  split at h
  · cases h
  · next hfresh =>
      simp only [Bool.or_eq_true, not_or, Bool.not_eq_true] at hfresh
      split at h
      · split at h
        · cases h
        · next f hf =>
            obtain rfl := Except.ok.inj h
            refine ⟨fun id g hget => ?_, fun _ => ⟨f, hf, Table.get?_set_self ..⟩⟩
            have hother : id ≠ s.id := by
              rintro rfl
              rw [(Table.has_eq_false_iff _ _).1 hfresh.1] at hget
              cases hget
            rw [Table.get?_set_of_ne _ _ hother]
            exact hget
      · next hkind =>
          split at h
          · split at h
            · cases h
            · obtain rfl := Except.ok.inj h
              exact ⟨fun _ _ hget => hget, fun hfunction => absurd hfunction hkind⟩
          · cases h

/-- A function that is there is not replaced. -/
theorem addSections_functions (sections : List Section) (p : Program) {id : Id} {f : FunctionBody}
    (h : p.functions.get? id = some f) : (p.addSections sections).1.functions.get? id = some f := by
  induction sections generalizing p with
  | nil => exact h
  | cons s rest ih =>
      unfold addSections
      split
      · exact h
      · next p' hadd => exact ih p' ((addSection_functions hadd).1 id f h)

/-- A script whose sections all load brings its functions with it. -/
theorem addSections_carries {sections : List Section} {p p' : Program}
    (h : p.addSections sections = (p', none)) : ∀ s ∈ sections, s.kind = .function →
      ∃ f, FunctionBody.ofPayload s.data = .ok f ∧ p'.functions.get? s.id = some f := by
  induction sections generalizing p with
  | nil => nofun
  | cons first rest ih =>
      unfold addSections at h
      split at h
      · cases h
      · next next hadd =>
          intro s hs hkind
          rcases List.mem_cons.1 hs with rfl | hs
          · obtain ⟨f, hf, hget⟩ := (addSection_functions hadd).2 hkind
            have hkept := addSections_functions rest next hget
            rw [h] at hkept
            exact ⟨f, hf, hkept⟩
          · exact ih h s hs hkind

/-- After a clean load the program has every section of the script. -/
theorem carries_load {p p' : Program} {script : Script} (h : p.load script = (p', none)) :
    p'.Carries script := addSections_carries h

/-- Functions stay when further scripts are loaded, whether these load or not. -/
theorem Carries.load {p : Program} {script : Script} (h : p.Carries script) (more : Script) :
    (p.load more).1.Carries script := by
  intro s hs hkind
  obtain ⟨f, hf, hget⟩ := h s hs hkind
  exact ⟨f, hf, addSections_functions _ _ hget⟩

theorem Carries.addNames {p : Program} {script : Script} (h : p.Carries script) (names : Names) :
    (p.addNames names).Carries script := h

end Program

end TickScript
