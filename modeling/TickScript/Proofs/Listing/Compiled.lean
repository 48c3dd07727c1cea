import TickScript.Proofs.Listing.Globals

/-!
# Listings of compiled units

Every unit that compiles has a listing, whatever names are known, and the listing can be assembled:
what comes back has the sections of the unit in their order, with their kinds and ids and with the
same code, parameter counts and return types. Initial values come back up to what a listing loses of
them, so the unit itself comes back exactly if no string holds a NUL and no float is moved by being
rounded to 64 bits on its way to 32.

The first half, that there is a listing and that it can be assembled, comes from what is known of
generated code: it decodes, and its ids have names. The second half is about initial values alone.
`Survives` states the loss without mentioning listings, and `reread_eq_self_iff` goes through the
kinds of values that a variable can start with.
-/

namespace TickScript

open Text

/-- Where names are written, generated code holds words that have one. -/
theorem Instr.Regular.named {i : Instr} (h : i.Regular) : i.Named := by
  have hnames : ∀ op ∈ Opcode.all, ∀ entry ∈ op.operands.zipIdx, ∀ last ∈ entry.1.lastName?,
      (op = .allocate ∧ entry.2 = 1 ∧ last = 6) ∨ (op = .compare ∧ entry.2 = 0 ∧ last = 5)
        ∨ (op = .combine ∧ entry.2 = 0 ∧ last = 1) := by
    decide
  intro pair hpair last hlast
  obtain ⟨k, hk⟩ := List.mem_iff_getElem?.1 hpair
  obtain ⟨hoperand, hword⟩ := List.getElem?_zip_eq_some.1 hk
  have hentry : (pair.1, k) ∈ i.op.operands.zipIdx := List.mk_mem_zipIdx_iff_getElem?.2 hoperand
  rcases hnames i.op (Opcode.mem_all i.op) _ hentry last hlast with
    ⟨hop, rfl, rfl⟩ | ⟨hop, rfl, rfl⟩ | ⟨hop, rfl, rfl⟩
  · obtain ⟨word, hfound, -, hle⟩ := h.type hop
    obtain rfl := Option.some.inj (hword.symm.trans hfound)
    exact hle
  · obtain ⟨word, hfound, -, hle⟩ := h.method hop
    obtain rfl := Option.some.inj (hword.symm.trans hfound)
    exact hle
  · obtain ⟨word, hfound, -, hle⟩ := h.connective hop
    obtain rfl := Option.some.inj (hword.symm.trans hfound)
    exact hle

/-- The code of a compiled function is code that a listing can write. -/
theorem compile_decodes {store : FileStore} {options : CompileOptions}
    {sources : List Macros.Source} {history : List Text} {script : Script}
    (h : (compile store options sources history).script? = some script) {s : Section}
    (hs : s ∈ script.sections) (hkind : s.kind = .function) (hlong : s.data.length < 2 ^ 63) :
    ∃ f placed, s.Decodes f placed := by
  obtain ⟨u, -, hunit⟩ := compile_generated h
  obtain ⟨f, body, code, hmem, -, hcode, rfl⟩ := hunit.sections.function hs hkind
  have hreturns := Gen.returns_functionCode hcode hunit.nonnegative (hunit.proper _ hmem).returnType
  have hbytes : (Instr.encodeAll code).length < 2 ^ 63 := by
    simp only [FunctionBody.toPayload, Gen.storedFunction, List.length_cons] at hlong
    omega
  have hencodable := hreturns.encodable hbytes
  have hid : 0 ≤ f.id.toInt := Name.id_nonneg f.name
  have hsize : Instr.sizeAll code < 2 ^ 63 := by rwa [← Instr.length_encodeAll hencodable]
  refine FunctionBody.decodes ?_ hsize hid _ (hunit.proper _ hmem).returnType
  intro i hi
  exact ⟨hencodable i hi, (hreturns.lawful i hi).named⟩

/-- A payload holds type and data, so values with one payload are one value. -/
theorem Value.toPayload_injective {v w : Value} (h : v.toPayload = w.toPayload) : v = w := by
  obtain ⟨⟨tag⟩, data⟩ := v
  obtain ⟨⟨tag'⟩, data'⟩ := w
  obtain ⟨rfl, rfl⟩ := List.cons.inj h
  rfl

namespace Listing

/-- A listing keeps everything of an initial value: a string has no NUL but its last byte, and the
digits of a float lead back to the float. -/
def Survives (v : Value) : Prop :=
  (v.type = .string → 0 ∉ v.data.dropLast)
    ∧ (v.type = .float → Value.ofReal (Number.parseLenient .double (showValue v)) = v)

/-- A text comes back from its string value unless it has a NUL in it. -/
theorem stringText_ofText_iff (t : Text) : (Value.ofText t).stringText = t ↔ 0 ∉ t := by
  show (t ++ [0]).takeWhile (· != 0) = t ↔ 0 ∉ t
  induction t with
  | nil => simp
  | cons b t ih =>
      rw [List.cons_append, List.takeWhile_cons, List.mem_cons, not_or]
      by_cases hb : b = 0
      · simp [hb]
      · have hother : (b != 0) = true := by simpa using hb
        rw [if_pos hother, List.cons.injEq, ih]
        exact ⟨fun h => ⟨fun heq => hb heq.symm, h.2⟩, fun h => ⟨rfl, h.2⟩⟩

/-- Among the values that a variable can start with, those with a NUL in the text and floats that
round twice are lost. -/
theorem reread_eq_self_iff {v : Value} (h : v.Starts) : v.reread = v ↔ Survives v := by
  have hwhole {v : Value} (hreread : v.reread = v) (hstring : v.type ≠ .string)
      (hfloat : v.type ≠ .float) : v.reread = v ↔ Survives v :=
    iff_of_true hreread ⟨fun h => absurd h hstring, fun h => absurd h hfloat⟩
  cases h with
  | number htype n =>
      simp only [List.mem_cons, List.not_mem_nil, or_false] at htype
      rcases htype with rfl | rfl | rfl
      · exact hwhole (v := VarType.object.valueOf n) rfl (show VarType.object ≠ _ by decide)
          (show VarType.object ≠ _ by decide)
      · exact hwhole (v := VarType.int.valueOf n) rfl (show VarType.int ≠ _ by decide)
          (show VarType.int ≠ _ by decide)
      · exact hwhole (v := VarType.uint.valueOf n) rfl (show VarType.uint ≠ _ by decide)
          (show VarType.uint ≠ _ by decide)
  | truth b => exact hwhole rfl (show VarType.bool ≠ _ by decide) (show VarType.bool ≠ _ by decide)
  | text t =>
      have hdata : (Value.ofText t).data.dropLast = t := List.dropLast_concat
      have hreread : (Value.ofText t).reread = .ofText (Value.ofText t).stringText := rfl
      rw [hreread, Survives, hdata, ← stringText_ofText_iff]
      constructor
      · intro heq
        refine ⟨fun _ => List.append_cancel_right (Value.mk.inj heq).2, ?_⟩
        exact fun hfloat => absurd hfloat (show VarType.string ≠ .float by decide)
      · intro hkept
        rw [hkept.1 rfl]
  | float =>
      constructor
      · intro heq
        exact ⟨fun hstring => absurd hstring (show VarType.float ≠ .string by decide), fun _ => heq⟩
      · intro hkept
        exact hkept.2 rfl

/-- A section comes back exactly if its value does. -/
theorem reread_variable_eq_iff {kind : SectionKind} (hkind : kind ≠ .function) (id : Id) {v : Value}
    (hv : v.Starts) : Section.reread ⟨kind, id, v.toPayload⟩ = ⟨kind, id, v.toPayload⟩ ↔ Survives v := by
  rw [reread_variable hkind id hv.wellFormed, ← reread_eq_self_iff hv]
  constructor
  · intro heq
    exact Value.toPayload_injective (Section.mk.inj heq).2.2
  · intro hsame
    rw [hsame]

/-- Every unit that compiles has a listing that can be assembled. The sections come back in their order,
with their kinds, their ids and all of their code, and with what a listing keeps of initial values;
everything comes back exactly if every initial value survives. -/
theorem assemble_print_compiled {store : FileStore} {options : CompileOptions}
    {sources : List Macros.Source} {history : List Text} {script : Script}
    (h : (compile store options sources history).script? = some script)
    (hlong : ∀ s ∈ script.sections, s.data.length < 2 ^ 63) (names : Names) :
    ∃ listing used, print names script = .ok listing
      ∧ assemble listing = .ok ({ sections := script.sections.map Section.reread }, used)
      ∧ (script.sections.map Section.reread = script.sections
        ↔ ∀ s ∈ script.sections, s.kind ≠ .function → ∀ v, Value.ofPayload s.data = .ok v → Survives v) := by
  have hlists : ∀ s ∈ script.sections, ∃ w, Lists names s w s.reread := by
    intro s hs
    by_cases hkind : s.kind = .function
    · obtain ⟨f, placed, hdecodes⟩ := compile_decodes h hs hkind (hlong s hs)
      have hsame : s.reread = s := if_pos hkind
      rw [hsame]
      exact ⟨_, lists_of_decodes names hdecodes⟩
    · obtain ⟨hvariable, hid, v, hv, hdata⟩ := compile_starts h hs hkind
      exact lists_variable names hvariable hid hv hdata
  obtain ⟨listing, used, hprint, hassemble⟩ := assemble_of_lists names Section.reread hlists
  refine ⟨listing, used, hprint, hassemble, ?_⟩
  have hmap : script.sections.map Section.reread = script.sections
      ↔ ∀ s ∈ script.sections, s.reread = s := by
    conv => lhs; rhs; rw [← List.map_id script.sections]
    exact List.map_inj_left
  rw [hmap]
  refine forall₂_congr fun s hs => ?_
  by_cases hkind : s.kind = .function
  · have hsame : s.reread = s := if_pos hkind
    simp [hsame, hkind]
  · obtain ⟨-, -, v, hv, hdata⟩ := compile_starts h hs hkind
    obtain ⟨kind, id, data⟩ := s
    obtain rfl : data = v.toPayload := hdata
    have hpayload := Gen.ofPayload_toPayload hv.wellFormed
    rw [reread_variable_eq_iff hkind id hv]
    constructor
    · intro hsurvives _ w hw
      obtain rfl : v = w := Except.ok.inj (hpayload.symm.trans hw)
      exact hsurvives
    · intro hsurvives
      exact hsurvives hkind v hpayload

/-- A unit with a string that holds a NUL and a float that rounding twice moves, between a function and
a variable that come back as they are. -/
def lossySource : Macros.Source :=
  ⟨"lossy", "field string s = \"a\\0b\"; field float x = 0.0000000000000000000000000703853069;\n"
    ++ "define f(int n) = int { return n; } int y = -5;"⟩

theorem lossySource_reread : ∃ script,
    (compile (.memory { cwd := "/" }) {} [lossySource]).script? = some script
      ∧ (script.sections.filter (·.kind ≠ .function)).map (·.data)
        = [[2, 97, 0, 98, 0], [3, 0xFD, 0x43, 0xAE, 0x15], [5, 0xFB, 0xFF, 0xFF, 0xFF]]
      ∧ ((script.sections.map Section.reread).filter (·.kind ≠ .function)).map (·.data)
        = [[2, 97, 0], [3, 0xFE, 0x43, 0xAE, 0x15], [5, 0xFB, 0xFF, 0xFF, 0xFF]]
      ∧ ∃ listing used, print [] script = .ok listing
        ∧ assemble listing = .ok ({ sections := script.sections.map Section.reread }, used)
        ∧ (script.sections.map Section.reread = script.sections
          ↔ ∀ s ∈ script.sections, s.kind ≠ .function → ∀ v, Value.ofPayload s.data = .ok v → Survives v) := by
  have hmap : (compile (.memory { cwd := "/" }) {} [lossySource]).script?.map
      (fun script => (script.sections.map (·.data.length),
        (script.sections.filter (·.kind ≠ .function)).map (·.data),
        ((script.sections.map Section.reread).filter (·.kind ≠ .function)).map (·.data)))
        = some ([5, 5, 48, 5],
          [[2, 97, 0, 98, 0], [3, 0xFD, 0x43, 0xAE, 0x15], [5, 0xFB, 0xFF, 0xFF, 0xFF]],
          [[2, 97, 0], [3, 0xFE, 0x43, 0xAE, 0x15], [5, 0xFB, 0xFF, 0xFF, 0xFF]]) := by
    decide +kernel
  obtain ⟨script, hscript, hsections⟩ := Option.map_eq_some_iff.mp hmap
  obtain ⟨hlengths, hbefore, hafter⟩ : script.sections.map (·.data.length) = [5, 5, 48, 5] ∧ _ ∧ _ := by
    simpa only [Prod.mk.injEq] using hsections
  have hlong : ∀ s ∈ script.sections, s.data.length < 2 ^ 63 := by
    intro s hs
    have hmem : s.data.length ∈ [5, 5, 48, 5] := hlengths ▸ List.mem_map_of_mem hs
    simp only [List.mem_cons, List.not_mem_nil, or_false] at hmem
    omega
  exact ⟨script, hscript, hbefore, hafter, assemble_print_compiled hscript hlong []⟩

end Listing

end TickScript
