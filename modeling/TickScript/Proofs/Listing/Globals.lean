import TickScript.Proofs.InitialValue
import TickScript.Proofs.Listing.Literals
import TickScript.Proofs.Listing.RoundTrip

/-!
# Fields and variables in listings

A field or variable is listed with its initial value, and what is read back for it is a value of the
same type. Integers, objects and truth values come back as they are. A string is written up to its
first NUL, so what stands behind that is lost. A float is written with the digits that tell it from
the other floats of 32 bits, but it is read in the 64-bit format first and then stored in 32 bits: the
number is rounded twice, and two roundings can end beside the number that was written.

Only what the printer writes is read back here, not every line that the assembler would accept. A
value is printed by its type, so the cases are those of the types that can be stored; for each one
the text that is printed is shown to lex as one argument, and the argument to assemble to the value.
-/

namespace TickScript

open Text Number

/-- What a listing keeps of an initial value. -/
def Value.reread (v : Value) : Value :=
  match v.type with
  | .string => .ofText v.stringText
  | .float => .ofReal (parseLenient .double (Listing.showValue v))
  | _ => v

/-- What a listing keeps of a section. -/
def Section.reread (s : Section) : Section :=
  if s.kind = .function then s
  else match Value.ofPayload s.data with
    | .ok v => { s with data := v.reread.toPayload }
    | .error _ => s

namespace Listing

/-! ## Integers and objects -/

/-- Integers are printed as numerals, the null object by its word. -/
theorem showValue_of_type {v : Value} (h : v.type ∈ [VarType.object, .int, .uint]) : showValue v
    = if v.type = .object ∧ v.toInt = Name.nullObject.toInt then ("null" : Text) else ofInt v.toInt := by
  simp only [List.mem_cons, List.not_mem_nil, or_false] at h
  rcases h with h | h | h
  · simp [showValue, h, VarType.object]
  · simp [showValue, Value.toText, h, VarType.int, VarType.object]
  · simp [showValue, h, VarType.uint, VarType.object]

section

variable {type : VarType} (htype : type ∈ [VarType.object, .int, .uint])

include htype

/-- A number is made of what is kept of it. -/
theorem valueOf_keeps_eq (n : Int) : type.valueOf (type.keeps n) = type.valueOf n := by
  simp only [List.mem_cons, List.not_mem_nil, or_false] at htype
  rcases htype with rfl | rfl | rfl
  · exact Value.ofHandle_congr Int.bmod_emod
  · exact Value.ofInt_congr Int.bmod_emod
  · exact Value.ofUint_congr (Int.emod_emod n _)

/-- What is kept of a number has 64 bits. -/
theorem keeps_bounds (n : Int) : -2 ^ 63 ≤ type.keeps n ∧ type.keeps n < 2 ^ 63 := by
  simp only [List.mem_cons, List.not_mem_nil, or_false] at htype
  rcases htype with rfl | rfl | rfl
  · show -2 ^ 63 ≤ n.bmod 0x10000000000000000 ∧ n.bmod 0x10000000000000000 < 2 ^ 63
    rw [Int.bmod_def]
    omega
  · show -2 ^ 63 ≤ n.bmod 0x100000000 ∧ n.bmod 0x100000000 < 2 ^ 63
    rw [Int.bmod_def]
    omega
  · show -2 ^ 63 ≤ n % 0x100000000 ∧ n % 0x100000000 < 2 ^ 63
    omega

/-- The decimal number of an integer or object is read as the value. -/
theorem initialValue_ofInt (n : Int) :
    initialValue type (.int (ofInt (type.valueOf n).toInt)) = .ok (type.valueOf n) := by
  obtain ⟨-, -, hkeeps⟩ := valueOf_keeps htype n
  obtain ⟨hlow, hhigh⟩ := keeps_bounds htype n
  have hword : (Int64.ofInt (type.keeps n)).toInt = type.keeps n :=
    Int64.toInt_ofInt_of_le hlow hhigh
  have hread := readWord_ofInt (Int64.ofInt (type.keeps n))
  rw [hword] at hread
  rw [hkeeps, initialValue_int htype hread, toNat_word, valueOf_emod, valueOf_keeps_eq htype]

/-- A printed integer is one argument, and reads as the integer in the type of the variable. -/
theorem exists_argument_valueOf (n : Int) : ∃ a : Argument, a.text = showValue (type.valueOf n)
    ∧ a.Lexical ∧ initialValue type a = .ok (type.valueOf n) := by
  have htypeOf : (type.valueOf n).type = type := (valueOf_keeps htype n).2.1
  rw [showValue_of_type (htypeOf.symm ▸ htype), htypeOf]
  split
  · next hnull =>
      obtain ⟨rfl, hnull⟩ := hnull
      refine ⟨.ident "null", rfl, isLexeme_name rfl, ?_⟩
      rw [← valueOf_keeps_eq htype n, ← (valueOf_keeps htype n).2.2, hnull]
      rfl
  · exact ⟨.int (ofInt (type.valueOf n).toInt), rfl, isLexeme_ofInt _, initialValue_ofInt htype n⟩

end

/-! ## Floats -/

/-- A finite float is written as a decimal text with a point or an exponent. -/
theorem exists_decimalText {x : Number.Real} (h : x.StaysFinite .single) :
    ∃ (negative : Bool) (d : DecimalText), d.Proper ∧ d.isWhole = false ∧ d.reach ≤ 200
      ∧ showValue (.ofReal x) = withSign negative d.text := by
  obtain ⟨s, m, e, hfinite⟩ := Value.finite_ofReal h
  obtain ⟨negative, d, hd, hreach, hrender⟩ := exists_render hfinite
  refine ⟨negative, d.pointed, hd.pointed, d.isWhole_pointed, by rwa [DecimalText.reach_pointed], ?_⟩
  have hshow : showValue (.ofReal x) = if ((withSign negative d.text).any fun b =>
      b == 0x2E || b == 0x65 || b == 0x45 || b == 0x6E) then withSign negative d.text
      else withSign negative d.text ++ ".0" := by
    rw [← hrender]
    rfl
  rw [hshow, hd.any_mark, DecimalText.text_pointed]
  cases d.isWhole <;> cases negative <;> rfl

/-- A printed float is one argument, and reads as the value after one more rounding. -/
theorem exists_argument_ofReal {x : Number.Real} (h : x.StaysFinite .single) :
    ∃ a : Argument, a.text = showValue (.ofReal x) ∧ a.Lexical
      ∧ initialValue .float a = .ok (Value.ofReal x).reread := by
  obtain ⟨negative, d, hd, hwhole, hreach, hshow⟩ := exists_decimalText h
  obtain ⟨m, e, hparse⟩ := hd.parse_double hreach negative
  refine ⟨.float (showValue (.ofReal x)), rfl, ?_, ?_⟩
  · rw [hshow]
    exact isLexeme_float hd hwhole negative
  · have hreread : (Value.ofReal x).reread
        = .ofReal (parseLenient .double (showValue (.ofReal x))) := rfl
    rw [hreread, hshow, parseLenient]
    simp only [initialValue, hparse]
    rfl

/-! ## Sections -/

/-- The initial value of a variable is one argument, and it is read as what the listing keeps. -/
theorem exists_argument {v : Value} (h : v.Starts) : ∃ a : Argument, a.text = showValue v ∧ a.Lexical
    ∧ initialValue v.type a = .ok v.reread := by
  cases h with
  | @number type htype n =>
      obtain ⟨a, htext, hlexical, hread⟩ := exists_argument_valueOf htype n
      have htypeOf : (type.valueOf n).type = type := (valueOf_keeps htype n).2.1
      have hreread : (type.valueOf n).reread = type.valueOf n := by
        simp only [List.mem_cons, List.not_mem_nil, or_false] at htype
        rcases htype with rfl | rfl | rfl <;> rfl
      exact ⟨a, htext, hlexical, by rw [htypeOf, hreread, hread]⟩
  | text t =>
      refine ⟨.string (quote (Value.ofText t).stringText), rfl, isLexeme_quote _, ?_⟩
      show initialValue .string _ = .ok (.ofText (Value.ofText t).stringText)
      simp only [initialValue, unquote_quote]
      rfl
  | float hx => exact exists_argument_ofReal hx
  | truth b => cases b <;> exact ⟨.ident _, rfl, isLexeme_name rfl, rfl⟩

theorem isName_typeName_of_isKnown {t : VarType} (h : t.isKnown = true) : isName t.name = true := by
  obtain ⟨k, hk, rfl⟩ := exists_of_isKnown h
  exact isName_typeName k hk

/-- The section of a variable is read back with the value that the listing keeps. -/
theorem reread_variable {kind : SectionKind} (hkind : kind ≠ .function) (id : Id) {v : Value}
    (hv : v.WellFormed) :
    Section.reread ⟨kind, id, v.toPayload⟩ = ⟨kind, id, v.reread.toPayload⟩ := by
  rw [Section.reread, if_neg hkind, Gen.ofPayload_toPayload hv]

/-- A variable is listed, and the section that is read back has the same kind and id. -/
theorem lists_variable (names : Names) {s : Section} (hkind : s.kind = .field ∨ s.kind = .var)
    (hid : 0 ≤ s.id.toInt) {v : Value} (hv : v.Starts) (hdata : s.data = v.toPayload) :
    ∃ w, Lists names s w s.reread := by
  obtain ⟨kind, id, data⟩ := s
  obtain rfl : data = v.toPayload := hdata
  obtain ⟨a, htext, hlexical, hread⟩ := exists_argument hv
  obtain ⟨hidKind, hidName⟩ := isLexeme_showId names id
  have hpayload := Gen.ofPayload_toPayload hv.wellFormed
  have hknown := hv.wellFormed.known
  have hother : kind ≠ .function := by rcases hkind with rfl | rfl <;> decide
  refine ⟨.global ⟨kind = .field, idKind names id, showId names id, v.type.name, a⟩, ?_, ?_, ?_⟩
  · have hshow : showSection names ⟨kind, id, v.toPayload⟩
        = .ok ((if kind = .field then (".field " : Text) else ".var ") ++ showId names id ++ " "
          ++ v.type.name ++ " " ++ showValue v ++ "\n") := by
      rcases hkind with rfl | rfl <;> simp only [showSection, hpayload] <;> rfl
    rw [hshow, ← htext]
    rcases hkind with rfl | rfl <;>
      simp only [WrittenItem.text, WrittenGlobal.text, List.append_assoc] <;> rfl
  · exact ⟨hidKind, hidName, isLexeme_name (isName_typeName_of_isKnown hknown), hlexical⟩
  · intro item hitem
    cases item with
    | function => cases hitem
    | global place isField name type value? =>
        obtain ⟨rfl, rfl, rfl, rfl⟩ := hitem
        simp only [itemSection, VarType.ofName_name hknown, hv.not_invalid, hread]
        rw [reread_variable hother id hv.wellFormed]
        rcases hkind with rfl | rfl <;>
          exact Reads.bind (.pure v.reread) ((reads_sectionId names hid).bind (.pure _))

end Listing

end TickScript
