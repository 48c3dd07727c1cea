import TickScript.Listing.Parser
import TickScript.Proofs.Listing.Lexer

/-!
# What the grammar makes of the lexemes of a listing

The parser carries the places of lexemes along and never looks at them, so what it reads is
determined by the lexemes without their places. From the lexemes of declarations come the
declarations, a function row by row: an operand ends where the next one starts, a line at its end,
and a function where the next directive stands or where the listing ends.

The readers of lines and of declarations count their calls down, and both are started with as much
as there are lexemes. Every row takes one of them at least, so the count does not run out
(`length_le_lexemes`); each reading lemma is stated with the fuel that is left for what follows.
-/

namespace TickScript.Listing

/-- A line without its place. -/
def Line.row : Line → Row
  | .label _ name => .label name
  | .instr written => .instr written.mnemonic (written.arguments.map (·.argument))

/-- A declaration is what is written. -/
def Item.Is : WrittenItem → Item → Prop
  | .function f, .function _ name params returns lines =>
    name = f.name ∧ params = f.params ∧ returns = f.returns ∧ lines.map Line.row = f.rows
  | .global g, .global _ isField name type value? =>
    isField = g.isField ∧ name = g.name ∧ type = g.type ∧ value? = some g.value
  | _, _ => False

variable {ls : List Lexeme}

/-- The first of some lexemes. -/
theorem exists_of_map_bare_cons {kind : LexemeKind} {text : Text} {out : List Bare}
    (h : ls.map Lexeme.bare = (kind, text) :: out) :
    ∃ place ls', ls = ⟨kind, text, place⟩ :: ls' ∧ ls'.map Lexeme.bare = out := by
  obtain ⟨l, ls', rfl, hl, hls'⟩ := List.map_eq_cons_iff.1 h
  obtain ⟨kind', text', place⟩ := l
  obtain ⟨rfl, rfl⟩ := Prod.mk.inj hl
  exact ⟨place, ls', rfl, hls'⟩

/-- The only one of some lexemes. -/
theorem exists_of_map_bare_singleton {kind : LexemeKind} {text : Text}
    (h : ls.map Lexeme.bare = [(kind, text)]) : ∃ place, ls = [⟨kind, text, place⟩] := by
  obtain ⟨place, ls', rfl, hls'⟩ := exists_of_map_bare_cons h
  obtain rfl := List.map_eq_nil_iff.1 hls'
  exact ⟨place, rfl⟩

variable (last : Place) (rest : List Lexeme)

/-! ## Operands -/

/-- Integers up to the bracket are the items. -/
theorem byteItems_append {items : List Text} (h : ls.map Lexeme.bare
      = items.map (LexemeKind.int, ·) ++ [(.bracket, [0x5D])]) :
    byteItems last (ls ++ rest) = .ok (items, rest) := by
  induction items generalizing ls with
  | nil =>
      obtain ⟨place, rfl⟩ := exists_of_map_bare_singleton h
      rfl
  | cons item items ih =>
      obtain ⟨place, ls', rfl, hls'⟩ := exists_of_map_bare_cons h
      rw [List.cons_append, byteItems, if_pos rfl, ih hls']
      rfl

/-- The lexemes of an argument are read as that argument. -/
theorem argument?_append {a : Argument} (h : ls.map Lexeme.bare = a.lexemes) :
    ∃ p, argument? last (ls ++ rest) = .ok (some (p, rest)) ∧ p.argument = a := by
  cases a with
  | bytes items =>
      obtain ⟨place, ls', rfl, hls'⟩ := exists_of_map_bare_cons h
      -- an integer or the closing bracket follows, so the bracket opens a byte list
      have hopens : opensBytes (ls' ++ rest) = true := by
        cases items with
        | nil =>
            obtain ⟨place', ls'', rfl, -⟩ := exists_of_map_bare_cons hls'
            rfl
        | cons item items =>
            obtain ⟨place', ls'', rfl, -⟩ := exists_of_map_bare_cons hls'
            rfl
      have hbracket : Lexeme.isBracket "[" ⟨.bracket, [0x5B], place⟩ = true := rfl
      refine ⟨⟨place, .bytes items⟩, ?_, rfl⟩
      rw [List.cons_append, argument?]
      simp only [hbracket, hopens, byteItems_append last rest hls', Bool.and_self, if_true, bind,
        Except.bind]
  | int text =>
      obtain ⟨place, rfl⟩ := exists_of_map_bare_singleton h
      exact ⟨⟨place, .int text⟩, rfl, rfl⟩
  | float text =>
      obtain ⟨place, rfl⟩ := exists_of_map_bare_singleton h
      exact ⟨⟨place, .float text⟩, rfl, rfl⟩
  | string text =>
      obtain ⟨place, rfl⟩ := exists_of_map_bare_singleton h
      exact ⟨⟨place, .string text⟩, rfl, rfl⟩
  | ident name =>
      obtain ⟨place, rfl⟩ := exists_of_map_bare_singleton h
      exact ⟨⟨place, .ident name⟩, rfl, rfl⟩

/-- The operands of a line, which ends at `stop`. -/
theorem arguments_append {args : List Argument} {fuel : Nat} (stop : Place)
    (h : ls.map Lexeme.bare = args.flatMap Argument.lexemes) (hfuel : args.length ≤ fuel) :
    ∃ ps, arguments last fuel (ls ++ ⟨.endOfLine, [0x0A], stop⟩ :: rest)
        = .ok (ps, ⟨.endOfLine, [0x0A], stop⟩ :: rest)
      ∧ ps.map (·.argument) = args := by
  induction args generalizing ls fuel with
  | nil =>
      obtain rfl := List.map_eq_nil_iff.1 h
      cases fuel <;> exact ⟨[], rfl, rfl⟩
  | cons a args ih =>
      rw [List.flatMap_cons] at h
      obtain ⟨first, more, rfl, hfirst, hmore⟩ := List.map_eq_append_iff.1 h
      rw [List.length_cons] at hfuel
      obtain ⟨fuel, rfl⟩ : ∃ n, fuel = n + 1 := ⟨fuel - 1, by omega⟩
      have hshort : args.length ≤ fuel := by omega
      obtain ⟨p, hp, hargument⟩ :=
        argument?_append last (more ++ ⟨.endOfLine, [0x0A], stop⟩ :: rest) hfirst
      obtain ⟨ps, hps, harguments⟩ := ih hmore hshort
      refine ⟨p :: ps, ?_, by rw [List.map_cons, hargument, harguments]⟩
      rw [List.append_assoc, arguments]
      simp only [hp, hps, bind, Except.bind]

/-- Each argument is one lexeme at least, so the lexemes are fuel enough. -/
theorem length_le_lexemes (args : List Argument) :
    args.length ≤ (args.flatMap Argument.lexemes).length := by
  induction args with
  | nil => exact Nat.le_refl _
  | cons a args ih =>
      have hpos : 1 ≤ a.lexemes.length := by cases a <;> simp [Argument.lexemes]
      rw [List.flatMap_cons, List.length_append, List.length_cons]
      omega

/-- A line ends at its break. -/
theorem lineEnd_cons (ps : List PlacedArgument) (stop : Place) :
    lineEnd last ps (⟨.endOfLine, [0x0A], stop⟩ :: rest) = .ok rest := by
  cases ps <;> rfl

/-! ## Lines -/

/-- The line of an instruction. -/
theorem lines_instr {mnemonic : Text} {args : List Argument} (fuel : Nat)
    (h : ls.map Lexeme.bare = (Row.instr mnemonic args).lexemes) :
    ∃ line, line.row = .instr mnemonic args ∧ lines last (fuel + 1) (ls ++ rest)
      = (lines last fuel rest).map fun r => (line :: r.1, r.2) := by
  obtain ⟨place, behind, rfl, hbehind⟩ := exists_of_map_bare_cons h
  obtain ⟨before, ending, rfl, hbefore, hending⟩ := List.map_eq_append_iff.1 hbehind
  obtain ⟨stop, rfl⟩ := exists_of_map_bare_singleton hending
  have hfuel : args.length
      ≤ (before ++ (⟨.endOfLine, [0x0A], stop⟩ : Lexeme) :: rest).length := by
    have hargs := length_le_lexemes args
    have hbare := congrArg List.length hbefore
    rw [List.length_map] at hbare
    rw [List.length_append]
    omega
  obtain ⟨ps, hps, harguments⟩ := arguments_append last rest stop hbefore hfuel
  refine ⟨.instr ⟨place, mnemonic, ps⟩, by rw [Line.row, harguments], ?_⟩
  rw [List.cons_append, List.append_assoc, List.singleton_append, lines]
  simp only [hps, lineEnd_cons, bind, Except.bind]
  cases lines last fuel rest <;> rfl

/-- The line of a label; its end counts as a line of its own. -/
theorem lines_label {name : Text} (fuel : Nat)
    (h : ls.map Lexeme.bare = (Row.label name).lexemes) :
    ∃ line, line.row = .label name ∧ lines last (fuel + 2) (ls ++ rest)
      = (lines last fuel rest).map fun r => (line :: r.1, r.2) := by
  obtain ⟨place, ending, rfl, hending⟩ := exists_of_map_bare_cons h
  obtain ⟨stop, rfl⟩ := exists_of_map_bare_singleton hending
  refine ⟨.label place name, rfl, ?_⟩
  have hname : (name ++ [0x3A]).dropLast = name := List.dropLast_concat
  simp only [List.cons_append, List.nil_append, lines, hname, bind, Except.bind]
  cases lines last fuel rest <;> rfl

/-- The rows of a function are read one by one; what follows them is read with the fuel that is
left. -/
theorem lines_append {rows : List Row} {fuel : Nat}
    (h : ls.map Lexeme.bare = rows.flatMap Row.lexemes) (hfuel : (ls ++ rest).length ≤ fuel) :
    ∃ ks left, ks.map Line.row = rows ∧ rest.length ≤ left
      ∧ lines last fuel (ls ++ rest) = (lines last left rest).map fun r => (ks ++ r.1, r.2) := by
  induction rows generalizing ls fuel with
  | nil =>
      obtain rfl := List.map_eq_nil_iff.1 h
      refine ⟨[], fuel, rfl, hfuel, ?_⟩
      rw [List.nil_append]
      cases lines last fuel rest <;> rfl
  | cons r rows ih =>
      rw [List.flatMap_cons] at h
      obtain ⟨first, more, rfl, hfirst, hmore⟩ := List.map_eq_append_iff.1 h
      rw [List.append_assoc, List.length_append] at hfuel
      have hlength := congrArg List.length hfirst
      rw [List.length_map] at hlength
      -- the first row is read with the fuel that it needs, and enough is left for the others
      obtain ⟨line, short, hrow, hshort, hline⟩ : ∃ line short, line.row = r
          ∧ (more ++ rest).length ≤ short ∧ lines last fuel (first ++ (more ++ rest))
            = (lines last short (more ++ rest)).map fun r => (line :: r.1, r.2) := by
        cases r with
        -- a label takes two rounds: itself and the end of its line
        | label name =>
            simp only [Row.lexemes, List.length_cons, List.length_nil] at hlength
            obtain ⟨fuel, rfl⟩ : ∃ n, fuel = n + 2 := ⟨fuel - 2, by omega⟩
            obtain ⟨line, hrow, hline⟩ := lines_label last (more ++ rest) fuel hfirst
            exact ⟨line, fuel, hrow, by omega, hline⟩
        | instr mnemonic args =>
            simp only [Row.lexemes, List.length_cons] at hlength
            obtain ⟨fuel, rfl⟩ : ∃ n, fuel = n + 1 := ⟨fuel - 1, by omega⟩
            obtain ⟨line, hrow, hline⟩ := lines_instr last (more ++ rest) fuel hfirst
            exact ⟨line, fuel, hrow, by omega, hline⟩
      obtain ⟨ks, left, hks, hleft, hlines⟩ := ih hmore hshort
      refine ⟨line :: ks, left, by rw [List.map_cons, hks, hrow], hleft, ?_⟩
      rw [List.append_assoc, hline, hlines]
      cases lines last left rest <;> rfl

/-! ## Declarations -/

/-- What may stand behind a declaration: nothing, or an empty line and a directive. -/
inductive Ends : List Lexeme → List Lexeme → Prop
  | nil : Ends [] []
  | next {stop place : Place} {text : Text} {more : List Lexeme} :
    Ends (⟨.endOfLine, [0x0A], stop⟩ :: ⟨.directive, text, place⟩ :: more)
      (⟨.directive, text, place⟩ :: more)

/-- The lines of a function end at its closing directive. -/
theorem Ends.lines {rest left : List Lexeme} (h : Ends rest left) {fuel : Nat}
    (hfuel : rest.length ≤ fuel) : Listing.lines last fuel rest = .ok ([], left) := by
  cases h with
  | nil => cases fuel <;> rfl
  | next =>
      rw [List.length_cons, List.length_cons] at hfuel
      obtain ⟨fuel, rfl⟩ : ∃ n, fuel = n + 2 := ⟨fuel - 2, by omega⟩
      rfl

/-- The empty line in front of a directive is passed over. -/
theorem Ends.items {rest left : List Lexeme} (h : Ends rest left) {fuel : Nat}
    (hfuel : rest.length ≤ fuel) :
    ∃ short, left.length ≤ short ∧ Listing.items last fuel rest = Listing.items last short left := by
  cases h with
  | nil => exact ⟨fuel, hfuel, rfl⟩
  | next =>
      rw [List.length_cons] at hfuel
      obtain ⟨fuel, rfl⟩ : ∃ n, fuel = n + 1 := ⟨fuel - 1, by omega⟩
      exact ⟨fuel, by omega, by simp only [Listing.items, if_true]⟩

theorem take_kind {kind : LexemeKind} (h : kind = .ident ∨ kind = .int) (text : Text)
    (place : Place) :
    take last [.ident, .int] (⟨kind, text, place⟩ :: rest) = .ok (text, rest) := by
  rcases h with rfl | rfl <;> rfl

/-- A function and what stands behind it. -/
theorem items_function {f : Written} {left : List Lexeme} (fuel : Nat)
    (hkind : f.kind = .ident ∨ f.kind = .int) (h : ls.map Lexeme.bare = f.lexemes)
    (hends : Ends rest left) :
    ∃ item, item.Is (.function f) ∧ items last (fuel + 1) (ls ++ rest)
      = (items last fuel left).map (item :: ·) := by
  -- the lexemes of the header one by one, and then those of the body
  obtain ⟨place, header, rfl, hheader⟩ := exists_of_map_bare_cons h
  obtain ⟨nameAt, behindName, rfl, hname⟩ := exists_of_map_bare_cons hheader
  obtain ⟨paramsAt, behindParams, rfl, hparams⟩ := exists_of_map_bare_cons hname
  obtain ⟨returnsAt, ending, rfl, hreturns⟩ := exists_of_map_bare_cons hparams
  obtain ⟨stop, body, rfl, hbody⟩ := exists_of_map_bare_cons hreturns
  obtain ⟨ks, short, hks, hshort, hlines⟩ := lines_append last rest hbody (Nat.le_refl _)
  rw [hends.lines last hshort] at hlines
  refine ⟨.function place f.name f.params f.returns (ks ++ []), ?_, ?_⟩
  · exact ⟨rfl, rfl, rfl, by rw [List.append_nil, hks]⟩
  · -- the function by itself, whose lines end where `Ends` says
    have hfunction : function last place (⟨f.kind, f.name, nameAt⟩ :: ⟨.int, f.params, paramsAt⟩
        :: ⟨.ident, f.returns, returnsAt⟩ :: ⟨.endOfLine, [0x0A], stop⟩ :: (body ++ rest))
          = .ok (.function place f.name f.params f.returns (ks ++ []), left) := by
      have hint : [LexemeKind.int].contains .int = true := rfl
      have hident : [LexemeKind.ident].contains .ident = true := rfl
      have hline : [LexemeKind.endOfLine].contains .endOfLine = true := rfl
      rw [function, take_kind last _ hkind]
      simp only [take, hint, hident, hline, hlines, if_true, bind, Except.bind]
      rfl
    have hfield : (Text.ofString ".func" == Text.ofString ".field") = false := rfl
    have hvar : (Text.ofString ".func" == Text.ofString ".var") = false := rfl
    simp only [List.cons_append, items, hfield, hvar, BEq.rfl, hfunction, reduceCtorEq, if_true,
      if_false, Bool.false_eq_true, bind, Except.bind]
    cases items last fuel left <;> rfl

/-- A field or variable and what stands behind it. -/
theorem items_global {g : WrittenGlobal} (fuel : Nat) (hkind : g.kind = .ident ∨ g.kind = .int)
    (h : ls.map Lexeme.bare = g.lexemes) :
    ∃ item, item.Is (.global g) ∧ items last (fuel + 1) (ls ++ rest)
      = (items last fuel rest).map (item :: ·) := by
  obtain ⟨place, header, rfl, hheader⟩ := exists_of_map_bare_cons h
  obtain ⟨nameAt, behindName, rfl, hname⟩ := exists_of_map_bare_cons hheader
  obtain ⟨typeAt, behindType, rfl, htype⟩ := exists_of_map_bare_cons hname
  obtain ⟨value, ending, rfl, hvalue, hending⟩ := List.map_eq_append_iff.1 htype
  obtain ⟨stop, rfl⟩ := exists_of_map_bare_singleton hending
  obtain ⟨p, hp, hargument⟩ := argument?_append last (⟨.endOfLine, [0x0A], stop⟩ :: rest) hvalue
  refine ⟨.global place g.isField g.name g.type (some p.argument), ?_, ?_⟩
  · exact ⟨rfl, rfl, rfl, by rw [hargument]⟩
  · -- the declaration by itself; which directive it has is decided at the end
    have hglobal : global last place g.isField (⟨g.kind, g.name, nameAt⟩ :: ⟨.ident, g.type, typeAt⟩
        :: (value ++ (⟨.endOfLine, [0x0A], stop⟩ :: rest)))
          = .ok (.global place g.isField g.name g.type (some p.argument), rest) := by
      have hident : [LexemeKind.ident].contains .ident = true := rfl
      have hline : [LexemeKind.endOfLine].contains .endOfLine = true := rfl
      rw [global, take_kind last _ hkind]
      simp only [take, hident, hline, hp, if_true, bind, Except.bind, pure, Except.pure]
    have hdirective : WrittenGlobal.directive g
        = if g.isField then Text.ofString ".field" else Text.ofString ".var" := rfl
    have hvar : (Text.ofString ".var" == Text.ofString ".field") = false := rfl
    rw [List.cons_append, List.cons_append, List.cons_append, List.append_assoc,
      List.singleton_append, items, hdirective]
    cases hfield : g.isField <;> rw [hfield] at hglobal <;>
      simp only [hglobal, hvar, BEq.rfl, reduceCtorEq, if_true, if_false, Bool.false_eq_true, bind,
        Except.bind] <;>
      cases items last fuel rest <;> rfl

/-- A declaration and what stands behind it, which is read with the fuel that is left. -/
theorem items_append {w : WrittenItem} {left : List Lexeme} {fuel : Nat} (hw : w.Lexical)
    (h : ls.map Lexeme.bare = w.lexemes) (hends : Ends rest left)
    (hfuel : (ls ++ rest).length ≤ fuel) :
    ∃ item short, item.Is w ∧ left.length ≤ short
      ∧ items last fuel (ls ++ rest) = (items last short left).map (item :: ·) := by
  have hpos : 1 ≤ ls.length := by
    obtain ⟨directive, out, hlexemes⟩ := w.exists_lexemes
    rw [hlexemes] at h
    obtain ⟨place, tail, rfl, -⟩ := exists_of_map_bare_cons h
    exact Nat.le_add_left 1 tail.length
  rw [List.length_append] at hfuel
  obtain ⟨fuel, rfl⟩ : ∃ n, fuel = n + 1 := ⟨fuel - 1, by omega⟩
  obtain ⟨short, hshort, hitems⟩ := hends.items last (show rest.length ≤ fuel by omega)
  cases w with
  | global g =>
      obtain ⟨item, hitem, hglobal⟩ := items_global last rest fuel hw.kind h
      exact ⟨item, short, hitem, hshort, by rw [hglobal, hitems]⟩
  | function f =>
      obtain ⟨item, hitem, hfunction⟩ := items_function last rest fuel hw.kind h hends
      have hleft : left.length ≤ rest.length := by cases hends <;> simp
      exact ⟨item, fuel, hitem, by omega, hfunction⟩

/-- Declarations behind one another. -/
theorem items_all {ws : List WrittenItem} {fuel : Nat} (hws : ∀ w ∈ ws, w.Lexical)
    (h : ls.map Lexeme.bare = WrittenItem.allLexemes ws) (hfuel : ls.length ≤ fuel) :
    ∃ its, items last fuel ls = .ok its ∧ List.Forall₂ Item.Is ws its := by
  induction ws generalizing ls fuel with
  | nil =>
      obtain rfl := List.map_eq_nil_iff.1 h
      exact ⟨[], by cases fuel <;> rfl, .nil⟩
  | cons v ws ih =>
      rw [List.forall_mem_cons] at hws
      obtain ⟨first, rest, left, rfl, hfirst, hends, hleft⟩ : ∃ first rest left, ls = first ++ rest
          ∧ first.map Lexeme.bare = v.lexemes ∧ Ends rest left
          ∧ left.map Lexeme.bare = WrittenItem.allLexemes ws := by
        cases ws with
        | nil => exact ⟨ls, [], [], (List.append_nil ls).symm, h, .nil, rfl⟩
        | cons w more =>
            obtain ⟨first, rest, rfl, hfirst, hrest⟩ := List.map_eq_append_iff.1 h
            obtain ⟨stop, left, rfl, hleft⟩ := exists_of_map_bare_cons hrest
            obtain ⟨directive, out, hout⟩ : ∃ directive out, WrittenItem.allLexemes (w :: more)
                = (.directive, directive) :: out := by
              obtain ⟨directive, out, hlexemes⟩ := w.exists_lexemes
              cases more <;> simp only [WrittenItem.allLexemes, hlexemes] <;> exact ⟨_, _, rfl⟩
            obtain ⟨place, tail, rfl, -⟩ := exists_of_map_bare_cons (hleft.trans hout)
            exact ⟨first, _, _, rfl, hfirst, .next, hleft⟩
      obtain ⟨item, short, hitem, hshort, hitems⟩ := items_append last rest hws.1 hfirst hends hfuel
      obtain ⟨its, hits, hall⟩ := ih hws.2 hleft hshort
      exact ⟨item :: its, by rw [hitems, hits]; rfl, .cons hitem hall⟩

/-- The text of declarations is read as the declarations. -/
theorem parse_items {ws : List WrittenItem} (hne : ws ≠ []) (hws : ∀ w ∈ ws, w.Lexical) :
    ∃ its, parse (Text.join [0x0A] (ws.map WrittenItem.text)) = .ok its
      ∧ List.Forall₂ Item.Is ws its := by
  obtain ⟨ls, hls, hbare⟩ := lexemes_items hne hws
  obtain ⟨its, hits, hall⟩ :=
    items_all ((ls.getLast?.map (·.place)).getD ⟨1, 1⟩) hws hbare (Nat.le_refl _)
  refine ⟨its, ?_, hall⟩
  rw [parse, hls]
  exact hits

end TickScript.Listing
