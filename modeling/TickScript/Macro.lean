import TickScript.Diagnostic
import TickScript.FileStore
import TickScript.Token.Scanner

/-!
# Macros and includes

A line that starts with a hash sign is a directive: it defines or forgets a macro, or includes
another file. In any other line the names of macros, outside of strings, are replaced by their
definitions; the replacement takes the position of the use. A definition is expanded when it is
made, so it is never expanded again. Each file is included once: a file that was processed before
adds nothing.
-/

namespace TickScript

/-- What a unit's directives have done so far. -/
structure MacroState where
  macros : Table Text (List Token) := []
  /-- The absolute paths that were processed. -/
  included : List Text := []
  /-- The files that includes pulled in, last first. -/
  dependencies : List Text := []
  /-- The absolute paths that were read, last first. -/
  history : List Text := []
deriving Repr

/-- Where includes are looked up. -/
structure MacroContext where
  store : FileStore
  includePaths : List Text

/-- The stage that runs directives. -/
abbrev Macros := StateT MacroState Reporting

namespace Macros

/-- Replaces macro names outside of strings. `inString` says whether the last quote opened one. -/
def substitute (macros : Table Text (List Token)) : (inString : Bool) → List Token → List Token
  | _, [] => []
  | inString, t :: rest =>
    let inString := if t.kind = .quote then !inString else inString
    match macros.get? t.text with
    | some replacement =>
      if inString || t.kind ≠ .text then t :: substitute macros inString rest
      else replacement.map (fun r => { r with line := t.line, file := t.file })
        ++ substitute macros inString rest
    | none => t :: substitute macros inString rest

/-- The tokens with the known macros replaced. -/
def expand (tokens : List Token) : Macros (List Token) := do
  return substitute (← get).macros false tokens

/-- Reads a file and remembers that it was read. -/
def read (ctx : MacroContext) (path : Text) : Macros (Except ReadFault Text) := do
  let s ← get
  set { s with history := ctx.store.absolute path :: s.history }
  return ctx.store.read s.history path

/-- The first candidate that can be read, as an absolute path. -/
def firstReadable (ctx : MacroContext) : List Text → Macros (Option Text)
  | [] => return none
  | path :: rest => do
    match ← read ctx path with
    | .ok _ => return some (ctx.store.absolute path)
    | .error _ => firstReadable ctx rest

/-- Where an include may be found: an absolute path as it stands, any other one beside the including
file first and then along the search path. -/
def candidates (ctx : MacroContext) (includer name : Text) : List Text :=
  if Path.isAbsolute name then [name]
  else
    (if includer.isEmpty then [] else [Path.join [Path.directory includer, name]])
      ++ ctx.includePaths.map fun dir => Path.join [dir, name]

/-- Runs `#define`. -/
def define (hash : Token) (operands : List Token) : Macros Unit := do
  match operands with
  | name :: body =>
    if name.kind = .text && isIdentifier name.text then
      let body ← expand body
      modify fun s => { s with macros := s.macros.set name.text body }
    else report hash .defineWithoutName
  | [] => report hash .defineWithoutName

/-- Runs `#undef`. -/
def undefine (hash : Token) (operands : List Token) : Macros Unit := do
  match operands with
  | name :: _ => modify fun s => { s with macros := s.macros.erase name.text }
  | [] => report hash .undefWithoutName

/-- The path operand of `#include`. -/
def includeOperand? : List Token → Option Token
  | [opening, path, closing] =>
    if opening.kind = .quote && path.kind = .text && closing.kind = .quote then some path else none
  | _ => none

/-- How a file and its text are processed. -/
abbrev FileReader := (file source : Text) → Macros (List Token)

/-- The tokens that an include contributes. -/
def includeFile (ctx : MacroContext) (process : FileReader) (includer : Text) (path : Token) :
    Macros (List Token) := do
  match ← firstReadable ctx (candidates ctx includer path.text) with
  | none =>
    report path (.includeNotFound path.text)
    return []
  | some found =>
    if (← get).included.contains found then return []
    else
      match ← read ctx found with
      | .error fault =>
        report path (.includeUnreadable path.text fault.message)
        return []
      | .ok content =>
        modify fun s => { s with dependencies := found :: s.dependencies }
        process found content

/-- The tokens that a directive contributes. -/
def directive (ctx : MacroContext) (process : FileReader) (file : Text) (hash : Token) :
    List Token → Macros (List Token)
  | [] => do
    report hash .emptyDirective
    return []
  | word :: operands => do
    if word.kind = .define then
      define hash operands
      return []
    else if word.kind = .text && Text.equalFold "undef" word.text then
      undefine hash operands
      return []
    else if word.kind = .text && Text.equalFold "include" word.text then
      match includeOperand? operands with
      | some path => includeFile ctx process file path
      | none =>
        report hash .includeWithoutPath
        return []
    else
      report hash (.unknownDirective word.text)
      return []

/-- The tokens that some lines contribute. -/
def processLines (ctx : MacroContext) (process : FileReader) (file : Text) :
    List (List Token) → Macros (List Token)
  | [] => return []
  | line :: rest => do
    let tokens ← match line with
      | [] => expand []
      | first :: operands =>
        if first.kind = .hash then directive ctx process file first operands else expand line
    return tokens ++ (← processLines ctx process file rest)

/-- The tokens that a file contributes, given how the files that it includes are processed. -/
def processWith (ctx : MacroContext) (process : FileReader) : FileReader := fun file source => do
  if !file.isEmpty then
    modify fun s => { s with included := ctx.store.absolute file :: s.included }
  let lines := (scanLines false (numberedLines source)).map
    fun line => line.map fun t => { t with file := file }
  processLines ctx process file lines

/-- The tokens that a file contributes. The fuel bounds the nesting of includes. -/
def processFile (ctx : MacroContext) : (fuel : Nat) → FileReader
  | 0 => processWith ctx fun _ _ => return []
  | fuel + 1 => processWith ctx (processFile ctx fuel)

/-- A named source text. -/
structure Source where
  name : Text
  text : Text
deriving DecidableEq, Repr

/-- The tokens of some sources in order. No file is included twice, so the number of files bounds
the nesting of includes. -/
def processAll (ctx : MacroContext) : List Source → Macros (List Token)
  | [] => return []
  | source :: rest => do
    let tokens ← processFile ctx (ctx.store.size + 1) source.name source.text
    return tokens ++ (← processAll ctx rest)

end Macros

end TickScript
