import TickScript.CodeBuffer
import TickScript.Script.Basic
import TickScript.Token.Basic

/-!
# Diagnostics

Everything that can be wrong with a source is a `Cause`; its wording is in one place. A diagnostic
is a cause with a position. The stages of a compilation report into a `Log`: a lenient log collects,
a strict one stops the stage at its first entry. A stage can also break down, at an index behind the
end of a list or at an expression that is taken for what it is not; that it never does is a theorem.
-/

namespace TickScript

/-- Why a literal cannot be stored in a variable. -/
inductive LiteralError where
  | notLiteral
  | mismatch (shape type : VarType)
  | floatOverflow (value : Number.Real)
  | intOverflow (value : Int)
  | uintNegative (value : Int)
  | uintOverflow (value : Int)
  | malformedNumber (text : Text)
deriving DecidableEq, Repr

/-- The wording of a literal error. -/
def LiteralError.message : LiteralError → Text
  | notLiteral => "expression is not a literal"
  | mismatch shape type =>
    "type mismatch: cannot use " ++ shape.name ++ " literal as " ++ type.name
  | floatOverflow value => "constant " ++ Number.render .double value ++ " overflows float"
  | intOverflow value => "constant " ++ Text.ofInt value ++ " overflows int"
  | uintNegative value => "constant " ++ Text.ofInt value ++ " is negative, cannot be uint"
  | uintOverflow value => "constant " ++ Text.ofInt value ++ " overflows uint"
  | malformedNumber text => "malformed number " ++ Text.quote text

/-- What is wrong with a source. -/
inductive Cause where
  -- directives
  | emptyDirective
  | defineWithoutName
  | undefWithoutName
  | includeWithoutPath
  | unknownDirective (word : Text)
  | includeNotFound (path : Text)
  | includeUnreadable (path reason : Text)
  -- expressions
  | expected (wanted : TokenKind) (found : Token)
  | expectedAtEnd (wanted : TokenKind)
  | unexpectedEnd
  | invalidStart (found : Token)
  | invalidIdentifier (text : Text)
  | unclosedString
  | operandNotVariable (operator : Text)
  | targetNotVariable (operator : Text)
  | wordNotCallable (word : Text)
  | notCallable
  | unclosedArguments
  | badArguments (found : Token)
  | trailing (found : Token)
  -- statements
  | unclosedStatement
  | statementOutside (word : Text)
  | unexpectedAtTop (found : Token)
  | voidVariable
  | missingName (type : Text)
  | badDeclaration (name : Text) (found : Token)
  | missingInitializer (name : Text)
  | missingFunctionName
  | unclosedParameters (function : Text)
  | badParameters (function : Text)
  | voidParameter (name : Text)
  | tooManyParameters (function : Text)
  | unclosedFunction (function : Text)
  | unclosedBlock
  | notInsideFunction (word : Text)
  | elseWithoutIf
  | unclosedCondition (word : Text)
  | emptyCondition (word : Text)
  | unclosedBody (word : Text)
  | missingBody (word : Text)
  | unclosedHeader
  | badHeader (semicolons : Nat)
  -- declarations and code
  | collision (name other : Text) (id : Id)
  | redeclared (name : Text)
  | redeclaredAsFunction (name : Text)
  | redefined (name : Text)
  | conflicting (name : Text)
  | badInitializer (name : Text) (error : LiteralError)
  | initializerNotLiteral (kind : SectionKind) (name : Text)
  | duplicateParameter (name : Text)
  | shadowsFunction (name : Text)
  | redeclaredInBlock (name : Text)
  | wordMismatch (word : Text) (type : VarType)
  | missingResult (function : Text) (type : VarType)
  | unwantedResult (function : Text)
  | badResult (error : LiteralError)
  | functionNotVariable (name : Text)
  | undefinedVariable (name : Text)
  | wordNeedsArguments (word : Text)
  | indexing
  | badLiteral (error : LiteralError)
  | wordArity (word : Text) (count : Nat)
  | variableNotFunction (name : Text)
  | arity (function : Text) (wanted count : Nat)
  | badArgument (index : Nat) (function : Text) (error : LiteralError)
  | jumpTooFar (jump : JumpTooFar)
deriving DecidableEq, Repr

/-- The wording of a cause. -/
def Cause.message : Cause → Text
  | emptyDirective => "empty preprocessor directive"
  | defineWithoutName => "#define requires a macro name"
  | undefWithoutName => "#undef requires a macro name"
  | includeWithoutPath => "#include expects a quoted path"
  | unknownDirective word => "unknown preprocessor directive " ++ Text.quote word
  | includeNotFound path => "include file " ++ Text.quote path ++ " not found"
  | includeUnreadable path reason => "cannot read include " ++ Text.quote path ++ ": " ++ reason
  | expected wanted found =>
    "expected " ++ Text.ofString wanted.name ++ ", got " ++ found.shown
  | expectedAtEnd wanted => "expected " ++ Text.ofString wanted.name ++ ", got end of expression"
  | unexpectedEnd => "unexpected end of expression"
  | invalidStart found => "invalid prefix " ++ found.shown
  | invalidIdentifier text => "invalid identifier " ++ Text.quote text
  | unclosedString => "missing closing quote"
  | operandNotVariable operator => operator ++ " requires a variable operand"
  | targetNotVariable operator => "left side of " ++ operator ++ " must be a variable"
  | wordNotCallable word => word ++ " is not callable"
  | notCallable => "expression is not callable"
  | unclosedArguments => "missing ) after call arguments"
  | badArguments found => "expected , or ) in call arguments, got " ++ found.shown
  | trailing found => "unexpected " ++ found.shown ++ " in expression"
  | unclosedStatement => "missing ; after statement"
  | statementOutside word => word ++ " statement outside of a function"
  | unexpectedAtTop found => "unexpected " ++ found.shown ++ " at top level"
  | voidVariable => "variables cannot have type void"
  | missingName type => "expected a name after " ++ type
  | badDeclaration name found => "expected = or ; after " ++ name ++ ", got " ++ found.shown
  | missingInitializer name => "missing initializer for " ++ name
  | missingFunctionName => "expected function name after define"
  | unclosedParameters function => "missing ) after parameters of " ++ function
  | badParameters function => "malformed parameter list of " ++ function
  | voidParameter name => "parameter " ++ name ++ " cannot have type void"
  | tooManyParameters function => function ++ " has more than 255 parameters"
  | unclosedFunction function => "missing \x7d after body of " ++ function
  | unclosedBlock => "missing \x7d after block"
  | notInsideFunction word => word ++ " is not allowed inside a function"
  | elseWithoutIf => "else without if"
  | unclosedCondition word => "missing ) after " ++ word ++ " condition"
  | emptyCondition word => "empty " ++ word ++ " condition"
  | unclosedBody word => "missing \x7d after " ++ word ++ " body"
  | missingBody word => "missing body after " ++ word
  | unclosedHeader => "missing ) after for header"
  | badHeader semicolons => "for header needs exactly two ';', got " ++ Text.ofNat semicolons
  | collision name other id =>
    "identifier " ++ name ++ " collides with " ++ other ++ " (id " ++ Text.ofInt id.toInt ++ ")"
  | redeclared name => name ++ " redeclared"
  | redeclaredAsFunction name => name ++ " redeclared as a function"
  | redefined name => "function " ++ name ++ " redefined"
  | conflicting name => "conflicting declarations of " ++ name
  | badInitializer name error => name ++ ": " ++ error.message
  | initializerNotLiteral kind name =>
    "initializer of " ++ kind.name ++ " " ++ name ++ " must be a literal"
  | duplicateParameter name => "duplicate parameter " ++ name
  | shadowsFunction name => name ++ " shadows a function"
  | redeclaredInBlock name => name ++ " redeclared in this block"
  | wordMismatch word type => "type mismatch: cannot use " ++ word ++ " as " ++ type.name
  | missingResult function type => function ++ " must return a " ++ type.name
  | unwantedResult function => function ++ " does not return a value"
  | badResult error => "return: " ++ error.message
  | functionNotVariable name => name ++ " is a function, not a variable"
  | undefinedVariable name => "undefined variable " ++ name
  | wordNeedsArguments word => word ++ " requires an argument list"
  | indexing => "indexing is not supported"
  | badLiteral error => error.message
  | wordArity word count => word ++ " takes exactly one argument, got " ++ Text.ofNat count
  | variableNotFunction name => name ++ " is a variable, not a function"
  | arity function wanted count =>
    function ++ " takes " ++ Text.ofNat wanted ++ " arguments, got " ++ Text.ofNat count
  | badArgument index function error =>
    "argument " ++ Text.ofNat index ++ " of " ++ function ++ ": " ++ error.message
  | jumpTooFar jump => jump.message

/-- A message with its place in front. -/
def located (file : Text) (line : Int) (message : Text) : Text :=
  if file.isEmpty then "line " ++ Text.ofInt line ++ ": " ++ message
  else file ++ ":" ++ Text.ofInt line ++ ": " ++ message

/-- One complaint about a source. -/
structure Diagnostic where
  file : Text
  line : Int
  cause : Cause
deriving DecidableEq, Repr

namespace Diagnostic

/-- The diagnostic of a cause at a token. -/
def at_ (t : Token) (cause : Cause) : Diagnostic := ⟨t.file, t.line, cause⟩

/-- The diagnostic as one line. -/
def render (d : Diagnostic) : Text := located d.file d.line d.cause.message

/-- Some diagnostics, one per line. -/
def renderAll (ds : List Diagnostic) : Text := Text.join "\n" (ds.map render)

end Diagnostic

/-! ## Reporting -/

/-- The diagnostics of a compilation so far. -/
structure Log where
  /-- Whether the first diagnostic ends the compilation. -/
  strict : Bool
  /-- The diagnostics, last first. -/
  entries : List Diagnostic := []
deriving DecidableEq, Repr

/-- The diagnostics in the order in which they were reported. -/
def Log.diagnostics (l : Log) : List Diagnostic := l.entries.reverse

/-- A step that cannot be taken, whatever was asked of the compiler. -/
inductive Breakdown where
  /-- An index, or a bound of a part, lies behind the end of a list. -/
  | outOfRange
  /-- An expression is not of the kind that it is taken for. -/
  | wrongKind
deriving DecidableEq, Repr

/-- Why a compilation stopped early. -/
inductive Stopped where
  /-- The log is strict, and something was reported to it. -/
  | reported
  /-- The compiler broke down. -/
  | broken (breakdown : Breakdown)
deriving DecidableEq, Repr

/-- The step at which a compiler broke down, if it did. -/
def Stopped.breakdown? : Stopped → Option Breakdown
  | reported => none
  | broken breakdown => some breakdown

/-- A stage that reports into a log and stops at the first report of a strict one. -/
abbrev Reporting := EStateM Stopped Log

/-- Records a diagnostic at a token. -/
def report (t : Token) (cause : Cause) : Reporting Unit := do
  modify fun l => { l with entries := Diagnostic.at_ t cause :: l.entries }
  if (← get).strict then throw .reported

/-- Breaks down. -/
def breakDown {α : Type} (breakdown : Breakdown) : Reporting α := throw (.broken breakdown)

end TickScript
