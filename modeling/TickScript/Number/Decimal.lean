import TickScript.Number.Binary
import TickScript.Number.Integer
import TickScript.Text.Utf8

/-!
# Decimal text of floats

`parse` reads a decimal or hexadecimal number, an infinity or not a number, and rounds it once to a
format. `digits` finds the shortest decimal that reads back as the same number of a format, and
among those the one nearest to it; `render` writes it positionally for exponents from -4 to 5 and
with an exponent of at least two digits otherwise.
-/

namespace TickScript.Number

open TickScript.Text

/-! ## Reading -/

/-- The parts of a number before rounding: `mantissa · base ^ exponent`, where the base is ten or,
for a hexadecimal number, two. -/
structure Scientific where
  negative : Bool
  hexadecimal : Bool
  mantissa : Nat
  exponent : Int
deriving DecidableEq, Repr

/-- Digits with at most one point: the number they spell without the point, how many digits stand
behind the point, whether any digit was seen, and the rest. -/
def readMantissa (hexadecimal : Bool) :
    (value : Nat) → (behind : Nat) → (point digits : Bool) → Text → Nat × Nat × Bool × Text
  | value, behind, _, digits, [] => (value, behind, digits, [])
  | value, behind, point, digits, b :: t =>
    if b == 0x5F then readMantissa hexadecimal value behind point digits t
    else if b == 0x2E then
      if point then (value, behind, digits, b :: t)
      else readMantissa hexadecimal value behind true digits t
    else
      let base := if hexadecimal then 16 else 10
      match digit? b with
      | some d =>
        if d < base then
          readMantissa hexadecimal (value * base + d) (if point then behind + 1 else behind) point
            true t
        else (value, behind, digits, b :: t)
      | none => (value, behind, digits, b :: t)

/-- The digits of an exponent. The value stops growing once it has five digits: no format tells
larger exponents apart. -/
def readExponent : Nat → Text → Nat × Text
  | value, [] => (value, [])
  | value, b :: t =>
    if isDigit b then
      readExponent (if value < 10000 then value * 10 + (b.toNat - 0x30) else value) t
    else if b == 0x5F then readExponent value t
    else (value, b :: t)

/-- The exponent behind its mark, with what follows. -/
def signedExponent? (t : Text) : Option (Int × Text) :=
  let unsigned := dropSign t
  match unsigned with
  | b :: _ =>
    if isDigit b then
      let (value, rest) := readExponent 0 unsigned
      some (if t.head? == some 0x2D then -value else value, rest)
    else none
  | [] => none

/-- A number with nothing behind it. A hexadecimal number needs an exponent, which counts twos. -/
def scientific? (t : Text) : Option Scientific := do
  let unsigned := dropSign t
  let (hexadecimal, body) := match unsigned with
    | 0x30 :: b :: c :: rest =>
      if lowerByte b == byte 'x' then (true, c :: rest) else (false, unsigned)
    | _ => (false, unsigned)
  let (mantissa, behind, digits, rest) := readMantissa hexadecimal 0 0 false false body
  if !digits then none
  let places : Int := if hexadecimal then 4 * behind else behind
  let negative := t.head? == some 0x2D
  let finished (exponent : Int) (rest : Text) : Option Scientific :=
    if !rest.isEmpty then none
    else if t.contains 0x5F && !underscoresOk t then none
    else some ⟨negative, hexadecimal, mantissa, exponent - places⟩
  match rest with
  | [] => if hexadecimal then none else finished 0 []
  | b :: rest =>
    if lowerByte b == (if hexadecimal then byte 'p' else byte 'e') then do
      let (exponent, rest) ← signedExponent? rest
      finished exponent rest
    else none

/-- The number of a format nearest to a scientific one. Exponents far outside every format are
settled without computing the power. -/
def Scientific.round (f : Format) (s : Scientific) : Real :=
  if s.mantissa == 0 then .finite s.negative 0 0
  else if s.hexadecimal then
    let size : Int := s.mantissa.log2 + s.exponent
    if 2000 < size then .infinite s.negative
    else if size < -2000 then .finite s.negative 0 0
    else (Real.finite s.negative s.mantissa s.exponent).roundTo f
  else
    let size : Int := (Nat.toDigits 10 s.mantissa).length + s.exponent
    if 400 < size then .infinite s.negative
    else if size < -400 then .finite s.negative 0 0
    else if s.exponent < 0 then Real.round f s.negative s.mantissa (Nat.pow 10 s.exponent.natAbs)
    else Real.round f s.negative (s.mantissa * Nat.pow 10 s.exponent.natAbs) 1

/-- The names of the numbers that have no digits. -/
def named? (t : Text) : Option Real :=
  let unsigned := dropSign t
  if equalFold "inf" unsigned || equalFold "infinity" unsigned then
    some (.infinite (t.head? == some 0x2D))
  else if equalFold "nan" t then some .notANumber
  else none

/-- A text read as a number of a format. A number beyond the format is infinite, which is a fault of
its own. -/
def parse (f : Format) (t : Text) : Except (Fault × Real) Real :=
  match named? t with
  | some x => .ok x
  | none =>
    match scientific? t with
    | none => .error (.malformed, .zero)
    | some s =>
      match s.round f with
      | .infinite negative => .error (.outOfRange 0, .infinite negative)
      | x => .ok x

/-- A text read as a number of a format, zero when it is none. -/
def parseLenient (f : Format) (t : Text) : Real :=
  match parse f t with
  | .ok x => x
  | .error (_, x) => x

/-! ## Writing -/

/-- The decimal `mantissa · 10 ^ exponent`. -/
structure DecimalDigits where
  mantissa : Nat
  exponent : Int
deriving DecidableEq, Repr

/-- Whether the exact value `num / den` rounds to the significand `m` and exponent `e`. -/
def readsBack (f : Format) (m : Nat) (e : Int) (num den : Nat) : Bool :=
  Real.round f false num den == .finite false m e

/-- The ratio of naturals that a decimal stands for. -/
def DecimalDigits.ratio (d : DecimalDigits) : Nat × Nat :=
  if d.exponent < 0 then (d.mantissa, Nat.pow 10 d.exponent.natAbs)
  else (d.mantissa * Nat.pow 10 d.exponent.natAbs, 1)

/-- Whether a decimal reads back as the finite number with significand `m` and exponent `e`. -/
def DecimalDigits.readsAs (f : Format) (m : Nat) (e : Int) (d : DecimalDigits) : Bool :=
  readsBack f m e d.ratio.1 d.ratio.2

/-- The decimal exponent of the leading digit of the positive ratio `num / den`, searched upwards
from a lower bound. -/
def leadingDecimal (num den : Nat) : (fuel : Nat) → (guess : Int) → Int
  | 0, guess => guess
  | fuel + 1, guess =>
    let next := guess + 1
    let scale := Nat.pow 10 next.natAbs
    let reached := if next < 0 then den ≤ num * scale else den * scale ≤ num
    if reached then leadingDecimal num den fuel next else guess

/-- The decimal with `count` digits nearest below the ratio, and the one above it, in that order of
preference by distance; a tie goes to the even last digit. -/
def neighbours (num den : Nat) (lead : Int) (count : Nat) : List DecimalDigits :=
  let unit : Int := lead - (count - 1 : Nat)
  let scale := Nat.pow 10 unit.natAbs
  let (n, d) := if unit < 0 then (num * scale, den) else (num, den * scale)
  let below := n / d
  let twice := 2 * (n % d)
  let low : DecimalDigits := ⟨below, unit⟩
  let high : DecimalDigits := ⟨below + 1, unit⟩
  if twice == 0 then [low]
  else if d < twice || (twice == d && below % 2 == 1) then [high, low]
  else [low, high]

/-- The first decimal that reads back, trying `count` digits and more. -/
def shortestFrom (f : Format) (m : Nat) (e : Int) (num den : Nat) (lead : Int) :
    (fuel : Nat) → (count : Nat) → DecimalDigits
  | 0, count => ((neighbours num den lead count).head?).getD ⟨0, 0⟩
  | fuel + 1, count =>
    match (neighbours num den lead count).find? (·.readsAs f m e) with
    | some d => d
    | none => shortestFrom f m e num den lead fuel (count + 1)

/-- The shortest decimal that reads back as the positive number `m · 2 ^ e` of a format. -/
def digits (f : Format) (m : Nat) (e : Int) : DecimalDigits :=
  let (num, den) := if e < 0 then (m, 1 <<< e.natAbs) else (m <<< e.natAbs, 1)
  let low : Int := (m.log2 + e) * 30103 / 100000 - 2
  shortestFrom f m e num den (leadingDecimal num den 6 low) 20 1

/-- Digits without trailing zeros, at least one digit. -/
def stripZeros (t : Text) : Text :=
  match (t.reverse.dropWhile (· == 0x30)).reverse with
  | [] => [0x30]
  | stripped => stripped

/-- Significant digits with the power of ten of the first of them, positionally. -/
def positional (significant : Text) (lead : Int) : Text :=
  if lead < 0 then "0." ++ zeros (lead.natAbs - 1) ++ significant
  else
    let whole := lead.natAbs + 1
    if significant.length ≤ whole then
      significant ++ zeros (whole - significant.length)
    else significant.take whole ++ 0x2E :: significant.drop whole

/-- Significant digits with an exponent. -/
def withExponent (significant : Text) (lead : Int) : Text :=
  let point := match significant with
    | first :: [] => [first]
    | first :: rest => first :: 0x2E :: rest
    | [] => []
  let sign : UInt8 := if lead < 0 then 0x2D else 0x2B
  point ++ 0x65 :: sign :: padZero 2 (ofNat lead.natAbs)

/-- The least exponent that is written positionally. -/
def leastPositional : Int := -4

/-- The first exponent that is written with an exponent mark again. -/
def positionalEnd : Int := 6

/-- The shortest text of a number of a format. -/
def render (f : Format) (x : Real) : Text :=
  match x.roundTo f with
  | .notANumber => "NaN"
  | .infinite negative => if negative then "-Inf" else "+Inf"
  | .finite negative m e =>
    let size :=
      if m == 0 then [0x30]
      else
        let d := digits f m e
        let all := ofNat d.mantissa
        let lead : Int := d.exponent + (all.length - 1 : Nat)
        let significant := stripZeros all
        if lead < leastPositional || positionalEnd ≤ lead then withExponent significant lead
        else positional significant lead
    if negative then 0x2D :: size else size

end TickScript.Number
