/-!
# Binary floating point

A float is a signed significand times a power of two, an infinity, or not a number. A `Format` fixes
how many significand bits and which exponents can be stored; `round` takes an exact ratio to the
nearest number of a format, a tie going to the even significand. The operations compute the exact
result and round once, so their meaning is plain arithmetic.
-/

namespace TickScript.Number

/-- A binary storage format. -/
structure Format where
  /-- Significand bits, the leading one included. -/
  precision : Nat
  /-- Bits of the exponent field. -/
  exponentBits : Nat
deriving DecidableEq, Repr

/-- The 32-bit format. -/
def Format.single : Format := ⟨24, 8⟩

/-- The 64-bit format. -/
def Format.double : Format := ⟨53, 11⟩

/-- The exponent of the last place of the smallest numbers. -/
def Format.leastExponent (f : Format) : Int := 3 - Nat.pow 2 (f.exponentBits - 1) - f.precision

/-- The exponent of the last place of the largest numbers. -/
def Format.greatestExponent (f : Format) : Int := Nat.pow 2 (f.exponentBits - 1) - f.precision

/-- A floating point number. `finite s m e` is `m · 2 ^ e`, negated when `s` holds; zero has a sign
too. -/
inductive Real where
  | notANumber
  | infinite (negative : Bool)
  | finite (negative : Bool) (significand : Nat) (exponent : Int)
deriving DecidableEq, Repr

namespace Real

/-- Zero, without a sign. -/
def zero : Real := .finite false 0 0

/-- An integer as a float, exactly. -/
def ofInt (n : Int) : Real := .finite (n < 0) n.natAbs 0

/-- `num / den` with both scaled by powers of two so that the quotient counts units of `2 ^ e`. -/
def scaled (num den : Nat) (e : Int) : Nat × Nat :=
  if e < 0 then (num <<< e.natAbs, den) else (num, den <<< e.natAbs)

/-- The quotient of `num` by `den` rounded to the nearest natural number, a tie to the even one. -/
def nearest (num den : Nat) : Nat :=
  let quotient := num / den
  let twice := 2 * (num % den)
  if den < twice || (twice == den && quotient % 2 == 1) then quotient + 1 else quotient

/-- The exponent of the leading bit of `num / den`; both are positive. -/
def leadingExponent (num den : Nat) : Int :=
  let guess : Int := num.log2 - den.log2
  let (n, d) := scaled num den guess
  if d ≤ n then guess else guess - 1

/-- The number of the format nearest to `num / den`, a tie to the even significand; `den` is
positive. Numbers beyond the largest of the format become infinite. -/
def round (f : Format) (negative : Bool) (num den : Nat) : Real :=
  if num == 0 then .finite negative 0 0
  else
    let e := max (leadingExponent num den - (f.precision - 1 : Nat)) f.leastExponent
    let (n, d) := scaled num den e
    let m := nearest n d
    let (m, e) :=
      if m == Nat.pow 2 f.precision then (Nat.pow 2 (f.precision - 1), e + 1) else (m, e)
    if f.greatestExponent < e then .infinite negative else .finite negative m e

/-- A number brought into a format. -/
def roundTo (f : Format) : Real → Real
  | .finite negative m e =>
    if e < 0 then round f negative m (1 <<< e.natAbs) else round f negative (m <<< e.natAbs) 1
  | x => x

/-- The stored bits of a number in a format. Not a number has the one quiet pattern. -/
def toBits (f : Format) (x : Real) : Nat :=
  let fraction := f.precision - 1
  let top := (Nat.pow 2 f.exponentBits - 1) <<< fraction
  let signBit (negative : Bool) : Nat :=
    if negative then 1 <<< (fraction + f.exponentBits) else 0
  match roundTo f x with
  | .notANumber => top + 1 <<< (fraction - 1)
  | .infinite negative => signBit negative + top
  | .finite negative m e =>
    if m < Nat.pow 2 fraction then signBit negative + m
    else signBit negative + (e - f.leastExponent + 1).toNat <<< fraction + (m - Nat.pow 2 fraction)

/-- The number that stored bits stand for. -/
def ofBits (f : Format) (bits : Nat) : Real :=
  let fraction := f.precision - 1
  let negative := (bits >>> (fraction + f.exponentBits)) % 2 == 1
  let field := (bits >>> fraction) % Nat.pow 2 f.exponentBits
  let low := bits % Nat.pow 2 fraction
  if field == Nat.pow 2 f.exponentBits - 1 then
    if low == 0 then .infinite negative else .notANumber
  else if field == 0 then .finite negative low f.leastExponent
  else .finite negative (low + Nat.pow 2 fraction) (f.leastExponent + (field - 1 : Nat))

/-! ## Exact values -/

/-- The signed significand of a finite number in units of `2 ^ e`, for `e` at most its exponent. -/
def unitsOf (negative : Bool) (m : Nat) (e unit : Int) : Int :=
  let size : Int := (m <<< (e - unit).toNat : Nat)
  if negative then -size else size

/-- The integer part of a finite number; zero for the others. -/
def truncate : Real → Int
  | .finite negative m e =>
    let size : Int := if e < 0 then (m >>> e.natAbs : Nat) else (m <<< e.natAbs : Nat)
    if negative then -size else size
  | _ => 0

/-- Whether a number is zero of either sign. -/
def isZero : Real → Bool
  | .finite _ m _ => m == 0
  | _ => false

/-- The order of two numbers; none when one of them is not a number. Zeros are equal. -/
def compare? : Real → Real → Option Ordering
  | .notANumber, _ => none
  | _, .notANumber => none
  | .infinite s, .infinite t => some (if s == t then .eq else if s then .lt else .gt)
  | .infinite s, .finite .. => some (if s then .lt else .gt)
  | .finite .., .infinite t => some (if t then .gt else .lt)
  | .finite s m e, .finite t n d =>
    let unit := min e d
    some (Ord.compare (unitsOf s m e unit) (unitsOf t n d unit))

/-! ## Arithmetic in the 64-bit format -/

/-- The negated number. -/
def neg : Real → Real
  | .notANumber => .notANumber
  | .infinite s => .infinite !s
  | .finite s m e => .finite (!s) m e

/-- The sum. Opposite numbers add up to the positive zero. -/
def add : Real → Real → Real
  | .notANumber, _ => .notANumber
  | _, .notANumber => .notANumber
  | .infinite s, .infinite t => if s == t then .infinite s else .notANumber
  | .infinite s, .finite .. => .infinite s
  | .finite .., .infinite t => .infinite t
  | .finite s m e, .finite t n d =>
    let unit := min e d
    let sum := unitsOf s m e unit + unitsOf t n d unit
    if sum == 0 then .finite (s && t) 0 0
    else roundTo .double (.finite (sum < 0) sum.natAbs unit)

/-- The difference. -/
def sub (x y : Real) : Real := add x (neg y)

/-- The product. -/
def mul : Real → Real → Real
  | .notANumber, _ => .notANumber
  | _, .notANumber => .notANumber
  | .infinite s, .infinite t => .infinite (s != t)
  | .infinite s, .finite t n _ => if n == 0 then .notANumber else .infinite (s != t)
  | .finite s m _, .infinite t => if m == 0 then .notANumber else .infinite (s != t)
  | .finite s m e, .finite t n d => roundTo .double (.finite (s != t) (m * n) (e + d))

/-- The quotient. -/
def div : Real → Real → Real
  | .notANumber, _ => .notANumber
  | _, .notANumber => .notANumber
  | .infinite _, .infinite _ => .notANumber
  | .infinite s, .finite t _ _ => .infinite (s != t)
  | .finite s _ _, .infinite t => .finite (s != t) 0 0
  | .finite s m e, .finite t n d =>
    if n == 0 then (if m == 0 then .notANumber else .infinite (s != t))
    else
      let (num, den) := scaled m n (d - e)
      round .double (s != t) num den

/-- The remainder with the sign of the dividend. -/
def mod : Real → Real → Real
  | .notANumber, _ => .notANumber
  | _, .notANumber => .notANumber
  | .infinite _, _ => .notANumber
  | .finite s m e, .infinite _ => .finite s m e
  | .finite s m e, .finite _ n d =>
    if n == 0 then .notANumber
    else
      let unit := min e d
      .finite s ((m <<< (e - unit).toNat) % (n <<< (d - unit).toNat)) unit

end Real

end TickScript.Number
