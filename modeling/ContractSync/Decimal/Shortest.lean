/-!
# The shortest decimal

The reals that round to a double form an interval: from halfway to the neighbour below to halfway
to the neighbour above, the ends included exactly if the mantissa is even. `shortest` looks for the
fewest digits whose decimal lies in that interval, by exact arithmetic on naturals.
-/

/-!
## Binary fractions

A finite double is `± mantissa · 2 ^ exponent`. `Binary.ofBits` reads the parts from the bits;
`Binary.sameNumber` compares such numbers exactly, so that whole numbers and fractions compare
by value.
-/

namespace ContractSync.Decimal

/-- A signed number `mantissa · 2 ^ exponent`. -/
structure Binary where
  negative : Bool
  mantissa : Nat
  exponent : Int
  /-- The gap to the neighbour towards zero is half the gap to the other one. -/
  narrowBelow : Bool := false
  deriving DecidableEq, Repr

/-- What the bits of a double stand for. -/
inductive Reading where
  | finite (value : Binary)
  | infinite (negative : Bool)
  | notANumber
  deriving DecidableEq, Repr

/-- The meaning of the bits of a double. -/
def Reading.ofBits (bits : UInt64) : Reading :=
  let negative := bits >>> 63 == 1
  let exponent := ((bits >>> 52) &&& 0x7FF).toNat
  let fraction := (bits &&& 0xFFFFFFFFFFFFF).toNat
  if exponent = 0x7FF then
    if fraction = 0 then .infinite negative else .notANumber
  else if exponent = 0 then .finite ⟨negative, fraction, -1074, false⟩
  else
    .finite ⟨negative, Nat.pow 2 52 + fraction, (exponent : Int) - 1075, fraction == 0 && exponent > 1⟩

namespace Binary

/-- A whole number. -/
def ofInt (n : Int) : Binary := ⟨n < 0, n.natAbs, 0, false⟩

/-- The two stand for the same number; the sign of zero does not matter. -/
def sameNumber (a b : Binary) : Bool :=
  a.mantissa * Nat.pow 2 (a.exponent - b.exponent).toNat
      == b.mantissa * Nat.pow 2 (b.exponent - a.exponent).toNat
    && (a.mantissa == 0 || a.negative == b.negative)

end Binary

end ContractSync.Decimal

/-! ## The fewest digits -/

namespace ContractSync.Decimal

/-- The decimal number `digits · 10 ^ exponent`. -/
structure Scaled where
  digits : Nat
  exponent : Int
  deriving DecidableEq, Repr

/-- Compares `a · 10 ^ i` with `n · 2 ^ j`. -/
def compareScaled (a : Nat) (i : Int) (n : Nat) (j : Int) : Ordering :=
  compare (a * Nat.pow 10 i.toNat * Nat.pow 2 (-j).toNat)
    (n * Nat.pow 2 j.toNat * Nat.pow 10 (-i).toNat)

namespace Binary

/-- The decimal lies among the reals that round to the absolute value of `x`. -/
def readsBack (x : Binary) (d : Scaled) : Bool :=
  let below := if x.narrowBelow then 4 * x.mantissa - 1 else 4 * x.mantissa - 2
  let above := 4 * x.mantissa + 2
  let closed := x.mantissa % 2 == 0
  let low := compareScaled d.digits d.exponent below (x.exponent - 2)
  let high := compareScaled d.digits d.exponent above (x.exponent - 2)
  (low == .gt || (closed && low == .eq)) && (high == .lt || (closed && high == .eq))

/-- The absolute value of `x` over `10 ^ p`, rounded down. -/
def floorAt (x : Binary) (p : Int) : Nat :=
  x.mantissa * Nat.pow 2 x.exponent.toNat * Nat.pow 10 (-p).toNat
    / (Nat.pow 2 (-x.exponent).toNat * Nat.pow 10 p.toNat)

/-- The least `k` with `x < 10 ^ k`, for a positive `x`. -/
def scale (x : Binary) : Int :=
  let up := (Nat.toDigits 10 (x.mantissa * Nat.pow 2 x.exponent.toNat)).length
  let down := (Nat.toDigits 10 (Nat.pow 2 (-x.exponent).toNat)).length
  let guess : Int := (up : Int) - down
  if compareScaled 1 guess x.mantissa x.exponent == .gt then guess else guess + 1

/-- The one or two points of the grid `10 ^ p` next to `x` that read back, the nearer one first
chosen; of two equally near ones the even one. -/
def nearestAt (x : Binary) (p : Int) : Option Scaled :=
  let low : Scaled := ⟨x.floorAt p, p⟩
  let high : Scaled := ⟨x.floorAt p + 1, p⟩
  match x.readsBack low, x.readsBack high with
  | true, false => some low
  | false, true => some high
  | false, false => none
  | true, true =>
    match compareScaled (2 * low.digits + 1) p x.mantissa (x.exponent + 1) with
    | .gt => some low
    | .lt => some high
    | .eq => some (if low.digits % 2 = 0 then low else high)

/-- The fewest decimal digits that read back as `x`, for a positive `x`. -/
def shortest (x : Binary) : Scaled :=
  let k := x.scale
  ((List.range 17).findSome? fun (n : Nat) => x.nearestAt (k - (n + 1))).getD
    ⟨x.floorAt (k - 17), k - 17⟩

end Binary

end ContractSync.Decimal

/-!
## Written numbers

`Layout` records how a shortest decimal is written out: where positional notation ends and how an
exponent looks. `plain` is the one layout of this library.
-/

namespace ContractSync.Decimal

/-- How the digits of a number are laid out. -/
structure Layout where
  /-- The least number of digits before the point, negative for zeros after it, that is still
  written positionally. -/
  leastPoint : Int
  /-- The greatest number of digits before the point that is still written positionally. -/
  greatestPoint : Int
  /-- The least number of digits of an exponent. -/
  exponentDigits : Nat
  notANumber : String
  infinite : String

/-- Numbers from `0.0001` up to sixteen digits before the point are written positionally with at
least one place, others with a signed exponent of at least two digits. -/
def plain : Layout := ⟨-3, 16, 2, "nan", "inf"⟩

/-- The digits of a number without the zeros at its end. -/
def significant (digits : Nat) : List Char :=
  ((Nat.toDigits 10 digits).reverse.dropWhile (· == '0')).reverse

/-- The digits of `n`, at least `width` of them. -/
def padded (width n : Nat) : String :=
  let digits := Nat.toDigits 10 n
  String.ofList (List.replicate (width - digits.length) '0' ++ digits)

namespace Layout

/-- Writes the digits `cs` with the point after the first `point` of them. -/
def positional (cs : List Char) (point : Int) : List Char :=
  if point ≤ 0 then ['0', '.'] ++ List.replicate (-point).toNat '0' ++ cs
  else
    let whole := cs.take point.toNat
    let places := cs.drop point.toNat
    whole ++ List.replicate (point.toNat - cs.length) '0' ++ ['.']
      ++ if places.isEmpty then ['0'] else places

/-- Writes the digits `cs` with one digit before the point and the exponent behind. -/
def scientific (layout : Layout) (cs : List Char) (point : Int) : List Char :=
  let exponent := point - 1
  let lead :=
    match cs with
    | c :: d :: rest => c :: '.' :: d :: rest
    | _ => cs
  lead ++ ['e', if exponent < 0 then '-' else '+']
    ++ (padded layout.exponentDigits exponent.natAbs).toList

/-- Writes a finite number. -/
def writeFinite (layout : Layout) (x : Binary) : String :=
  let sign := if x.negative then ['-'] else []
  if x.mantissa = 0 then String.ofList (sign ++ ['0', '.', '0'])
  else
    let decimal := x.shortest
    let cs := significant decimal.digits
    let point : Int := (Nat.toDigits 10 decimal.digits).length + decimal.exponent
    String.ofList <| sign ++
      if layout.leastPoint ≤ point ∧ point ≤ layout.greatestPoint then positional cs point
      else layout.scientific cs point

/-- Writes the number that the bits of a double stand for. -/
def write (layout : Layout) (bits : UInt64) : String :=
  match Reading.ofBits bits with
  | .finite x => layout.writeFinite x
  | .infinite negative => (if negative then "-" else "") ++ layout.infinite
  | .notANumber => layout.notANumber

end Layout

/-! ### Reading -/

/-- The bits of the double next to `± digits · 10 ^ exponent`; far beyond the range the exact
exponent no longer matters. -/
def bitsOfDecimal (negative : Bool) (digits : Nat) (exponent : Int) : UInt64 :=
  let size : Int := (Nat.toDigits 10 digits).length + exponent
  let magnitude : Float :=
    if digits = 0 ∨ size < -400 then 0.0
    else if size > 400 then Float.ofScientific 1 false 400
    else if exponent < 0 then Float.ofScientific digits true exponent.natAbs
    else Float.ofScientific digits false exponent.natAbs
  (if negative then -magnitude else magnitude).toBits

end ContractSync.Decimal
