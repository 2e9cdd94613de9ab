/-!
# Shortest decimals

A positive double stands for an interval of real numbers, those that are rounded
to it. Of all decimals in the interval we take one with the fewest digits, and of
those the one nearest to the double. All comparisons are between whole numbers.
-/
namespace CTree.Decimal

/-- A positive double `4 * m * 2 ^ q`, and the interval that is rounded to it, in
units of `2 ^ q`. -/
structure Interval where
  low : Nat
  value : Nat
  high : Nat
  /-- The exponent of the unit. -/
  q : Int
  /-- The ends belong to the interval. -/
  closed : Bool
  deriving Repr

/-- The interval of a double from its bits, without the sign. The gap below a power
of two is half as wide as the one above it. -/
def Interval.ofBits (bits : UInt64) : Interval :=
  let fraction := bits.toNat % Nat.pow 2 52
  let exponent := bits.toNat / Nat.pow 2 52 % Nat.pow 2 11
  let m : Nat := if exponent = 0 then fraction else fraction + Nat.pow 2 52
  { low := if fraction = 0 ∧ 1 < exponent then 4 * m - 1 else 4 * m - 2
    value := 4 * m
    high := 4 * m + 2
    q := ((max exponent 1 : Nat) : Int) - 1077
    closed := m % 2 = 0 }

/-- The decimal `digits * 10 ^ exponent`. -/
structure Digits where
  digits : Nat
  exponent : Int
  deriving Repr, DecidableEq

/-- The number `n * 2 ^ q` as a numerator over a denominator. -/
def binary (n : Nat) (q : Int) : Nat × Nat :=
  if 0 ≤ q then (n * Nat.pow 2 q.natAbs, 1) else (n, Nat.pow 2 q.natAbs)

/-- Compares `n * 10 ^ e` with `m * 2 ^ q`. -/
def compare (n : Nat) (e : Int) (m : Nat) (q : Int) : Ordering :=
  let (num, den) := binary m q
  if 0 ≤ e then Ord.compare (n * Nat.pow 10 e.natAbs * den) num
  else Ord.compare (n * den) (num * Nat.pow 10 e.natAbs)

namespace Interval

def contains (i : Interval) (d : Digits) : Bool :=
  let below := compare d.digits d.exponent i.low i.q
  let above := compare d.digits d.exponent i.high i.q
  (below == .gt || i.closed && below == .eq) && (above == .lt || i.closed && above == .eq)

/-- The decimal place of the first digit of the value: the value is less than
`10 ^ place`, and not less than a tenth of it. -/
def place (i : Interval) : Int :=
  let guess : Int := (Nat.log2 i.value + i.q) * 30103 / 100000
  if compare 1 guess i.value i.q == .gt then guess
  else if compare 1 (guess + 1) i.value i.q == .gt then guess + 1
  else guess + 2

/-- The multiples of `10 ^ e` next to the value, the lower one first. -/
def lowerNeighbour (i : Interval) (e : Int) : Nat :=
  let (num, den) := binary i.value i.q
  if 0 ≤ e then num / (den * Nat.pow 10 e.natAbs) else num * Nat.pow 10 e.natAbs / den

/-- The nearer of two neighbours on a decimal grid; of two equally near ones the
even one. -/
def lowerIsNearer (i : Interval) (e : Int) (n : Nat) : Bool :=
  match compare (2 * n + 1) e (2 * i.value) i.q with
  | .gt => true
  | .lt => false
  | .eq => n % 2 = 0

/-- A decimal of at most so many digits that lies in the interval. -/
def withDigits? (i : Interval) (count : Nat) : Option Digits :=
  let e := i.place - count
  let n := i.lowerNeighbour e
  match i.contains ⟨n, e⟩, i.contains ⟨n + 1, e⟩ with
  | true, true => some ⟨if i.lowerIsNearer e n then n else n + 1, e⟩
  | true, false => some ⟨n, e⟩
  | false, true => some ⟨n + 1, e⟩
  | false, false => none

/-- Seventeen digits always suffice. -/
def shortest (i : Interval) : Digits :=
  ((List.range 17).findSome? fun k => i.withDigits? (k + 1)).getD
    ⟨i.lowerNeighbour (i.place - 17), i.place - 17⟩

end Interval

/-- The same decimal without zeros at the end. -/
def Digits.trim (d : Digits) : Digits :=
  go 17 d
where
  go : Nat → Digits → Digits
    | 0, d => d
    | fuel + 1, d => if d.digits % 10 = 0 then go fuel ⟨d.digits / 10, d.exponent + 1⟩ else d

/-- How a decimal is laid out. -/
structure Layout where
  /-- The least and the greatest place of the point, counted from the first digit,
  for which no power of ten is written. -/
  leastPlace : Int
  greatestPlace : Int
  /-- What ends a whole number that is written without a power of ten. -/
  wholeMark : String
  /-- What stands before a power of ten, and the sign of one that is not negative. -/
  powerMark : String
  powerSign : String

/-- The text of a power of ten after its mark. -/
def Layout.power (layout : Layout) (exponent : Int) : String :=
  (if exponent < 0 then "-" else layout.powerSign) ++ toString exponent.natAbs

/-- Lays out a decimal whose last digit is not zero. -/
def Layout.write (layout : Layout) (d : Digits) : String :=
  let digits := (Nat.toDigits 10 d.digits)
  let place : Int := digits.length + d.exponent
  let text := String.ofList
  let zeros (n : Int) := List.replicate n.toNat '0'
  if layout.leastPlace ≤ place ∧ place ≤ layout.greatestPlace then
    if 0 ≤ d.exponent then text (digits ++ zeros d.exponent) ++ layout.wholeMark
    else if 0 < place then
      text (digits.take place.toNat) ++ "." ++ text (digits.drop place.toNat)
    else "0." ++ text (zeros (-place) ++ digits)
  else
    let power := layout.powerMark ++ layout.power (place - 1)
    match digits with
    | first :: second :: others =>
      text [first] ++ "." ++ text (second :: others) ++ power
    | _ => text digits ++ power

/-- The text of a finite double. -/
def Layout.writeDouble (layout : Layout) (x : Float) : String :=
  let bits := x.toBits
  let sign := if bits.toNat / Nat.pow 2 63 = 1 then "-" else ""
  if bits.toNat % Nat.pow 2 63 = 0 then sign ++ "0" ++ layout.wholeMark
  else sign ++ layout.write (Interval.ofBits bits).shortest.trim

end CTree.Decimal
