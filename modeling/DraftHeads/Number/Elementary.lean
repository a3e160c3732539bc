import DraftHeads.Number.Format

/-! # Elementary functions in fixed point

Every function here takes a datum and gives a datum that is far closer to the true value than any
format can tell, so that the word nearest to it is the correctly rounded word; the functions of a
platform may be some units in the last place away from that. A *fixed point* number is an integer
counted in units of `2^-scale`; the series are summed in fixed point, each until its terms vanish.

* `exp`, `log`, `sin`, `erf`: the functions of the same name.
* `halfPower`: `x` maps to `2^-x`. -/

namespace DraftHeads.Number.Elementary

/-- The number of fractional bits of a fixed point number. -/
def scale : Nat := 256

/-- One in fixed point. -/
def unit : Nat := 1 <<< scale

/-- Sums `term`, `step k term`, `step (k + 1) (step k term)`, … until a term vanishes, at most `n`
terms. -/
def sumSeries (step : Nat → Int → Int) : (n k : Nat) → (term acc : Int) → Int
  | 0, _, _, acc => acc
  | n + 1, k, term, acc =>
    if term = 0 then acc else sumSeries step n (k + 1) (step k term) (acc + term)

/-- The series of odd powers `z + σ z³ / 3 + z⁵ / 5 + …`, its signs alternating if `alternate`. -/
def oddPowers (alternate : Bool) (z : Int) : Int :=
  let square := z * z / unit
  let rec go : (n k : Nat) → (power acc : Int) → Int
    | 0, _, _, acc => acc
    | n + 1, k, power, acc =>
      if power = 0 then acc
      else
        let next := Int.tdiv (power * square) unit
        go n (k + 2) (if alternate then -next else next) (acc + Int.tdiv power k)
  go (2 * scale) 1 z 0

/-- The natural logarithm of two, `2 artanh (1/3)`. -/
def ln2 : Int := 2 * oddPowers false (unit / 3)

/-- Half a turn, `16 arctan (1/5) - 4 arctan (1/239)`. -/
def pi : Int := 16 * oddPowers true (unit / 5) - 4 * oddPowers true (unit / 239)

/-- Two divided by the square root of `pi`. -/
def twoOverSqrtPi : Int := 2 * unit * unit / (Nat.sqrt (pi.toNat * unit) : Nat)

/-- The fixed point number nearest below `m · 2^e` in magnitude. -/
def fixed (negative : Bool) (m : Nat) (e : Int) : Int :=
  let shift := e + scale
  let magnitude : Nat := if 0 ≤ shift then m <<< shift.toNat else m >>> (-shift).toNat
  if negative then -magnitude else magnitude

/-- The datum of a fixed point number times `2^e`. -/
def ofFixed (x e : Int) : Datum := .finite (x < 0) x.natAbs (e - scale)

/-- `2^k` times the exponential of a fixed point number between zero and `ln2`. -/
def expFixed (r k : Int) : Datum :=
  ofFixed (sumSeries (fun n t => t * r / unit / (n + 1)) (2 * scale) 0 unit 0) k

/-- Beyond this bound the exponential leaves every format on one side or the other. -/
def expBound : Int := 4096

/-- The exponential of a fixed point number. -/
def expOfFixed (x : Int) : Datum :=
  if expBound * unit < x then .infinite false
  else if x < -expBound * unit then .finite false 1 (-2 * expBound)
  else expFixed (x % ln2) (x / ln2)

/-- Is `m · 2^e` at least two to the power `bits`? -/
def large (m : Nat) (e : Int) (bits : Nat) : Bool := m != 0 && decide ((bits : Int) ≤ m.log2 + e)

/-- Is `m · 2^e` so small that its square is lost beside one? -/
def tiny (m : Nat) (e : Int) : Bool := m == 0 || decide ((m.log2 : Int) + e < -100)

/-- The exponential function. -/
def exp : Datum → Datum
  | .nan s => .nan s
  | .infinite true => .finite false 0 0
  | .infinite false => .infinite false
  | .finite s m e =>
    if large m e 16 then if s then .finite false 1 (-2 * expBound) else .infinite false
    else expOfFixed (fixed s m e)

/-- `x` maps to `2^-x`. -/
def halfPower : Datum → Datum
  | .nan s => .nan s
  | .infinite true => .infinite false
  | .infinite false => .finite false 0 0
  | .finite s m e =>
    if large m e 16 then if s then .infinite false else .finite false 1 (-2 * expBound)
    else expOfFixed (-(fixed s m e) * ln2 / unit)

/-- The natural logarithm. The argument is brought between one and two by a power of two, and the
logarithm of the rest is `2 artanh ((y - 1) / (y + 1))`. -/
def log : Datum → Datum
  | .nan s => .nan s
  | .infinite true => .nan false
  | .infinite false => .infinite false
  | .finite s m e =>
    if m = 0 then .infinite true
    else if s then .nan false
    else
      let k := m.log2
      let y : Int := fixed false m (-k)
      ofFixed (2 * oddPowers false ((y - unit) * unit / (y + unit)) + ((k : Int) + e) * ln2) 0

/-- The sine of a fixed point number of at most an eighth of a turn, by its power series. -/
def sinFixed (r : Int) : Int :=
  let square := r * r / unit
  sumSeries (fun n t => -(Int.tdiv (Int.tdiv (t * square) unit) ((2 * n + 2) * (2 * n + 3))))
    scale 0 r 0

/-- The cosine of such a number. -/
def cosFixed (r : Int) : Int :=
  let square := r * r / unit
  sumSeries (fun n t => -(Int.tdiv (Int.tdiv (t * square) unit) ((2 * n + 1) * (2 * n + 2))))
    scale 0 unit 0

/-- The sine. The angle is brought within an eighth of a turn of a multiple of a quarter turn. -/
def sin : Datum → Datum
  | .nan s => .nan s
  | .infinite _ => .nan false
  | .finite s m e =>
    let x := fixed s m e
    let quarter := (4 * x + pi) / (2 * pi)
    let r := x - quarter * pi / 2
    if tiny m e then .finite s m e
    else
      match (quarter % 4).toNat with
      | 0 => ofFixed (sinFixed r) 0
      | 1 => ofFixed (cosFixed r) 0
      | 2 => ofFixed (-(sinFixed r)) 0
      | _ => ofFixed (-(cosFixed r)) 0

/-- The error function, `2 / √π · exp (-x²) · (x + 2 x³ / 3 + 4 x⁵ / 15 + …)`; beyond eight it is
one in every format. -/
def erf : Datum → Datum
  | .nan s => .nan s
  | .infinite s => .finite s 1 0
  | .finite s m e =>
    if large m e 3 then .finite s 1 0
    else if tiny m e then .finite s (m * twoOverSqrtPi.toNat) (e - scale)
    else
      let x := fixed false m e
      let square := x * x / unit
      let sum := sumSeries (fun n t => 2 * t * square / (unit * (2 * n + 3))) (4 * scale) 0 x 0
      match expOfFixed (-square) with
      | .finite _ m' e' => .finite s (m' * (sum * twoOverSqrtPi / unit).toNat) (e' - scale)
      | _ => .finite s 1 0

end DraftHeads.Number.Elementary
