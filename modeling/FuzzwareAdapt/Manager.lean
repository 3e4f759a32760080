import Mathlib.Algebra.Order.Field.Rat
import Mathlib.Data.List.Basic

/-!
# The adaptive IRQ manager

`AdaptiveIRQManager` of `adapt/adaptive_irq.py`: the tunables, the candidate lines resolved once at
construction, the per-line statistics `irq_stats`, the timing gates, the epsilon-greedy `_pick_irq`
and the attempt `fire_one_irq`.

`time.monotonic()` is read from the platform's nanosecond counter, so every clock reading is an
integer number of nanoseconds here, and each constant of the source in seconds or milliseconds is
scaled to them: `(now - t) * 1000.0 >= ms` is `ms * 1000000 ≤ now - t`.  A method that reads the
clock takes the reading as an argument; `fire_one_irq` reads it three times (`FireClock`).
-/

namespace FuzzwareAdapt

/-! ### Configuration and name resolution -/

/-- An entry of `irq_whitelist` or `irq_blacklist`: `_normalize_irq_list` keeps ints, resolves
strings and drops anything else. -/
inductive Item
  | int (n : Int)
  | str (s : String)
  | other

/-- The keys of `cfg` the manager reads, each with the default of its `cfg.get`.  An absent or empty
`irq_whitelist` is falsy alike, so both are `[]`. -/
structure Config where
  warmupSec : Int := 1200
  stallMs : Int := 1500
  minBetweenIrqsMs : Int := 300
  cooldownMs : Int := 4000
  epsilon : ℚ := 1 / 5
  irqWhitelist : List Item := []
  irqBlacklist : List Item := []
  maxIrq : Int := 64

/-- What `getattr(obj, name, None)` finds on the host: nothing callable (`none`), or a callable
that returns normally on the lines where it gives `true` and raises on the others (an attribute
access that raises behaves as the latter under the source's `try`). -/
abbrev Method := Option (Int → Bool)

/-- The methods `_raise_irq` looks for on `uc.nvic`. -/
structure Nvic where
  setPending : Method
  raiseIrq : Method
  triggerIrq : Method

/-- The host object `uc`, as far as the manager uses it: `nvic` is `none` when `hasattr` fails and
`some none` when reading the attribute raises; `irqNameToNum` is the optional resolver, giving
`none` where it raises or returns what `int()` refuses. -/
structure Host where
  nvic : Option (Option Nvic)
  setPendingIrq : Method
  raiseIrq : Method
  triggerIrq : Method
  irq : Method
  irqNameToNum : Option (String → Option Int)

/-- A host with none of the capabilities. -/
def Host.bare : Host := ⟨none, none, none, none, none, none⟩

/-- Python's `str.isspace` on the ASCII range, as `int()` strips it. -/
def isPySpace (c : Char) : Bool :=
  c = ' ' || c = '\t' || c = '\n' || c = '\r' || c.toNat = 11 || c.toNat = 12 ||
    (28 ≤ c.toNat && c.toNat ≤ 31)

/-- The digits after the first one, where a single `_` may separate two digits. -/
def parseDigits : List Char → Nat → Option Nat
  | [], acc => some acc
  | '_' :: d :: rest, acc => if d.isDigit then parseDigits rest (acc * 10 + (d.toNat - 48)) else none
  | d :: rest, acc => if d.isDigit then parseDigits rest (acc * 10 + (d.toNat - 48)) else none

/-- A non-empty run of decimal digits. -/
def pyDigits : List Char → Option Nat
  | d :: rest => if d.isDigit then parseDigits rest (d.toNat - 48) else none
  | [] => none

/-- `int(s)` on a string of ASCII characters: surrounding whitespace, an optional sign, digits. -/
def pyInt (s : List Char) : Option Int :=
  match (s.dropWhile isPySpace).reverse.dropWhile isPySpace |>.reverse with
  | '-' :: ds => (pyDigits ds).map fun n => -(n : Int)
  | '+' :: ds => (pyDigits ds).map Int.ofNat
  | ds => (pyDigits ds).map Int.ofNat

/-- `_resolve_irq_name`: the host's resolver when it answers, else the `IRQxx` pattern. -/
def resolveIrqName (uc : Host) (name : String) : Option Int :=
  match uc.irqNameToNum.bind (· name) with
  | some n => some n
  | none =>
    if (name.toList.take 3).map Char.toUpper = ['I', 'R', 'Q'] then pyInt (name.toList.drop 3)
    else none

/-- `_normalize_irq_list`. -/
def normalizeIrqList (uc : Host) (items : List Item) : List Int :=
  items.filterMap fun
    | .int n => some n
    | .str s => resolveIrqName uc s
    | .other => none

/-- `_enumerate_irq_lines`: the whitelist when it is non-empty, else `range(max_irq)`, without
the blacklisted lines. -/
def enumerateIrqLines (cfg : Config) (uc : Host) : List Int :=
  let bl := normalizeIrqList uc cfg.irqBlacklist
  let base := if cfg.irqWhitelist.isEmpty then (List.range cfg.maxIrq.toNat).map Int.ofNat
    else normalizeIrqList uc cfg.irqWhitelist
  base.filter fun n => n ∉ bl

/-! ### Per-line statistics -/

/-- The record `irq_stats` holds for a line. -/
structure IrqStat where
  tries : Nat
  wins : Nat
  coolUntil : Int
  deriving DecidableEq

/-- `{"tries": 0, "wins": 0, "cool_until": 0.0}`. -/
def IrqStat.fresh : IrqStat := ⟨0, 0, 0⟩

/-- The dict comprehension `{n: {...} for n in self.irq_list}`, the dict kept as its items in
insertion order: a repeated line keeps its first place, with the same fresh record. -/
def initStats (lines : List Int) : List (Int × IrqStat) :=
  lines.foldl (fun d n => if n ∈ d.map Prod.fst then d else d ++ [(n, IrqStat.fresh)]) []

/-- `irq_stats[n]` (a missing key, which no path of the manager asks for, reads as fresh). -/
def lookupStat : List (Int × IrqStat) → Int → IrqStat
  | [], _ => IrqStat.fresh
  | (k, s) :: d, n => if k = n then s else lookupStat d n

/-- An in-place update of `irq_stats[n]`. -/
def modifyStat : List (Int × IrqStat) → Int → (IrqStat → IrqStat) → List (Int × IrqStat)
  | [], _, _ => []
  | (k, s) :: d, n, f => (k, if k = n then f s else s) :: modifyStat d n f

/-! ### The manager -/

/-- The state of an `AdaptiveIRQManager`.  `take_over_systick` is read but never used, and `emu`
is not kept, so both are left out. -/
structure AdaptiveIRQManager where
  warmupSec : Int
  stallMs : Int
  minBetweenIrqsMs : Int
  baseCooldownMs : Int
  epsilon : ℚ
  uc : Host
  startTs : Int
  lastProgress : Int
  lastIrqTs : Int
  irqList : List Int
  irqStats : List (Int × IrqStat)
  lastWaitPc : Option Int

/-- The two clock readings `__init__` takes: `start_ts`, then `_last_progress`. -/
def AdaptiveIRQManager.init (cfg : Config) (uc : Host) (t₀ t₁ : Int) : AdaptiveIRQManager where
  warmupSec := cfg.warmupSec
  stallMs := cfg.stallMs
  minBetweenIrqsMs := cfg.minBetweenIrqsMs
  baseCooldownMs := cfg.cooldownMs
  epsilon := cfg.epsilon
  uc := uc
  startTs := t₀
  lastProgress := t₁
  lastIrqTs := 0
  irqList := enumerateIrqLines cfg uc
  irqStats := initStats (enumerateIrqLines cfg uc)
  lastWaitPc := none

/-- `float(x)` of an int, which `int / float` makes: CPython rounds to 53 bits, half to even, and
raises `OverflowError` when the result reaches `2 ** 1024`, that is from `2 ** 1024 - 2 ** 970` on
(written with shifts, which evaluate at any width). -/
def floatOverflows (x : Int) : Bool :=
  decide (1 <<< 1024 - 1 <<< 970 ≤ x.natAbs)

/-- The random draws `_pick_irq` may make: `random.random()`, and the index `random.choice` takes
(reduced modulo the number of candidates). -/
structure Draw where
  r : ℚ
  idx : Nat

/-- The clock readings of one `fire_one_irq`: in `_pick_irq`, in `_made_progress_recently` after
the grace sleep, and in the backoff. -/
structure FireClock where
  pick : Int
  check : Int
  cool : Int

/-- The lines `_pick_irq` chooses from: those not cooling down at `now`, in dict order. -/
def candidates (d : List (Int × IrqStat)) (now : Int) : List Int :=
  (d.filter fun e => e.2.coolUntil ≤ now).map Prod.fst

/-- `score` in `_pick_irq`: the empirical success rate. -/
def score (d : List (Int × IrqStat)) (n : Int) : ℚ :=
  ((lookupStat d n).wins : ℚ) / ((max 1 (lookupStat d n).tries : Nat) : ℚ)

/-- Python's `max(xs, key=f)`: a later element replaces the current one only when its key is
strictly greater, so the first maximal element wins. -/
def maxBy {α : Type} (f : α → ℚ) : List α → Option α
  | [] => none
  | a :: l => some (l.foldl (fun b x => if f b < f x then x else b) a)

namespace AdaptiveIRQManager

variable (m : AdaptiveIRQManager)

/-- `ready`: the warm-up has elapsed. -/
def ready (now : Int) : Bool :=
  decide (m.warmupSec * 1000000000 ≤ now - m.startTs)

/-- `notify_progress`. -/
def notifyProgress (now : Int) : AdaptiveIRQManager :=
  { m with lastProgress := now }

/-- `should_try_irq`: stalled for `stall_ms` and `min_between_irqs_ms` since the last IRQ. -/
def shouldTryIrq (now : Int) : Bool :=
  decide (m.stallMs * 1000000 ≤ now - m.lastProgress) &&
    decide (m.minBetweenIrqsMs * 1000000 ≤ now - m.lastIrqTs)

/-- `on_irq_fired`. -/
def onIrqFired (now : Int) : AdaptiveIRQManager :=
  { m with lastIrqTs := now }

/-- `saw_wait_at`: a new wait site counts as progress. -/
def sawWaitAt (pc now : Int) : AdaptiveIRQManager :=
  if m.lastWaitPc ≠ some pc then { m.notifyProgress now with lastWaitPc := some pc } else m

/-- `_made_progress_recently`: progress within the last 0.10 s. -/
def madeProgressRecently (now : Int) : Bool :=
  decide (now - m.lastProgress < 100000000)

/-- `_pick_irq`: `none` when every line cools down; else a random candidate with probability
`epsilon`, and otherwise the first candidate of highest score. -/
def pickIrq (now : Int) (d : Draw) : Option Int :=
  match candidates m.irqStats now with
  | [] => none
  | cs => if d.r < m.epsilon then cs[d.idx % cs.length]? else maxBy (score m.irqStats) cs

/-- `_raise_irq`: the first callable method of `uc.nvic`, when it returns; else any of the
fallback methods of `uc` that returns, each tried in turn. -/
def raiseIrq (irqn : Int) : Bool :=
  (match m.uc.nvic with
    | some (some nv) =>
      ([nv.setPending, nv.raiseIrq, nv.triggerIrq].findSome? id).any (· irqn)
    | _ => false) ||
  [m.uc.setPendingIrq, m.uc.raiseIrq, m.uc.triggerIrq, m.uc.irq].any (·.any (· irqn))

/-- `cooldown` of a failed attempt, in milliseconds: `base_cooldown_ms * 2 ** max(0, fails - 1)`
with `fails = tries - wins`, on the record whose try is already counted. -/
def cooldown (s : IrqStat) : Int := m.baseCooldownMs * 2 ^ (s.tries - s.wins - 1)

/-- What one attempt does to the chosen line's record: one more try, then a win, or the
exponential backoff `cool_until = now + cooldown / 1000.0`; when `cooldown / 1000.0` raises, the
record keeps its `cool_until`. -/
def attempt (won : Bool) (now : Int) (s : IrqStat) : IrqStat :=
  let s := { s with tries := s.tries + 1 }
  if won then { s with wins := s.wins + 1 }
  else if floatOverflows (m.cooldown s) then s
  else { s with coolUntil := now + m.cooldown s * 1000000 }

/-- Whether an attempt on the record `s` raises: it failed, and its `cooldown / 1000.0` overflows. -/
def attemptRaises (won : Bool) (s : IrqStat) : Bool :=
  !won && floatOverflows (m.cooldown { s with tries := s.tries + 1 })

/-- `fire_one_irq`: what `_raise_irq` returned, or the `OverflowError` of the backoff, raised after
the interrupt and the try; and the manager after the attempt, which Python keeps either way. -/
def fireOneIrq (d : Draw) (c : FireClock) : Except String Bool × AdaptiveIRQManager :=
  match m.pickIrq c.pick d with
  | none => (.ok false, m)
  | some irqn =>
    (if m.attemptRaises (m.madeProgressRecently c.check) (lookupStat m.irqStats irqn) then
        .error "OverflowError: int too large to convert to float"
      else .ok (m.raiseIrq irqn),
      { m with irqStats := modifyStat m.irqStats irqn (m.attempt (m.madeProgressRecently c.check) c.cool) })

end AdaptiveIRQManager

end FuzzwareAdapt
