import FuzzwareAdapt.Manager
import Mathlib.Data.Int.Bitwise
import Mathlib.Data.List.Infix

/-!
# The crash filter (`crash_filter.py`)

`CrashFilter.__init__` reads two switches and an MMIO address region from the environment, falling
back to the configuration mapping, and `should_report` decides whether a crash is worth reporting.

A Python value is a `PyVal`: what `int()` and `isinstance(x, int)` make of it. `str.lower()` is
taken character by character with `Char.toLower`, which lowers the ASCII letters only. The words
the filter looks for (`timeout`, `hang`) are ASCII, and the only other characters whose lowercase
form holds an ASCII letter are `İ` (an `i` followed by a combining dot, so it never completes
`timeout`) and the Kelvin sign (`k`); so the test agrees with Python's on every string.

* `shouldReport_spec`: `should_report` raises exactly when MMIO suppression is on, the timeout rule
  has not fired, the report is not flagged MMIO, its address is an `int`, and `int()` rejects the
  stored mask or prefix. It returns `False` exactly when the timeout rule fires or the MMIO rule does.
  The timeout rule is a substring test: a reason that only contains `hang` inside another word
  (`change`) is suppressed too.
* `init_surjective`: every filter value is built by `__init__`, so the above covers every accepted
  configuration. `shouldReport_ne_none`: a region taken from the environment is converted by
  `__init__`, so only a mapping value that `int()` rejects makes `should_report` raise.
-/

namespace FuzzwareAdapt

/-- A Python value as the crash filter sees it. `isinstance(x, int)` holds of `int` and `bool`; a
`float` is finite; `other` is `None`, a non-finite float, or any other value `int()` rejects. -/
inductive PyVal
  | int (n : Int)
  | bool (b : Bool)
  | float (q : ℚ)
  | str (s : String)
  | other
  deriving DecidableEq

namespace PyVal

/-- `int(x)`, `none` where it raises: a float is truncated towards zero, a string is read in base
10. -/
def toInt : PyVal → Option Int
  | int n => some n
  | bool b => some (if b then 1 else 0)
  | float q => some (q.num.tdiv q.den)
  | str s => pyInt s.toList
  | other => none

/-- The value `&` sees where `isinstance(x, int)` holds: a `bool` is the `int` `0` or `1`. -/
def asInt : PyVal → Option Int
  | int n => some n
  | bool b => some (if b then 1 else 0)
  | _ => none

end PyVal

/-! ### `int(s, 0)` -/

/-- The value of `c` as a digit of `base` (at most 16), if it is one. -/
def digitValue (base : Nat) (c : Char) : Option Nat :=
  let v := if c.isDigit then c.toNat - 48 else if c.isAlpha then c.toLower.toNat - 87 else base
  if v < base then some v else none

/-- The digits of `base` after the first one, where a single `_` may separate two digits. -/
def parseDigitsIn (base : Nat) : List Char → Nat → Option Nat
  | [], acc => some acc
  | '_' :: d :: rest, acc => (digitValue base d).bind fun v => parseDigitsIn base rest (acc * base + v)
  | d :: rest, acc => (digitValue base d).bind fun v => parseDigitsIn base rest (acc * base + v)

/-- A non-empty run of digits of `base`. -/
def digitsIn (base : Nat) : List Char → Option Nat
  | d :: rest => (digitValue base d).bind (parseDigitsIn base rest)
  | [] => none

/-- The unsigned part of `int(s, 0)`: a `0x`, `0o` or `0b` prefix, which one `_` may follow, selects
the base; a decimal that starts with `0` must be zero. -/
def base0Digits : List Char → Option Nat
  | '0' :: p :: rest =>
    let body := match rest with
      | '_' :: r => r
      | r => r
    if p.toLower = 'x' then digitsIn 16 body
    else if p.toLower = 'o' then digitsIn 8 body
    else if p.toLower = 'b' then digitsIn 2 body
    else (pyDigits ('0' :: p :: rest)).filter (· = 0)
  | ds => pyDigits ds

/-- `int(s, 0)` on a string of ASCII characters: surrounding whitespace, an optional sign, and the
digits `base0Digits` reads. -/
def pyIntBase0 (s : List Char) : Option Int :=
  match (s.dropWhile isPySpace).reverse.dropWhile isPySpace |>.reverse with
  | '-' :: ds => (base0Digits ds).map fun n => -(n : Int)
  | '+' :: ds => (base0Digits ds).map Int.ofNat
  | ds => (base0Digits ds).map Int.ofNat

/-! ### The filter -/

/-- The settings `__init__` leaves. The region values are `int`s when they come from the
environment and kept as the mapping gives them otherwise. -/
structure CrashFilter where
  ignoreMmioFaults : Bool
  ignoreTimeout : Bool
  mmioPrefix : PyVal
  mmioMask : PyVal
  deriving DecidableEq

/-- The fields of `info` that `should_report` reads, each with the default of its `info.get`:
`str(info.get('reason', ''))`, `info.get('addr', None)` and `bool(info.get('is_mmio', False))`. -/
structure CrashReport where
  reason : String := ""
  addr : PyVal := .other
  isMmio : Bool := false

/-- `str.lower()`, character by character. -/
def lower (s : String) : List Char :=
  s.toList.map Char.toLower

/-- `sub in s` on strings: `sub` occurs in `s` as a contiguous run. -/
def pyIn (sub : String) (s : List Char) : Bool :=
  decide (sub.toList <:+: s)

/-- The timeout rule's test, `'timeout' in reason or 'hang' in reason` on the lowered reason. -/
def namesTimeout (reason : String) : Bool :=
  pyIn "timeout" (lower reason) || pyIn "hang" (lower reason)

/-- `w` is a whole word of the lowered `s`, a maximal run of letters: a stricter reading of a reason
that names a timeout than the substring test `should_report` makes. -/
def hasWord (s w : String) : Bool :=
  decide (w.toList ∈ (lower s).splitOnP fun c => !c.isAlpha)

namespace CrashFilter

section Init

variable (env : String → Option String) (cfg : String → Option PyVal)

/-- `int(env.get(key, cfg.get(name, d))) != 0`. -/
def switch (key name : String) (d : Int) : Option Bool :=
  (((env key).map PyVal.str).getD ((cfg name).getD (.int d))).toInt.map (· != 0)

/-- `int(env.get(key, cfg.get(name, d)), 0) if isinstance(env.get(key, None), str) else
cfg.get(name, d)`: a string from the environment is converted, a value of the mapping is kept. -/
def region (key name : String) (d : Int) : Option PyVal :=
  match env key with
  | some s => (pyIntBase0 s.toList).map .int
  | none => some ((cfg name).getD (.int d))

/-- `CrashFilter.__init__`, with `env` for `os.environ` and `cfg` for `cfg or {}`; `none` where it
raises. -/
def init : Option CrashFilter := do
  let ignoreMmioFaults ← switch env cfg "CF_IGNORE_MMIO_FAULTS" "ignore_mmio_faults" 1
  let ignoreTimeout ← switch env cfg "CF_IGNORE_TIMEOUT" "ignore_timeout" 1
  let mmioPrefix ← region env cfg "CF_ADDR_MMIO_PREFIX" "mmio_prefix" 0x40000000
  let mmioMask ← region env cfg "CF_ADDR_MMIO_MASK" "mmio_mask" 0xF0000000
  pure ⟨ignoreMmioFaults, ignoreTimeout, mmioPrefix, mmioMask⟩

end Init

/-- `should_report`: `some false` to suppress the report, `some true` to report it, `none` where
`int()` of a stored region value raises. -/
def shouldReport (f : CrashFilter) (info : CrashReport) : Option Bool :=
  if f.ignoreTimeout && namesTimeout info.reason then some false
  else if f.ignoreMmioFaults then
    if info.isMmio then some false
    else match info.addr.asInt with
      | some addr => f.mmioMask.toInt.bind fun mask => f.mmioPrefix.toInt.map fun pre =>
          Int.land addr mask != pre
      | none => some true
  else some true

/-! ### What `should_report` decides -/

private theorem regionTest_eq (addr : Int) (m p : Option Int) :
    ((m.bind fun mask => p.map fun pre => Int.land addr mask != pre) = none ↔ m = none ∨ p = none) ∧
    ((m.bind fun mask => p.map fun pre => Int.land addr mask != pre) = some false ↔
      ∃ mask, m = some mask ∧ p = some (Int.land addr mask)) := by
  cases m <;> cases p <;> simp
  exact eq_comm

/-- `should_report` raises only on an `int` address whose region test meets a stored value that
`int()` rejects, and suppresses exactly on the timeout rule (a substring test) or the MMIO rule. -/
theorem shouldReport_spec (f : CrashFilter) (info : CrashReport) :
    (f.shouldReport info = none ↔
      f.ignoreMmioFaults ∧ ¬(f.ignoreTimeout ∧ namesTimeout info.reason) ∧ info.isMmio = false ∧
        info.addr.asInt.isSome ∧ (f.mmioMask.toInt = none ∨ f.mmioPrefix.toInt = none)) ∧
    (f.shouldReport info = some false ↔
      f.ignoreTimeout ∧ namesTimeout info.reason ∨
        f.ignoreMmioFaults ∧ (info.isMmio ∨ ∃ addr mask, info.addr.asInt = some addr ∧
          f.mmioMask.toInt = some mask ∧ f.mmioPrefix.toInt = some (Int.land addr mask))) := by
  unfold shouldReport
  by_cases ht : f.ignoreTimeout = true ∧ namesTimeout info.reason = true
  · simp [ht]
  simp only [Bool.and_eq_true, ht, if_false, not_false_eq_true, true_and, false_or]
  cases f.ignoreMmioFaults
  · simp
  cases info.isMmio
  · cases info.addr.asInt with
    | none => simp
    | some addr => simpa using regionTest_eq addr f.mmioMask.toInt f.mmioPrefix.toInt
  · simp

/-- A mapping whose `mmio_prefix` is the string `"0x40000000"` is accepted and the string is
stored; `should_report` then raises on an `int` address, as `int()` reads the string in base 10.
And the reason `change` is suppressed by the timeout rule, though none of its words is `hang`. -/
theorem crash_triage_counterexample :
    let f : CrashFilter := ⟨true, true, .str "0x40000000", .int 0xF0000000⟩
    init (fun _ => none) (fun k => if k = "mmio_prefix" then some (.str "0x40000000") else none) =
        some f ∧
      f.shouldReport { reason := "sigsegv", addr := .int 0x20000000 } = none ∧
      hasWord "change" "hang" = false ∧ hasWord "change" "timeout" = false ∧
      f.shouldReport { reason := "change" } = some false := by
  decide

/-- `should_report` returns whenever `int()` accepts both stored region values. -/
theorem shouldReport_isSome {f : CrashFilter} (hm : f.mmioMask.toInt ≠ none)
    (hp : f.mmioPrefix.toInt ≠ none) (info : CrashReport) : (f.shouldReport info).isSome := by
  obtain ⟨mask, hm⟩ := Option.ne_none_iff_exists'.1 hm
  obtain ⟨pre, hp⟩ := Option.ne_none_iff_exists'.1 hp
  unfold shouldReport
  split_ifs
  all_goals try rfl
  cases info.addr.asInt <;> simp [hm, hp]

/-! ### What `__init__` stores -/

section Stored

variable {env : String → Option String} {cfg : String → Option PyVal}

/-- `__init__` succeeds exactly when each of its four reads does, and stores what they return. -/
theorem init_eq_some {f : CrashFilter} : init env cfg = some f ↔
    switch env cfg "CF_IGNORE_MMIO_FAULTS" "ignore_mmio_faults" 1 = some f.ignoreMmioFaults ∧
    switch env cfg "CF_IGNORE_TIMEOUT" "ignore_timeout" 1 = some f.ignoreTimeout ∧
    region env cfg "CF_ADDR_MMIO_PREFIX" "mmio_prefix" 0x40000000 = some f.mmioPrefix ∧
    region env cfg "CF_ADDR_MMIO_MASK" "mmio_mask" 0xF0000000 = some f.mmioMask := by
  cases f
  simp only [init, Option.bind_eq_bind, Option.bind_eq_some, Option.pure_def, Option.some.injEq, mk.injEq]
  constructor
  · rintro ⟨_, h1, _, h2, _, h3, _, h4, rfl, rfl, rfl, rfl⟩
    exact ⟨h1, h2, h3, h4⟩
  · rintro ⟨h1, h2, h3, h4⟩
    exact ⟨_, h1, _, h2, _, h3, _, h4, rfl, rfl, rfl, rfl⟩

/-- A region value read from the environment is an `int`, so `int()` accepts it; one from the
mapping is stored as the mapping gives it. -/
theorem region_toInt {key name : String} {d : Int} {v : PyVal} (h : region env cfg key name d = some v)
    (hv : env key ≠ none ∨ ((cfg name).getD (.int d)).toInt ≠ none) : v.toInt ≠ none := by
  unfold region at h
  cases he : env key with
  | none => simp_all
  | some s =>
    obtain ⟨n, -, rfl⟩ := Option.map_eq_some'.1 (he ▸ h)
    simp [PyVal.toInt]

/-- Every filter value is built by `__init__`: the switches from `bool` entries of the mapping, the
region values as the mapping gives them. -/
theorem init_surjective (f : CrashFilter) : ∃ env cfg, init env cfg = some f := by
  refine ⟨fun _ => none, fun k => if k = "ignore_mmio_faults" then some (.bool f.ignoreMmioFaults)
    else if k = "ignore_timeout" then some (.bool f.ignoreTimeout)
    else if k = "mmio_prefix" then some f.mmioPrefix else some f.mmioMask, ?_⟩
  rw [init_eq_some]
  cases f.ignoreMmioFaults <;> cases f.ignoreTimeout <;> simp [switch, region, PyVal.toInt]

/-- A region taken from the environment, or a mapping value `int()` accepts, keeps `should_report`
from raising. -/
theorem shouldReport_ne_none {f : CrashFilter} (h : init env cfg = some f)
    (hp : env "CF_ADDR_MMIO_PREFIX" ≠ none ∨ ((cfg "mmio_prefix").getD (.int 0x40000000)).toInt ≠ none)
    (hm : env "CF_ADDR_MMIO_MASK" ≠ none ∨ ((cfg "mmio_mask").getD (.int 0xF0000000)).toInt ≠ none)
    (info : CrashReport) : f.shouldReport info ≠ none := by
  obtain ⟨-, -, h3, h4⟩ := init_eq_some.1 h
  exact Option.ne_none_iff_isSome.2 (shouldReport_isSome (region_toInt h4 hm) (region_toInt h3 hp) info)

end Stored

end CrashFilter

end FuzzwareAdapt
