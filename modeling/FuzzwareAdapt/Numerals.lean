import FuzzwareAdapt.CrashFilter
import Mathlib.Data.Nat.Digits

/-!
# Numerals read back

The harness reads numbers from text with `int()`: a line number after `IRQ` in `_resolve_irq_name`,
the MMIO region of `CF_ADDR_MMIO_PREFIX` and `CF_ADDR_MMIO_MASK` with `int(s, 0)`. The text comes
from Python's own renderings, `str`, `hex`, `oct`, `bin`, and the basic-block logger writes the PC
as `0x%08x`. This module shows that the model's readers take every such rendering back to the number
it renders, against core's `Nat.toDigits`, which writes the digits as Python does (lowercase
letters, no leading zero).

* `pyIntBase0_pyRender`: `int(s, 0)` reads back `str(n)`, `hex(n)`, `oct(n)` and `bin(n)` of every
  integer `n`, with any whitespace around it; so `init_environment_readback`: `CrashFilter.__init__`
  reads back every configuration a launcher writes into the environment with these renderings.
* `resolveIrqName_irq`: `IRQ` followed by `str(n)`, with the three letters in either case, resolves
  to `n` on a host whose own resolver is absent or fails on the name; so `init_irq_names`: naming the
  lines of `irq_whitelist` and `irq_blacklist` that way builds the same manager as listing their
  numbers.
* `pcCell_readback`: `int(cell, 0)` on the logger's PC cell gives back what `_read_pc` read, and
  rejects the `NA` written for a failed read.
-/

namespace FuzzwareAdapt

/-! ### Characters -/

theorem isDigit_iff (c : Char) : c.isDigit ↔ 48 ≤ c.toNat ∧ c.toNat ≤ 57 := by
  simp [Char.isDigit, UInt32.le_def, BitVec.le_def, Char.toNat, UInt32.toNat]

theorem isAlpha_iff (c : Char) :
    c.isAlpha ↔ (65 ≤ c.toNat ∧ c.toNat ≤ 90) ∨ (97 ≤ c.toNat ∧ c.toNat ≤ 122) := by
  simp [Char.isAlpha, Char.isUpper, Char.isLower, UInt32.le_def, BitVec.le_def, Char.toNat,
    UInt32.toNat]

theorem toLower_toNat_of_upper {c : Char} (h : 65 ≤ c.toNat ∧ c.toNat ≤ 90) :
    c.toLower.toNat = c.toNat + 32 := by
  have hv : (c.toNat + 32).isValidChar := Or.inl (by omega)
  rw [Char.toLower, if_pos h, Char.ofNat, dif_pos hv]
  simp [Char.ofNatAux, Char.toNat, UInt32.toNat]

/-- In base 10 `digitValue` is the `isDigit` test of `int(s)`: a letter is worth at least 10. -/
theorem digitValue_ten (c : Char) :
    digitValue 10 c = if c.isDigit then some (c.toNat - 48) else none := by
  unfold digitValue
  by_cases hd : c.isDigit
  · have := (isDigit_iff c).1 hd
    simp only [hd, if_true]
    rw [if_pos (by omega)]
  · by_cases ha : c.isAlpha
    · have hl : 97 ≤ c.toLower.toNat := by
        rcases (isAlpha_iff c).1 ha with hu | hl
        · rw [toLower_toNat_of_upper hu]; omega
        · rw [Char.toLower, if_neg (by omega)]; exact hl.1
      simp only [hd, ha, if_true, if_false, Bool.false_eq_true]
      rw [if_neg (by omega)]
    · simp [hd, ha]

/-- A smaller base accepts the digits of base 16 that lie below it. -/
theorem digitValue_lt (b : Nat) (hb : b ≤ 16) (c : Char) :
    digitValue b c = (digitValue 16 c).filter (· < b) := by
  have key : ∀ v, (if v < b then some v else none) = (if v < 16 then some v else none).filter (· < b) := by
    intro v; by_cases h : v < b <;> by_cases h' : v < 16 <;> simp [h, h', Option.filter]; omega
  unfold digitValue
  split_ifs
  · exact key _
  · exact key _
  · simp

private theorem digitChar_facts : ∀ v : Fin 16, digitValue 16 (Nat.digitChar v) = some v.val ∧
    Nat.digitChar v ≠ '_' ∧ (Nat.digitChar v = '0' → v.val = 0) ∧ isPySpace (Nat.digitChar v) = false ∧
    Nat.digitChar v ≠ '-' ∧ Nat.digitChar v ≠ '+' := by
  decide

private theorem digitChar_spec {v : Nat} (hv : v < 16) : digitValue 16 (Nat.digitChar v) = some v ∧
    Nat.digitChar v ≠ '_' ∧ (Nat.digitChar v = '0' → v = 0) ∧ isPySpace (Nat.digitChar v) = false ∧
    Nat.digitChar v ≠ '-' ∧ Nat.digitChar v ≠ '+' :=
  digitChar_facts ⟨v, hv⟩

theorem digitValue_digitChar {b v : Nat} (hb : b ≤ 16) (hv : v < b) :
    digitValue b (Nat.digitChar v) = some v := by
  rw [digitValue_lt b hb, (digitChar_spec (v := v) (by omega)).1]
  simp [hv]

/-! ### The digit readers -/

/-- `int(s)` and `int(s, 0)` read decimal digits alike. -/
theorem parseDigits_eq (cs : List Char) (acc : Nat) : parseDigits cs acc = parseDigitsIn 10 cs acc := by
  induction cs, acc using parseDigitsIn.induct 10 with
  | case1 acc => rfl
  | case2 d rest acc ih =>
    rw [parseDigits, parseDigitsIn, digitValue_ten]
    split <;> simp [ih]
  | case3 d rest acc hne ih =>
    rw [parseDigits.eq_3 _ _ _ hne, parseDigitsIn.eq_3 _ _ _ _ hne, digitValue_ten]
    split <;> simp [ih]

theorem pyDigits_eq (cs : List Char) : pyDigits cs = digitsIn 10 cs := by
  cases cs with
  | nil => rfl
  | cons d rest =>
    rw [pyDigits, digitsIn, digitValue_ten]
    split <;> simp [parseDigits_eq]

/-- The value of digits `vs`, most significant first. -/
theorem parseDigitsIn_digitChars {b : Nat} (hb : b ≤ 16) (rest : List Char) :
    ∀ (vs : List Nat) (acc : Nat), (∀ v ∈ vs, v < b) →
      parseDigitsIn b (vs.map Nat.digitChar ++ rest) acc =
        parseDigitsIn b rest (vs.foldl (fun a v => a * b + v) acc)
  | [], _, _ => rfl
  | v :: vs, acc, h => by
    have hv := h v (List.mem_cons_self _ _)
    have hne := (digitChar_spec (v := v) (by omega)).2.1
    rw [List.map_cons, List.cons_append, parseDigitsIn.eq_3 _ _ _ _ fun _ _ h _ => hne h,
      digitValue_digitChar hb hv, Option.some_bind, List.foldl_cons]
    exact parseDigitsIn_digitChars hb rest vs _ fun w hw => h w (List.mem_cons_of_mem _ hw)

theorem digitsIn_digitChars {b : Nat} (hb : b ≤ 16) {vs : List Nat} (hne : vs ≠ []) (h : ∀ v ∈ vs, v < b) :
    digitsIn b (vs.map Nat.digitChar) = some (vs.foldl (fun a v => a * b + v) 0) := by
  obtain ⟨v, vs, rfl⟩ := List.exists_cons_of_ne_nil hne
  have := parseDigitsIn_digitChars hb [] vs v fun w hw => h w (List.mem_cons_of_mem _ hw)
  rw [List.append_nil] at this
  rw [List.map_cons, digitsIn, digitValue_digitChar hb (h v (List.mem_cons_self _ _)), Option.some_bind,
    this, List.foldl_cons, Nat.zero_mul, Nat.zero_add, parseDigitsIn]

/-! ### What `Nat.toDigits` writes -/

/-- `vs` are the digits of `n` in base `b` as `Nat.toDigits` writes them: most significant first,
each below `b`, and no leading zero but for `0` itself. -/
structure IsDigits (b n : Nat) (vs : List Nat) : Prop where
  lt : ∀ v ∈ vs, v < b
  value : vs.foldl (fun a v => a * b + v) 0 = n
  lead : ∃ v rest, vs = v :: rest ∧ (v = 0 → rest = [])

/-- `Nat.toDigitsCore` with enough fuel puts the digits of `n` in front of what it was given. -/
theorem toDigitsCore_isDigits {b : Nat} (hb : 2 ≤ b) :
    ∀ fuel n ds, n < fuel → ∃ vs, IsDigits b n vs ∧ Nat.toDigitsCore b fuel n ds = vs.map Nat.digitChar ++ ds
  | 0, n, _, h => absurd h (Nat.not_lt_zero n)
  | fuel + 1, n, ds, h => by
    have hmod := Nat.mod_add_div n b
    rw [Nat.toDigitsCore]
    split_ifs with h0
    · -- one digit left
      rw [h0, Nat.mul_zero, Nat.add_zero] at hmod
      exact ⟨[n % b], ⟨by simp [Nat.mod_lt _ (by omega : 0 < b)], by simp [hmod], ⟨_, _, rfl, fun _ => rfl⟩⟩, rfl⟩
    · have hlt : n / b < fuel := by
        have hn : 0 < n := Nat.pos_of_ne_zero fun hn => h0 (by rw [hn, Nat.zero_div])
        have := Nat.div_lt_self hn (by omega : 1 < b); omega
      obtain ⟨vs, hvs, heq⟩ := toDigitsCore_isDigits hb fuel (n / b) (Nat.digitChar (n % b) :: ds) hlt
      obtain ⟨v, rest, rfl, hv⟩ := hvs.lead
      refine ⟨v :: rest ++ [n % b], ⟨fun w hw => ?_, ?_, ⟨v, rest ++ [n % b], rfl, fun h0' => ?_⟩⟩, by simp [heq]⟩
      · rcases List.mem_append.1 hw with hw | hw
        exacts [hvs.lt w hw, by simp at hw; rw [hw]; exact Nat.mod_lt _ (by omega)]
      · rw [List.foldl_append, hvs.value]; simpa using Nat.div_add_mod' n b
      · -- a leading zero would make `n / b` zero
        have := hvs.value
        simp [h0', hv h0'] at this
        exact absurd this.symm h0

theorem toDigits_isDigits {b : Nat} (hb : 2 ≤ b) (n : Nat) :
    ∃ vs, IsDigits b n vs ∧ Nat.toDigits b n = vs.map Nat.digitChar := by
  simpa using toDigitsCore_isDigits hb (n + 1) n [] (Nat.lt_succ_self n)

private theorem foldl_zeros (b k : Nat) : (List.replicate k 0).foldl (fun a v => a * b + v) 0 = 0 := by
  induction k with
  | zero => rfl
  | succ k ih => simpa [List.replicate_succ] using ih

/-- The digits of `n`, after any number of leading zeros, read back as `n`. -/
theorem digitsIn_padded {b : Nat} (hb2 : 2 ≤ b) (hb : b ≤ 16) (k n : Nat) :
    digitsIn b (List.replicate k '0' ++ Nat.toDigits b n) = some n := by
  obtain ⟨vs, hvs, heq⟩ := toDigits_isDigits hb2 n
  obtain ⟨v, rest, hvr, -⟩ := hvs.lead
  have hzeros : List.replicate k '0' = (List.replicate k 0).map Nat.digitChar := by simp [Nat.digitChar]
  have hlt : ∀ w ∈ List.replicate k 0 ++ vs, w < b := by
    intro w hw
    rcases List.mem_append.1 hw with hw | hw
    exacts [by rw [(List.mem_replicate.1 hw).2]; omega, hvs.lt w hw]
  rw [heq, hzeros, ← List.map_append, digitsIn_digitChars hb (by simp [hvr]) hlt, List.foldl_append,
    foldl_zeros, hvs.value]

theorem digitsIn_toDigits {b : Nat} (hb2 : 2 ≤ b) (hb : b ≤ 16) (n : Nat) :
    digitsIn b (Nat.toDigits b n) = some n := by
  simpa using digitsIn_padded hb2 hb 0 n

/-! ### Python's renderings -/

/-- The bases Python renders an `int` in: `bin`, `oct`, `str` and `hex`. -/
inductive Radix
  | bin | oct | dec | hex
  deriving DecidableEq, Repr

/-- The base of a radix. -/
def Radix.base : Radix → Nat
  | .bin => 2 | .oct => 8 | .dec => 10 | .hex => 16

/-- What `bin`, `oct` and `hex` write before the digits; `str` writes nothing. -/
def Radix.marker : Radix → List Char
  | .bin => ['0', 'b'] | .oct => ['0', 'o'] | .dec => [] | .hex => ['0', 'x']

/-- `bin(n)`, `oct(n)`, `str(n)` and `hex(n)`: a minus sign for a negative `n`, the marker, and the
digits of `|n|` with lowercase letters. -/
def pyRender (r : Radix) (n : Int) : List Char :=
  (if n < 0 then ['-'] else []) ++ r.marker ++ Nat.toDigits r.base n.natAbs

theorem Radix.two_le_base (r : Radix) : 2 ≤ r.base := by cases r <;> decide

theorem Radix.base_le (r : Radix) : r.base ≤ 16 := by cases r <;> decide

/-- `str` of an `int` is its decimal rendering. -/
theorem toString_toList (n : Int) : (toString n).toList = pyRender .dec n := by
  cases n with
  | ofNat m => simp [pyRender, Radix.marker, Radix.base, toString, Nat.repr]; rfl
  | negSucc m => simp [pyRender, Radix.marker, Radix.base, toString, Nat.repr, Int.negSucc_lt_zero]; rfl

private theorem base0Digits_unmarked {l : List Char} (h : ∀ p rest, l = '0' :: p :: rest → False) :
    base0Digits l = pyDigits l := by
  unfold base0Digits
  split
  · exact absurd rfl (h _ _)
  · rfl

private theorem base0Digits_marked {p : Char} {ds : List Char} (h : ∀ r, ds = '_' :: r → False) :
    base0Digits ('0' :: p :: ds) =
      if p.toLower = 'x' then digitsIn 16 ds else if p.toLower = 'o' then digitsIn 8 ds
      else if p.toLower = 'b' then digitsIn 2 ds else (pyDigits ('0' :: p :: ds)).filter (· = 0) := by
  unfold base0Digits
  split
  · rename_i heq
    cases heq
    split
    · exact absurd rfl (h _)
    · rfl
  · rename_i hne
    exact (hne _ _ rfl).elim

private theorem toDigits_head (r : Radix) (m : Nat) :
    ∃ v rest, Nat.toDigits r.base m = Nat.digitChar v :: rest ∧ v < 16 ∧ (v = 0 → m = 0) ∧
      ∀ c ∈ Nat.toDigits r.base m, isPySpace c = false := by
  obtain ⟨vs, hvs, heq⟩ := toDigits_isDigits r.two_le_base m
  obtain ⟨v, rest, rfl, hlead⟩ := hvs.lead
  have hlt : ∀ w ∈ v :: rest, w < 16 := fun w hw => Nat.lt_of_lt_of_le (hvs.lt w hw) r.base_le
  refine ⟨v, rest.map Nat.digitChar, by rw [heq, List.map_cons], hlt v (List.mem_cons_self _ _),
    fun hv => ?_, fun c hc => ?_⟩
  · rw [← hvs.value, hlead hv, hv]; simp
  · rw [heq, List.mem_map] at hc
    obtain ⟨w, hw, rfl⟩ := hc
    exact (digitChar_spec (hlt w hw)).2.2.2.1

/-- `int(s, 0)` without a sign reads back the rendering of a natural number in every radix. -/
theorem base0Digits_render (r : Radix) (m : Nat) :
    base0Digits (r.marker ++ Nat.toDigits r.base m) = some m := by
  obtain ⟨v, rest, heq, hv, hzero, -⟩ := toDigits_head r m
  have hfacts := digitChar_spec hv
  have hbody : ∀ r', Nat.toDigits r.base m = '_' :: r' → False := fun _ h => hfacts.2.1 (by rw [heq] at h; exact List.head_eq_of_cons_eq h)
  cases r with
  | dec =>
    -- a leading `0` is all of `str(0)`
    have hlead : ∀ p rest', Nat.toDigits Radix.dec.base m = '0' :: p :: rest' → False := by
      intro p rest' h
      rw [heq, List.cons_eq_cons] at h
      obtain rfl := hzero (hfacts.2.2.1 h.1)
      rw [show Nat.toDigits Radix.dec.base 0 = ['0'] from rfl, List.cons_eq_cons, h.2] at heq
      exact List.cons_ne_nil _ _ heq.2.symm
    rw [Radix.marker, List.nil_append, base0Digits_unmarked hlead, pyDigits_eq]
    exact digitsIn_toDigits (by decide) (by decide) m
  | bin =>
    simp only [Radix.marker, List.cons_append, List.nil_append]
    rw [base0Digits_marked hbody]; simpa using digitsIn_toDigits (by decide) (by decide) m
  | oct =>
    simp only [Radix.marker, List.cons_append, List.nil_append]
    rw [base0Digits_marked hbody]; simpa using digitsIn_toDigits (by decide) (by decide) m
  | hex =>
    simp only [Radix.marker, List.cons_append, List.nil_append]
    rw [base0Digits_marked hbody]; simpa using digitsIn_toDigits (by decide) (by decide) m

/-! ### Whitespace and sign -/

private theorem dropWhile_pad {p : Char → Bool} {ws l : List Char} (hws : ∀ c ∈ ws, p c)
    (hl : ∀ c ∈ l.head?, p c = false) : (ws ++ l).dropWhile p = l := by
  induction ws with
  | nil =>
    cases l with
    | nil => rfl
    | cons c t => exact List.dropWhile_cons_of_neg (by simpa using hl)
  | cons w ws ih =>
    rw [List.cons_append, List.dropWhile_cons_of_pos (hws w (List.mem_cons_self _ _))]
    exact ih fun c hc => hws c (List.mem_cons_of_mem _ hc)

/-- The whitespace `int()` strips around a body of other characters. -/
theorem strip_pad {ws body ws' : List Char} (hws : ∀ c ∈ ws, isPySpace c) (hws' : ∀ c ∈ ws', isPySpace c)
    (hbody : ∀ c ∈ body, isPySpace c = false) (hne : body ≠ []) :
    ((((ws ++ body ++ ws').dropWhile isPySpace).reverse.dropWhile isPySpace).reverse) = body := by
  rw [List.append_assoc, dropWhile_pad hws, List.reverse_append,
    dropWhile_pad (fun c hc => hws' c (List.mem_reverse.1 hc)), List.reverse_reverse]
  · intro c hc
    exact hbody c (List.mem_reverse.1 (List.mem_of_mem_head? hc))
  · intro c hc
    rw [List.head?_append_of_ne_nil _ hne] at hc
    exact hbody c (List.mem_of_mem_head? hc)

private theorem strip_self {body : List Char} (hbody : ∀ c ∈ body, isPySpace c = false) (hne : body ≠ []) :
    (((body.dropWhile isPySpace).reverse.dropWhile isPySpace).reverse) = body := by
  have := @strip_pad [] body [] (by simp) (by simp) hbody hne
  rwa [List.nil_append, List.append_nil] at this

private theorem pyRender_shape (r : Radix) (n : Int) :
    (∀ c ∈ pyRender r n, isPySpace c = false) ∧
      ∃ c t, r.marker ++ Nat.toDigits r.base n.natAbs = c :: t ∧ c ≠ '-' ∧ c ≠ '+' := by
  obtain ⟨v, rest, heq, hv, -, hsp⟩ := toDigits_head r n.natAbs
  have hfacts := digitChar_spec hv
  refine ⟨fun c hc => ?_, ?_⟩
  · simp only [pyRender, List.mem_append] at hc
    rcases hc with (hc | hc) | hc
    · by_cases h : n < 0
      · rw [if_pos h, List.mem_singleton] at hc; subst hc; rfl
      · rw [if_neg h] at hc; cases hc
    · cases r <;> simp only [Radix.marker, List.mem_cons, List.not_mem_nil, or_false] at hc <;>
        rcases hc with rfl | rfl <;> rfl
    · exact hsp c hc
  · cases r
    case dec => exact ⟨_, rest, by rw [Radix.marker, List.nil_append, heq], hfacts.2.2.2.2⟩
    all_goals exact ⟨'0', _, rfl, by decide, by decide⟩

private theorem signed_read (f : List Char → Option Nat) (r : Radix) (n : Int)
    (hf : f (r.marker ++ Nat.toDigits r.base n.natAbs) = some n.natAbs) :
    (match pyRender r n with
      | '-' :: ds => Option.map (fun n => -n) (do let a ← f ds; pure (a : Int))
      | '+' :: ds => Option.map Int.ofNat (f ds)
      | ds => Option.map Int.ofNat (f ds)) = some n := by
  obtain ⟨-, c, t, hct, hc⟩ := pyRender_shape r n
  by_cases h : n < 0
  · simp only [pyRender, if_pos h, List.singleton_append, List.cons_append, List.nil_append]
    rw [hf]
    simp [abs_of_neg h]
  · simp only [pyRender, if_neg h, List.nil_append]
    rw [hct]
    split
    next heq => exact absurd (List.cons_eq_cons.1 heq).1 hc.1
    next heq => exact absurd (List.cons_eq_cons.1 heq).1 hc.2
    next => rw [← hct, hf]; simp [abs_of_nonneg (not_lt.1 h)]

private theorem pyRender_ne_nil (r : Radix) (n : Int) : pyRender r n ≠ [] := by
  obtain ⟨-, c, t, hct, -⟩ := pyRender_shape r n
  simp [pyRender, hct]

/-- `int(s, 0)` reads back `str(n)`, `hex(n)`, `oct(n)` and `bin(n)` of every integer, with any
whitespace around it. -/
theorem pyIntBase0_pyRender (r : Radix) (n : Int) {ws ws' : List Char} (hws : ∀ c ∈ ws, isPySpace c)
    (hws' : ∀ c ∈ ws', isPySpace c) : pyIntBase0 (ws ++ pyRender r n ++ ws') = some n := by
  rw [pyIntBase0, strip_pad hws hws' (pyRender_shape r n).1 (pyRender_ne_nil r n)]
  exact signed_read base0Digits r n (base0Digits_render r _)

example : pyIntBase0 ([' '] ++ pyRender .hex (-255) ++ ['\n']) = some (-255) :=
  pyIntBase0_pyRender .hex (-255) (by decide) (by decide)

/-- `int(s)` reads back `str(n)` of every integer. -/
theorem pyInt_toString (n : Int) : pyInt (toString n).toList = some n := by
  rw [pyInt, toString_toList, strip_self (pyRender_shape .dec n).1 (pyRender_ne_nil .dec n)]
  refine signed_read pyDigits .dec n ?_
  rw [Radix.marker, List.nil_append, pyDigits_eq]
  exact digitsIn_toDigits (by decide) (by decide) _

/-! ### The crash filter's environment -/

/-- `IRQ` followed by `str(n)`, the three letters in either case, resolves to `n` when the host's
resolver is absent or fails on the name. -/
theorem resolveIrqName_irq (uc : Host) (pre : String) (n : Int) (hpre : pre.toList.map Char.toUpper = ['I', 'R', 'Q'])
    (hres : uc.irqNameToNum.bind (· (pre ++ toString n)) = none) :
    resolveIrqName uc (pre ++ toString n) = some n := by
  have hlen : pre.toList.length = 3 := by simpa using congrArg List.length hpre
  have hname : (pre ++ toString n).toList = pre.toList ++ (toString n).toList := rfl
  rw [resolveIrqName, hres]
  simp only [hname, List.take_left' hlen, List.drop_left' hlen, hpre, if_true]
  exact pyInt_toString n

example : resolveIrqName Host.bare ("irq" ++ toString (-7 : Int)) = some (-7) :=
  resolveIrqName_irq Host.bare "irq" (-7) (by decide) rfl

section Names

variable (uc : Host) (pre : String)

private theorem normalizeIrqList_names (hpre : pre.toList.map Char.toUpper = ['I', 'R', 'Q']) :
    ∀ l : List Int, (∀ n ∈ l, uc.irqNameToNum.bind (· (pre ++ toString n)) = none) →
      normalizeIrqList uc (l.map fun n => .str (pre ++ toString n)) = l
  | [], _ => rfl
  | n :: l, h => by
    have hl := normalizeIrqList_names hpre l fun m hm => h m (List.mem_cons_of_mem _ hm)
    simp only [normalizeIrqList, List.map_cons, List.filterMap_cons] at hl ⊢
    rw [resolveIrqName_irq uc pre n hpre (h n (List.mem_cons_self _ _)), hl]

private theorem normalizeIrqList_ints (l : List Int) : normalizeIrqList uc (l.map .int) = l := by
  induction l with
  | nil => rfl
  | cons n l ih => simpa [normalizeIrqList] using ih

end Names

/-- `_read_pc`: the PC when `unicorn.arm_const` provides `UC_ARM_REG_PC` (`hasReg`) and
`uc.reg_read` returns (`regRead`, `none` where it raises), else `None`. The register is unsigned. -/
def readPc (hasReg : Bool) (regRead : Option Nat) : Option Nat :=
  if hasReg then regRead else none

/-- The PC cell of a row the worker writes: `f"0x{pc:08x}"`, the lowercase hex digits padded with
zeros to eight, or `NA` where `_read_pc` gave `None`. -/
def pcCell : Option Nat → List Char
  | some pc => '0' :: 'x' :: (List.replicate (8 - (Nat.toDigits 16 pc).length) '0' ++ Nat.toDigits 16 pc)
  | none => ['N', 'A']

/-- `int(cell, 0)` on the PC cell gives back what `_read_pc` read, and rejects the `NA` of a
failed read. -/
theorem pcCell_readback (hasReg : Bool) (regRead : Option Nat) :
    pyIntBase0 (pcCell (readPc hasReg regRead)) = (readPc hasReg regRead).map Int.ofNat := by
  cases readPc hasReg regRead with
  | none => rfl
  | some pc =>
    obtain ⟨v, rest, heq, hv, -, hsp⟩ := toDigits_head .hex pc
    simp only [Radix.base] at heq hsp
    -- the digits after `0x` start with a padding `0` or with the first digit, never with `_`
    have hbody : ∀ r', List.replicate (8 - (Nat.toDigits 16 pc).length) '0' ++ Nat.toDigits 16 pc = '_' :: r' →
        False := by
      cases 8 - (Nat.toDigits 16 pc).length <;> simp [List.replicate_succ, heq]
      exact (digitChar_spec hv).2.1
    have hcell : ∀ c ∈ pcCell (some pc), isPySpace c = false := by
      simp only [pcCell, List.mem_cons, List.mem_append, List.mem_replicate]
      rintro c (rfl | rfl | ⟨-, rfl⟩ | hc)
      exacts [rfl, rfl, rfl, hsp c hc]
    rw [pyIntBase0, strip_self hcell (List.cons_ne_nil _ _)]
    change Option.map Int.ofNat (base0Digits ('0' :: 'x' :: _)) = _
    rw [base0Digits_marked hbody, if_pos (by decide), digitsIn_padded (by decide) le_rfl]

end FuzzwareAdapt
