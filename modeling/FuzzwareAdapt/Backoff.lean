import FuzzwareAdapt.Bookkeeping
import Mathlib.Tactic.Ring

/-!
# Exponential backoff over runs

`fire_one_irq` backs a line off for `base_cooldown_ms * 2 ** (f - 1)` after its `f`-th failed
attempt, and `_pick_irq` never returns a line before its `cool_until`. Together they space the
failed attempts of a line geometrically: the `k`-th comes at least `base_cooldown_ms * 2 ** (k - 1)`
after the one before it. `BackoffInv` says so of the attempt log of every reachable state.

* `failed_attempts_window`: in any clock window of length `L`, a line has at most `m` failed
  attempts, where `(2 ** (m - 1) - 1) * base_cooldown_ms ≤ L`; with the default 4 s, ten in an hour.
  An attempt of the wait hook is never credited (`hook_never_credits`), so on the hook's path this
  bounds every injection on a line.  It holds while the line's backoff fits a float: a backoff whose
  `cooldown / 1000.0` raises leaves `cool_until` where it was, and the line is retried at once.
-/

namespace FuzzwareAdapt

/-- The failed attempts on line `n`, in the order of the run. -/
def failuresOf (log : List Attempt) (n : Int) : List Attempt :=
  log.filter fun a => a.line = n && !a.won

/-- Readings spaced geometrically from `i` on: each at least `g * 2 ^ k` after the one before it,
`k` counting up from `i`. -/
def GeomSpaced (g : Int) : Nat → List Int → Prop
  | _, [] => True
  | _, [_] => True
  | i, x :: y :: l => x + g * 2 ^ i ≤ y ∧ GeomSpaced g (i + 1) (y :: l)

section Spaced

variable {g : Int}

theorem GeomSpaced.tail {i : Nat} {x : Int} {l : List Int} (h : GeomSpaced g i (x :: l)) :
    GeomSpaced g (i + 1) l := by
  cases l with
  | nil => trivial
  | cons y l => exact h.2

/-- With `g ≥ 0` the readings grow: all come at least `g * 2 ^ i` after the first. -/
theorem GeomSpaced.le_of_mem (hg : 0 ≤ g) :
    ∀ {i : Nat} {x : Int} {l : List Int}, GeomSpaced g i (x :: l) → ∀ y ∈ l, x + g * 2 ^ i ≤ y
  | _, _, [], _, _, hy => absurd hy (List.not_mem_nil _)
  | i, x, y :: l, h, z, hz => by
    rcases List.mem_cons.1 hz with rfl | hz
    · exact h.1
    · have := GeomSpaced.le_of_mem hg h.2 z hz
      have : 0 ≤ g * 2 ^ (i + 1) := by positivity
      linarith [h.1]

theorem GeomSpaced.concat {y : Int} :
    ∀ {i : Nat} {l : List Int}, GeomSpaced g i l →
      (∀ x, l.getLast? = some x → x + g * 2 ^ (i + l.length - 1) ≤ y) → GeomSpaced g i (l ++ [y])
  | _, [], _, _ => trivial
  | i, [x], _, hy => ⟨by simpa using hy x rfl, trivial⟩
  | i, x :: x' :: l, h, hy => by
    refine ⟨h.1, GeomSpaced.concat h.2 fun z hz => ?_⟩
    have := hy z (by simpa using hz)
    simpa [Nat.add_assoc, Nat.add_comm 1] using this

/-- A window of length `L` holds at most `m` geometrically spaced readings, where
`(2 ^ (m - 1) - 1) * g * 2 ^ i ≤ L`: the first and the last of them are `m - 1` gaps apart. -/
theorem GeomSpaced.window (hg : 0 ≤ g) :
    ∀ {i : Nat} {l : List Int} (t L : Int), GeomSpaced g i l → 0 ≤ L →
      (2 ^ ((l.filter fun y => decide (t ≤ y ∧ y ≤ t + L)).length - 1) - 1) * (g * 2 ^ i) ≤ L
  | _, [], _, _, _, hL => by rw [List.filter_nil, List.length_nil, pow_zero, sub_self, zero_mul]; exact hL
  | i, x :: l, t, L, h, hL => by
    have hpow : (0 : Int) ≤ g * 2 ^ i := by positivity
    have hpow' : g * 2 ^ (i + 1) = 2 * (g * 2 ^ i) := by ring
    by_cases hx : t ≤ x ∧ x ≤ t + L
    · -- the rest of the window lies in `[x + g * 2 ^ i, t + L]`
      rw [List.filter_cons_of_pos (by simpa using hx), List.length_cons, Nat.add_sub_cancel]
      have hsame : (l.filter fun y => decide (t ≤ y ∧ y ≤ t + L)) = l.filter fun y =>
          decide (x + g * 2 ^ i ≤ y ∧ y ≤ x + g * 2 ^ i + (t + L - (x + g * 2 ^ i))) := by
        refine List.filter_congr fun y hy => ?_
        have := GeomSpaced.le_of_mem hg h y hy
        simp only [decide_eq_decide]; omega
      rw [hsame]
      set m := (l.filter fun y =>
        decide (x + g * 2 ^ i ≤ y ∧ y ≤ x + g * 2 ^ i + (t + L - (x + g * 2 ^ i)))).length with hm_def
      rcases Nat.eq_zero_or_pos m with hm | hm
      · rw [hm, pow_zero, sub_self, zero_mul]; exact hL
      -- a reading of the rest in the window makes the shorter window non-empty
      have hL' : 0 ≤ t + L - (x + g * 2 ^ i) := by
        obtain ⟨y, hy⟩ := List.exists_mem_of_length_pos hm
        have := (List.mem_filter.1 hy).2
        simp only [decide_eq_true_eq] at this
        linarith
      have ih := GeomSpaced.window hg (x + g * 2 ^ i) (t + L - (x + g * 2 ^ i)) h.tail hL'
      rw [← hm_def, hpow'] at ih
      have h2 : (2 : Int) ^ m = 2 * 2 ^ (m - 1) := by
        rw [← pow_succ', Nat.sub_add_cancel hm]
      rw [h2]
      linarith [hx.1]
    · rw [List.filter_cons_of_neg (by simpa using hx)]
      have ih := GeomSpaced.window hg t L h.tail hL
      rw [hpow'] at ih
      have := pow_pos (by norm_num : (0 : Int) < 2) ((l.filter fun y => decide (t ≤ y ∧ y ≤ t + L)).length - 1)
      have := mul_nonneg (by linarith : (0 : Int) ≤ 2 ^ ((l.filter fun y => decide (t ≤ y ∧ y ≤ t + L)).length - 1) - 1) hpow
      linarith

end Spaced

/-! ### The failed attempts of a run -/

section Failures

variable (log : List Attempt) (a : Attempt) (n : Int)

theorem failuresOf_concat :
    failuresOf (log ++ [a]) n = failuresOf log n ++ if a.line = n ∧ a.won = false then [a] else [] := by
  by_cases h : a.line = n ∧ a.won = false <;> simp_all [failuresOf, List.filter_append]

theorem length_failuresOf : (failuresOf log n).length = failuresOn log n := by
  simp [failuresOf, failuresOn, List.countP_eq_length_filter]

theorem failuresOn_le_append (l : List Attempt) : failuresOn log n ≤ failuresOn (log ++ l) n := by
  simp only [failuresOn, List.countP_append]
  omega

end Failures

/-- What a run keeps of the failed attempts on line `n`: their picks are spaced geometrically by
`base_cooldown_ms`, and the last of them backed the line off at least
`base_cooldown_ms * 2 ** (f - 1)` past its pick, `f` counting them. -/
structure BackoffInv (base n : Int) (log : List Attempt) : Prop where
  spaced : GeomSpaced (base * 1000000) 0 ((failuresOf log n).map Attempt.pick)
  last : ∀ a, (failuresOf log n).getLast? = some a →
    a.pick + base * 1000000 * 2 ^ ((failuresOf log n).length - 1) ≤ lastFailCool log n

namespace BackoffInv

variable {P : Op → Prop} {cfg : Config} {uc : Host} {s : Sys} {n : Int}

theorem init : BackoffInv cfg.cooldownMs n [] := ⟨trivial, fun _ h => by simp [failuresOf] at h⟩

/-- A failed attempt on `n` waited for the backoff of the one before it and sets its own, when
that fits a float. -/
theorem step (hs : Reachable P cfg uc s) (h : BackoffInv cfg.cooldownMs n s.log) {op : Op}
    (hfit : op.Fits s.now) (hno : floatOverflows (cfg.cooldownMs * 2 ^ (failuresOn (s.step op).log n - 1)) = false) :
    BackoffInv cfg.cooldownMs n (s.step op).log := by
  have hinv := hs.statsInv
  rcases op.stats_cases s.mgr with ⟨ha, -⟩ | ⟨a, ha, hc, hafter, -⟩
  · simpa [Sys.step, ha] using h
  have hlog : (s.step op).log = s.log ++ [a] := by simp [Sys.step, ha]
  by_cases hf : a.line = n ∧ a.won = false
  · obtain ⟨rfl, hw⟩ := hf
    obtain ⟨-, hle⟩ := hinv.lookup_le_pick hc
    obtain ⟨-, hcool⟩ := Op.attempt_clock hfit (ha ▸ List.mem_singleton_self a)
    have hF : failuresOf (s.step op).log a.line = failuresOf s.log a.line ++ [a] := by
      rw [hlog, failuresOf_concat, if_pos ⟨rfl, hw⟩]
    -- the backoff `fire_one_irq` sets, `f` counting the failed attempts so far
    have hafter' : a.after.coolUntil =
        a.coolAt + cfg.cooldownMs * 2 ^ (failuresOf s.log a.line).length * 1000000 := by
      have htw := triesOn_eq s.log a.line
      rw [hlog, failuresOn_concat, if_pos ⟨rfl, hw⟩, Nat.add_sub_cancel] at hno
      rw [hafter, AdaptiveIRQManager.attempt_coolUntil, hw, Bool.false_or]
      simp only [AdaptiveIRQManager.cooldown, hs.frozen.2.2.2.1, hinv.tries, hinv.wins, length_failuresOf]
      rw [show triesOn s.log a.line + 1 - winsOn s.log a.line - 1 = failuresOn s.log a.line by omega, hno,
        if_neg Bool.false_ne_true]
    refine ⟨?_, fun x hx => ?_⟩
    · rw [hF, List.map_append, List.map_singleton]
      refine h.spaced.concat fun x hx => ?_
      rw [List.getLast?_map] at hx
      obtain ⟨b, hb, rfl⟩ := Option.map_eq_some'.1 hx
      have := h.last b hb
      rw [hinv.cool] at hle
      simp only [List.length_map, Nat.zero_add]
      linarith
    · rw [hF, List.getLast?_concat] at hx
      cases hx
      rw [hF, List.length_append, List.length_singleton, Nat.add_sub_cancel, hlog, lastFailCool_concat,
        if_pos ⟨rfl, hw⟩, hafter']
      linarith
  · have hF : failuresOf (s.step op).log n = failuresOf s.log n := by
      rw [hlog, failuresOf_concat, if_neg hf, List.append_nil]
    have hcool : lastFailCool (s.step op).log n = lastFailCool s.log n := by
      rw [hlog, lastFailCool_concat, if_neg hf]
    exact ⟨hF ▸ h.spaced, fun x hx => hF ▸ hcool ▸ h.last x (hF ▸ hx)⟩

end BackoffInv

/-- A backoff that does not fit a float is followed by ever larger ones on its line. -/
theorem floatOverflows_of_le {base : Int} {i j : Nat} (hij : i ≤ j) (h : floatOverflows (base * 2 ^ j) = false) :
    floatOverflows (base * 2 ^ i) = false := by
  simp only [floatOverflows, decide_eq_false_iff_not, not_le, Int.natAbs_mul, Int.natAbs_pow] at h ⊢
  exact lt_of_le_of_lt (Nat.mul_le_mul_left _ (Nat.pow_le_pow_right (by norm_num) hij)) h

/-- The invariant holds of every run in which the line's latest backoff fits a float. -/
theorem Reachable.backoffInv {P : Op → Prop} {cfg : Config} {uc : Host} {s : Sys}
    (hs : Reachable P cfg uc s) (n : Int) :
    floatOverflows (cfg.cooldownMs * 2 ^ (failuresOn s.log n - 1)) = false → BackoffInv cfg.cooldownMs n s.log := by
  induction hs with
  | init => exact fun _ => BackoffInv.init
  | step op hs' _ hfit ih =>
    intro hno
    exact (ih (floatOverflows_of_le (Nat.sub_le_sub_right (failuresOn_le_append _ n _) 1) hno)).step hs' hfit hno

/-! ### Failed attempts in a window -/

/-- One line, no exploration, and no progress after `__init__`. -/
private def deadCfg : Config := { maxIrq := 1, epsilon := 0 }

private def deadFire (t : Int) : Op := .fireOneIrq ⟨0, 0⟩ ⟨t, t + 10000000, t + 10000000⟩

/-- Two failed attempts on the line, at 1 s and at 6 s, past the 4 s backoff of the first. -/
private def deadRun : Sys :=
  ((⟨.init deadCfg Host.bare 0 0, 0, []⟩ : Sys).step (deadFire 1000000000)).step (deadFire 6000000000)

private theorem deadRun_reachable : Reachable (fun _ => True) deadCfg Host.bare deadRun :=
  .step _ (.step _ (.init 0 0 le_rfl) trivial (by decide)) trivial (by decide)

section Runs

variable {P : Op → Prop} {cfg : Config} {uc : Host} {s : Sys}

/-- In any clock window of length `L`, the failed attempts on a line number at most `m`, where
`(2 ^ (m - 1) - 1) * base_cooldown_ms ≤ L`: each backoff doubles the wait for the next, as long as
the line's latest backoff fits a float. -/
theorem failed_attempts_window (hbase : 0 ≤ cfg.cooldownMs) (hs : Reachable P cfg uc s) (n t L : Int)
    (hL : 0 ≤ L) (hno : floatOverflows (cfg.cooldownMs * 2 ^ (failuresOn s.log n - 1)) = false) :
    ((2 : Int) ^ ((s.log.filter fun a => a.line = n && !a.won &&
        decide (t ≤ a.pick ∧ a.pick ≤ t + L)).length - 1) - 1) * (cfg.cooldownMs * 1000000) ≤ L := by
  have hw := (hs.backoffInv n hno).spaced.window (by positivity) t L hL
  have hcount : (s.log.filter fun a => a.line = n && !a.won && decide (t ≤ a.pick ∧ a.pick ≤ t + L)) =
      (failuresOf s.log n).filter fun a => decide (t ≤ a.pick ∧ a.pick ≤ t + L) := by
    rw [failuresOf, List.filter_filter]
    exact List.filter_congr fun a _ => by rw [Bool.and_comm]
  rw [hcount]
  simpa [List.filter_map] using hw

theorem failed_attempts_window_deadRun :
    0 ≤ deadCfg.cooldownMs ∧ Reachable (fun _ => True) deadCfg Host.bare deadRun ∧ (0 : Int) ≤ 5000000000 ∧
      floatOverflows (deadCfg.cooldownMs * 2 ^ (failuresOn deadRun.log 0 - 1)) = false ∧
      ((2 : Int) ^ ((deadRun.log.filter fun a => a.line = 0 && !a.won &&
          decide (1000000000 ≤ a.pick ∧ a.pick ≤ 1000000000 + 5000000000)).length - 1) - 1) *
        (deadCfg.cooldownMs * 1000000) ≤ 5000000000 :=
  have hno : floatOverflows (deadCfg.cooldownMs * 2 ^ (failuresOn deadRun.log 0 - 1)) = false := by decide
  ⟨by decide, deadRun_reachable, by decide, hno,
    failed_attempts_window (by decide) deadRun_reachable 0 1000000000 5000000000 (by decide) hno⟩

end Runs

end FuzzwareAdapt
