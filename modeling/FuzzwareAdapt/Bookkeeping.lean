import FuzzwareAdapt.Run
import Mathlib.Tactic.Positivity
import Mathlib.Algebra.Order.Field.Basic
import Mathlib.Tactic.Linarith

/-!
# The per-line statistics over runs

`StatsInv` ties `irq_stats` to the attempt log: the keys stay the enumerated lines, each line's
`tries` and `wins` count its attempts and its credited ones, its `cool_until` is the one its last
failed attempt left, and no attempt came before the cool-down of its line.  Every reachable state
satisfies it (`Reachable.statsInv`), which gives:

* `irqStats_invariant`: the keys are the enumerated, non-blacklisted lines, `wins ≤ tries`, and an
  operation changes at most the record of the line `_pick_irq` returned, by one more try;
* `coolUntil_enforced`: `cool_until` never moves back, moves only at a failed attempt on its line,
  and every attempt comes no earlier than its line's last cool-down;
* `backoff_counts_failures`: a failed attempt sets `cool_until` to its reading plus
  `base_cooldown_ms * 2 ** (f - 1)`, where `f` counts every failed attempt of the line so far, so a
  win does not restart the count (`backoff_streak_counterexample`); a cooldown that does not fit a
  float raises before the assignment, and `cool_until` keeps its value;
* `win_accounting`: a credited attempt leaves `cool_until` alone and adds one to `tries` and `wins`,
  so the win rate never drops, and rises exactly when the line had an uncredited attempt or none at
  all; a line that won every attempt stays at rate `1` (`win_rate_counterexample`).
-/

namespace FuzzwareAdapt

/-! ### Counting attempts -/

/-- The attempts on line `n`. -/
def triesOn (log : List Attempt) (n : Int) : Nat := log.countP fun a => a.line = n

/-- The credited attempts on line `n`. -/
def winsOn (log : List Attempt) (n : Int) : Nat := log.countP fun a => a.line = n ∧ a.won

/-- The failed attempts on line `n`. -/
def failuresOn (log : List Attempt) (n : Int) : Nat := log.countP fun a => a.line = n ∧ !a.won

/-- The `cool_until` the last failed attempt on `n` left, `0` before any. -/
def lastFailCool (log : List Attempt) (n : Int) : Int :=
  log.foldl (fun t a => if a.line = n ∧ a.won = false then a.after.coolUntil else t) 0

/-- Every attempt came no earlier than the cool-down its line's last failed attempt before it left. -/
def CoolRespected (log : List Attempt) : Prop :=
  ∀ pre a post, log = pre ++ a :: post → lastFailCool pre a.line ≤ a.pick

section Counting

variable (log : List Attempt) (a : Attempt) (n : Int)

theorem triesOn_concat : triesOn (log ++ [a]) n = triesOn log n + if a.line = n then 1 else 0 := by
  simp [triesOn, List.countP_append, List.countP_singleton]

theorem winsOn_concat :
    winsOn (log ++ [a]) n = winsOn log n + if a.line = n ∧ a.won then 1 else 0 := by
  simp [winsOn, List.countP_append, List.countP_singleton]

theorem failuresOn_concat :
    failuresOn (log ++ [a]) n = failuresOn log n + if a.line = n ∧ a.won = false then 1 else 0 := by
  simp [failuresOn, List.countP_append, List.countP_singleton]

theorem lastFailCool_concat :
    lastFailCool (log ++ [a]) n = if a.line = n ∧ a.won = false then a.after.coolUntil else lastFailCool log n :=
  List.foldl_concat _ _ _ _

theorem triesOn_eq : triesOn log n = winsOn log n + failuresOn log n := by
  induction log using List.reverseRecOn with
  | nil => rfl
  | append_singleton log a ih =>
    rw [triesOn_concat, winsOn_concat, failuresOn_concat, ih]
    by_cases hl : a.line = n <;> cases a.won <;> simp [hl] <;> omega

theorem CoolRespected.concat {log : List Attempt} (h : CoolRespected log) (ha : lastFailCool log a.line ≤ a.pick) :
    CoolRespected (log ++ [a]) := by
  intro pre b post he
  rcases List.eq_nil_or_concat post with rfl | ⟨L, x, rfl⟩
  · obtain ⟨rfl, hb⟩ := List.append_inj' he rfl
    cases hb; exact ha
  · rw [List.concat_eq_append, ← List.cons_append, ← List.append_assoc] at he
    obtain ⟨he, -⟩ := List.append_inj' he rfl
    exact h pre b L he

end Counting

/-! ### The invariant -/

/-- What ties `irq_stats` to the log of a run. -/
structure StatsInv (cfg : Config) (uc : Host) (s : Sys) : Prop where
  keys : s.mgr.irqStats.map Prod.fst = (initStats (enumerateIrqLines cfg uc)).map Prod.fst
  tries : ∀ n, (lookupStat s.mgr.irqStats n).tries = triesOn s.log n
  wins : ∀ n, (lookupStat s.mgr.irqStats n).wins = winsOn s.log n
  cool : ∀ n, (lookupStat s.mgr.irqStats n).coolUntil = lastFailCool s.log n
  respected : CoolRespected s.log
  lines : ∀ a ∈ s.log, a.line ∈ enumerateIrqLines cfg uc

namespace StatsInv

variable {cfg : Config} {uc : Host} {s : Sys}

theorem keys_nodup (h : StatsInv cfg uc s) : (s.mgr.irqStats.map Prod.fst).Nodup :=
  h.keys ▸ keys_initStats_nodup _

theorem mem_keys (h : StatsInv cfg uc s) {n : Int} :
    n ∈ s.mgr.irqStats.map Prod.fst ↔ n ∈ enumerateIrqLines cfg uc := by
  rw [h.keys, mem_keys_initStats]

theorem init (cfg : Config) (uc : Host) (t₀ t₁ : Int) :
    StatsInv cfg uc ⟨.init cfg uc t₀ t₁, t₁, []⟩ where
  keys := rfl
  tries n := by simp [AdaptiveIRQManager.init, lookupStat_initStats, triesOn, IrqStat.fresh]
  wins n := by simp [AdaptiveIRQManager.init, lookupStat_initStats, winsOn, IrqStat.fresh]
  cool n := by simp [AdaptiveIRQManager.init, lookupStat_initStats, lastFailCool, IrqStat.fresh]
  respected pre a post h := by simp at h
  lines a h := by simp at h

/-- An attempt's line was a key not cooling down, so its record's `cool_until` was at most the pick. -/
theorem lookup_le_pick (h : StatsInv cfg uc s) {a : Attempt} (hc : a.line ∈ candidates s.mgr.irqStats a.pick) :
    a.line ∈ s.mgr.irqStats.map Prod.fst ∧ (lookupStat s.mgr.irqStats a.line).coolUntil ≤ a.pick := by
  obtain ⟨st, hst, hle⟩ := mem_candidates.1 hc
  exact ⟨List.mem_map.2 ⟨_, hst, rfl⟩, (lookupStat_of_mem h.keys_nodup hst).symm ▸ hle⟩

theorem step (h : StatsInv cfg uc s) (op : Op) : StatsInv cfg uc (s.step op) := by
  rcases op.stats_cases s.mgr with ⟨ha, hs⟩ | ⟨a, ha, hc, hafter, hs⟩
  · refine ⟨?_, ?_, ?_, ?_, ?_, ?_⟩ <;> simp only [Sys.step, ha, hs, List.append_nil]
    exacts [h.keys, h.tries, h.wins, h.cool, h.respected, h.lines]
  obtain ⟨hkey, hle⟩ := h.lookup_le_pick hc
  have hlook : ∀ n, lookupStat (s.step op).mgr.irqStats n =
      if a.line = n then a.after else lookupStat s.mgr.irqStats n := by
    intro n
    simp only [Sys.step, hs]
    split
    · subst n; rw [lookupStat_modifyStat_self hkey, hafter]
    · exact lookupStat_modifyStat_of_ne (Ne.symm ‹_›)
  have hlog : (s.step op).log = s.log ++ [a] := by simp [Sys.step, ha]
  refine ⟨by simp [Sys.step, hs, h.keys], fun n => ?_, fun n => ?_, fun n => ?_, ?_, ?_⟩
  · rw [hlook, hlog, triesOn_concat, ← h.tries]
    by_cases hn : a.line = n
    · subst n; simp [hafter]
    · simp [hn]
  · rw [hlook, hlog, winsOn_concat, ← h.wins]
    by_cases hn : a.line = n
    · subst n; simp [hafter]
    · simp [hn]
  · rw [hlook, hlog, lastFailCool_concat, ← h.cool]
    by_cases hn : a.line = n
    · subst n
      rw [if_pos rfl, hafter, AdaptiveIRQManager.attempt_coolUntil]
      cases a.won <;> simp
    · simp [hn]
  · rw [hlog]; exact h.respected.concat a (h.cool a.line ▸ hle)
  · rw [hlog]
    intro b hb
    rcases List.mem_append.1 hb with hb | hb
    · exact h.lines b hb
    · rw [List.mem_singleton.1 hb]; exact h.mem_keys.1 hkey

theorem wins_le_tries (h : StatsInv cfg uc s) (n : Int) :
    (lookupStat s.mgr.irqStats n).wins ≤ (lookupStat s.mgr.irqStats n).tries := by
  rw [h.tries, h.wins]
  exact List.countP_mono_left fun a _ => by simp only [decide_eq_true_eq, Bool.and_eq_true]; exact And.left

/-- An attempt is the operation's only one, and its line's record after the step is the attempt
applied to the record before. -/
theorem lookup_step (h : StatsInv cfg uc s) {op : Op} {a : Attempt} (ha : a ∈ op.attempts s.mgr) :
    op.attempts s.mgr = [a] ∧
      lookupStat (s.step op).mgr.irqStats a.line =
        s.mgr.attempt a.won a.coolAt (lookupStat s.mgr.irqStats a.line) := by
  rcases op.stats_cases s.mgr with ⟨hn, -⟩ | ⟨a', ha', hc, -, hst⟩
  · simp [hn] at ha
  obtain rfl : a = a' := by simpa [ha'] using ha
  obtain ⟨hkey, -⟩ := h.lookup_le_pick hc
  exact ⟨ha', by simp only [Sys.step, hst, lookupStat_modifyStat_self hkey]⟩

end StatsInv

theorem Reachable.statsInv {P : Op → Prop} {cfg : Config} {uc : Host} {s : Sys}
    (hs : Reachable P cfg uc s) : StatsInv cfg uc s := by
  induction hs with
  | init t₀ t₁ _ => exact StatsInv.init cfg uc t₀ t₁
  | step op _ _ _ ih => exact ih.step op

/-! ### A run on one line -/

/-- One line, no exploration. -/
private def streakCfg : Config := { maxIrq := 1, epsilon := 0 }

private def fireAt (t : Int) : Op := .fireOneIrq ⟨0, 0⟩ ⟨t, t + 10000000, t + 10000000⟩

/-- From clock 0: a failed attempt at 1 s, progress at 10 s, a credited attempt at 10 s. -/
private def streakRun : Sys :=
  (((⟨.init streakCfg Host.bare 0 0, 0, []⟩ : Sys).step (fireAt 1000000000)).step
    (.notifyProgress 10000000000)).step (fireAt 10000000000)

private theorem streakRun_reachable : Reachable (fun _ => True) streakCfg Host.bare streakRun :=
  .step _ (.step _ (.step _ (.init 0 0 le_rfl) trivial (by decide)) trivial (by decide)) trivial (by decide)

/-- From clock 0: a credited attempt at once, the progress `__init__` stamped being fresh. -/
private def winRun : Sys := (⟨.init streakCfg Host.bare 0 0, 0, []⟩ : Sys).step (fireAt 0)

private theorem winRun_reachable : Reachable (fun _ => True) streakCfg Host.bare winRun :=
  .step _ (.init 0 0 le_rfl) trivial (by decide)

/-! ### The per-line statistics -/

section Runs

variable {P : Op → Prop} {cfg : Config} {uc : Host} {s : Sys}

theorem not_mem_blacklist {n : Int} (h : n ∈ enumerateIrqLines cfg uc) :
    n ∉ normalizeIrqList uc cfg.irqBlacklist := by
  unfold enumerateIrqLines at h
  simpa using (List.mem_filter.1 h).2

/-- The statistics invariant: the keys of `irq_stats` are the enumerated lines, none blacklisted;
`wins ≤ tries` on every line; an operation either leaves `irq_stats` alone or changes only the
record of the line `_pick_irq` returned in its `fire_one_irq`, by one more try; so every line ever
raised is enumerated and not blacklisted. -/
theorem irqStats_invariant (hs : Reachable P cfg uc s) :
    (∀ n, n ∈ s.mgr.irqStats.map Prod.fst ↔ n ∈ enumerateIrqLines cfg uc) ∧
    (∀ n ∈ s.mgr.irqStats.map Prod.fst, n ∉ normalizeIrqList uc cfg.irqBlacklist) ∧
    (∀ e ∈ s.mgr.irqStats, e.2.wins ≤ e.2.tries) ∧
    (∀ op : Op, (op.attempts s.mgr = [] ∧ (op.run s.mgr).irqStats = s.mgr.irqStats) ∨
      ∃ a, op.attempts s.mgr = [a] ∧
        (∃ m' d c, op.fire? s.mgr = some (m', d, c, a.hook) ∧ m'.pickIrq c.pick d = some a.line) ∧
        (lookupStat (op.run s.mgr).irqStats a.line).tries = (lookupStat s.mgr.irqStats a.line).tries + 1 ∧
        ∀ k, k ≠ a.line → lookupStat (op.run s.mgr).irqStats k = lookupStat s.mgr.irqStats k) ∧
    (∀ a ∈ s.log, a.line ∈ enumerateIrqLines cfg uc ∧ a.line ∉ normalizeIrqList uc cfg.irqBlacklist) := by
  have h := hs.statsInv
  refine ⟨fun n => h.mem_keys, fun n hn => not_mem_blacklist (h.mem_keys.1 hn), fun e he => ?_,
    fun op => ?_, fun a ha => ⟨h.lines a ha, not_mem_blacklist (h.lines a ha)⟩⟩
  · rw [← lookupStat_of_mem h.keys_nodup he]; exact h.wins_le_tries e.1
  · rcases op.stats_cases s.mgr with hn | ⟨a, ha, hc, -, hst⟩
    · exact .inl hn
    obtain ⟨hkey, -⟩ := h.lookup_le_pick hc
    obtain ⟨m', d, c, hf, hat⟩ := Op.mem_attempts (ha ▸ List.mem_singleton_self a)
    refine .inr ⟨a, ha, ⟨m', d, c, hf, (AdaptiveIRQManager.attemptOf_some hat).1⟩, ?_, fun k hk => ?_⟩
    · rw [hst, lookupStat_modifyStat_self hkey, AdaptiveIRQManager.attempt_tries]
    · rw [hst, lookupStat_modifyStat_of_ne hk]

theorem irqStats_invariant_streakRun :
    Reachable (fun _ => True) streakCfg Host.bare streakRun ∧
    ((∀ n, n ∈ streakRun.mgr.irqStats.map Prod.fst ↔ n ∈ enumerateIrqLines streakCfg Host.bare) ∧
    (∀ n ∈ streakRun.mgr.irqStats.map Prod.fst, n ∉ normalizeIrqList Host.bare streakCfg.irqBlacklist) ∧
    (∀ e ∈ streakRun.mgr.irqStats, e.2.wins ≤ e.2.tries) ∧
    (∀ op : Op, (op.attempts streakRun.mgr = [] ∧ (op.run streakRun.mgr).irqStats = streakRun.mgr.irqStats) ∨
      ∃ a, op.attempts streakRun.mgr = [a] ∧
        (∃ m' d c, op.fire? streakRun.mgr = some (m', d, c, a.hook) ∧ m'.pickIrq c.pick d = some a.line) ∧
        (lookupStat (op.run streakRun.mgr).irqStats a.line).tries =
          (lookupStat streakRun.mgr.irqStats a.line).tries + 1 ∧
        ∀ k, k ≠ a.line → lookupStat (op.run streakRun.mgr).irqStats k = lookupStat streakRun.mgr.irqStats k) ∧
    (∀ a ∈ streakRun.log,
      a.line ∈ enumerateIrqLines streakCfg Host.bare ∧ a.line ∉ normalizeIrqList Host.bare streakCfg.irqBlacklist)) :=
  ⟨streakRun_reachable, irqStats_invariant streakRun_reachable⟩


/-- `cool_until` is enforced and never moves back: every attempt comes no earlier than the
cool-down its line's last failed attempt left, which is the line's `cool_until`; across every
operation each line's `cool_until` does not decrease, and it changes only at a failed attempt on
that line. -/
theorem coolUntil_enforced (hbase : 0 ≤ cfg.cooldownMs) (hs : Reachable P cfg uc s) :
    CoolRespected s.log ∧ (∀ n, (lookupStat s.mgr.irqStats n).coolUntil = lastFailCool s.log n) ∧
    ∀ op : Op, op.Fits s.now → ∀ n,
      (lookupStat s.mgr.irqStats n).coolUntil ≤ (lookupStat (s.step op).mgr.irqStats n).coolUntil ∧
      ((lookupStat (s.step op).mgr.irqStats n).coolUntil ≠ (lookupStat s.mgr.irqStats n).coolUntil →
        ∃ a ∈ op.attempts s.mgr, a.line = n ∧ a.won = false) := by
  have h := hs.statsInv
  refine ⟨h.respected, h.cool, fun op hfit n => ?_⟩
  rcases op.stats_cases s.mgr with ⟨ha, hst⟩ | ⟨a, ha, hc, -, hst⟩
  · simp [Sys.step, hst]
  obtain ⟨hkey, hle⟩ := h.lookup_le_pick hc
  obtain ⟨-, hcool⟩ := Op.attempt_clock hfit (ha ▸ List.mem_singleton_self a)
  by_cases hn : n = a.line
  · subst hn
    simp only [Sys.step, hst, lookupStat_modifyStat_self hkey]
    refine ⟨s.mgr.coolUntil_le_attempt (hs.frozen.2.2.2.1 ▸ hbase) (by omega) a.won,
      fun hne => ⟨a, by simp [ha], rfl, ?_⟩⟩
    cases hw : a.won
    · rfl
    · rw [hw] at hne; exact absurd rfl hne
  · simp [Sys.step, hst, lookupStat_modifyStat_of_ne hn]

theorem coolUntil_enforced_streakRun :
    0 ≤ streakCfg.cooldownMs ∧ Reachable (fun _ => True) streakCfg Host.bare streakRun ∧
    (CoolRespected streakRun.log ∧
      (∀ n, (lookupStat streakRun.mgr.irqStats n).coolUntil = lastFailCool streakRun.log n) ∧
      ∀ op : Op, op.Fits streakRun.now → ∀ n,
        (lookupStat streakRun.mgr.irqStats n).coolUntil ≤ (lookupStat (streakRun.step op).mgr.irqStats n).coolUntil ∧
        ((lookupStat (streakRun.step op).mgr.irqStats n).coolUntil ≠ (lookupStat streakRun.mgr.irqStats n).coolUntil →
          ∃ a ∈ op.attempts streakRun.mgr, a.line = n ∧ a.won = false)) :=
  ⟨by decide, streakRun_reachable, coolUntil_enforced (by decide) streakRun_reachable⟩

/-- The backoff of a failed attempt is keyed to all the failed attempts of its line: `cool_until`
becomes the backoff's reading plus `base_cooldown_ms * 2 ** (f - 1)` milliseconds, `f` counting
every failed attempt on the line in the run, this one included; when that cooldown does not fit a
float, `fire_one_irq` raises before the assignment and `cool_until` keeps its value. -/
theorem backoff_counts_failures (hs : Reachable P cfg uc s) (op : Op) {a : Attempt}
    (ha : a ∈ op.attempts s.mgr) (hfail : a.won = false) :
    (lookupStat (s.step op).mgr.irqStats a.line).coolUntil =
      if floatOverflows (s.mgr.baseCooldownMs * 2 ^ (failuresOn (s.step op).log a.line - 1)) then
        (lookupStat s.mgr.irqStats a.line).coolUntil
      else a.coolAt + s.mgr.baseCooldownMs * 2 ^ (failuresOn (s.step op).log a.line - 1) * 1000000 := by
  have h := hs.statsInv
  obtain ⟨ha', hafter⟩ := h.lookup_step ha
  have hf : failuresOn (s.step op).log a.line = failuresOn s.log a.line + 1 := by
    simp [Sys.step, ha', failuresOn_concat, hfail]
  have htw := triesOn_eq s.log a.line
  rw [hf, hafter, AdaptiveIRQManager.attempt_coolUntil, hfail, Bool.false_or]
  simp only [AdaptiveIRQManager.cooldown, h.tries, h.wins]
  rw [show triesOn s.log a.line + 1 - winsOn s.log a.line - 1 = failuresOn s.log a.line + 1 - 1 by omega]

theorem backoff_counts_failures_streakRun :
    let a : Attempt := ⟨0, 20000000000, false, false, 20010000000, ⟨3, 1, 28010000000⟩⟩
    Reachable (fun _ => True) streakCfg Host.bare streakRun ∧ a ∈ (fireAt 20000000000).attempts streakRun.mgr ∧
      a.won = false ∧
      (lookupStat (streakRun.step (fireAt 20000000000)).mgr.irqStats a.line).coolUntil =
        if floatOverflows (streakRun.mgr.baseCooldownMs *
            2 ^ (failuresOn (streakRun.step (fireAt 20000000000)).log a.line - 1)) then
          (lookupStat streakRun.mgr.irqStats a.line).coolUntil
        else a.coolAt + streakRun.mgr.baseCooldownMs *
          2 ^ (failuresOn (streakRun.step (fireAt 20000000000)).log a.line - 1) * 1000000 :=
  have ha : (⟨0, 20000000000, false, false, 20010000000, ⟨3, 1, 28010000000⟩⟩ : Attempt) ∈
      (fireAt 20000000000).attempts streakRun.mgr := by decide
  ⟨streakRun_reachable, ha, rfl, backoff_counts_failures streakRun_reachable _ ha rfl⟩

private theorem winRate_succ {w t : Nat} (h : w ≤ t) :
    (w : ℚ) / ((max 1 t : Nat) : ℚ) ≤ ((w + 1 : Nat) : ℚ) / ((max 1 (t + 1) : Nat) : ℚ) ∧
      ((w : ℚ) / ((max 1 t : Nat) : ℚ) < ((w + 1 : Nat) : ℚ) / ((max 1 (t + 1) : Nat) : ℚ) ↔
        w < t ∨ t = 0) := by
  rcases Nat.eq_zero_or_pos t with rfl | ht
  · obtain rfl : w = 0 := by omega
    norm_num
  · have hwt : (w : ℚ) ≤ t := by exact_mod_cast h
    have htq : (0 : ℚ) < t := by exact_mod_cast ht
    rw [max_eq_right ht, max_eq_right (by omega : 1 ≤ t + 1), div_le_div_iff₀ htq (by positivity),
      div_lt_div_iff₀ htq (by positivity)]
    push_cast
    refine ⟨by linarith only [hwt], fun hlt => .inl (by exact_mod_cast (by linarith only [hlt] : (w : ℚ) < t)), ?_⟩
    rintro (hlt | h0)
    · have : (w : ℚ) < t := by exact_mod_cast hlt
      linarith only [this]
    · omega

/-- Success accounting: a credited attempt leaves its line's `cool_until` as it was and adds one
try and one win; the win rate `wins / max(1, tries)` never falls, and it rises exactly when an
earlier attempt on the line failed or there was none. -/
theorem win_accounting (hs : Reachable P cfg uc s) (op : Op) {a : Attempt}
    (ha : a ∈ op.attempts s.mgr) (hwon : a.won = true) :
    (lookupStat (s.step op).mgr.irqStats a.line).coolUntil = (lookupStat s.mgr.irqStats a.line).coolUntil ∧
    (lookupStat (s.step op).mgr.irqStats a.line).tries = (lookupStat s.mgr.irqStats a.line).tries + 1 ∧
    (lookupStat (s.step op).mgr.irqStats a.line).wins = (lookupStat s.mgr.irqStats a.line).wins + 1 ∧
    score s.mgr.irqStats a.line ≤ score (s.step op).mgr.irqStats a.line ∧
    (score s.mgr.irqStats a.line < score (s.step op).mgr.irqStats a.line ↔
      (lookupStat s.mgr.irqStats a.line).wins < (lookupStat s.mgr.irqStats a.line).tries ∨
        (lookupStat s.mgr.irqStats a.line).tries = 0) := by
  have h := hs.statsInv
  have hafter := (h.lookup_step ha).2
  rw [hwon] at hafter
  simp only [score, hafter, AdaptiveIRQManager.attempt_tries, AdaptiveIRQManager.attempt_wins,
    AdaptiveIRQManager.attempt_coolUntil, Bool.true_or, if_true]
  exact ⟨trivial, trivial, trivial, winRate_succ (h.wins_le_tries a.line)⟩

theorem win_accounting_winRun :
    let a : Attempt := ⟨0, 10000000, true, false, 20000000, ⟨2, 2, 0⟩⟩
    let s' := winRun.step (fireAt 10000000)
    Reachable (fun _ => True) streakCfg Host.bare winRun ∧ a ∈ (fireAt 10000000).attempts winRun.mgr ∧
      a.won = true ∧
      ((lookupStat s'.mgr.irqStats a.line).coolUntil = (lookupStat winRun.mgr.irqStats a.line).coolUntil ∧
      (lookupStat s'.mgr.irqStats a.line).tries = (lookupStat winRun.mgr.irqStats a.line).tries + 1 ∧
      (lookupStat s'.mgr.irqStats a.line).wins = (lookupStat winRun.mgr.irqStats a.line).wins + 1 ∧
      score winRun.mgr.irqStats a.line ≤ score s'.mgr.irqStats a.line ∧
      (score winRun.mgr.irqStats a.line < score s'.mgr.irqStats a.line ↔
        (lookupStat winRun.mgr.irqStats a.line).wins < (lookupStat winRun.mgr.irqStats a.line).tries ∨
          (lookupStat winRun.mgr.irqStats a.line).tries = 0)) :=
  have ha : (⟨0, 10000000, true, false, 20000000, ⟨2, 2, 0⟩⟩ : Attempt) ∈
      (fireAt 10000000).attempts winRun.mgr := by decide
  ⟨winRun_reachable, ha, rfl, win_accounting winRun_reachable _ ha rfl⟩

/-- Two credited attempts on one line, 10 ms apart: the second leaves the win rate at 1. -/
theorem win_rate_counterexample :
    ¬ ∀ s op a, Reachable (fun _ => True) streakCfg Host.bare s → op.Fits s.now →
      a ∈ op.attempts s.mgr → a.won = true →
      (lookupStat (s.step op).mgr.irqStats a.line).coolUntil = (lookupStat s.mgr.irqStats a.line).coolUntil ∧
        score s.mgr.irqStats a.line < score (s.step op).mgr.irqStats a.line := by
  intro h
  have hlt := (h winRun (fireAt 10000000) ⟨0, 10000000, true, false, 20000000, ⟨2, 2, 0⟩⟩
    winRun_reachable (by decide) (by decide) rfl).2
  have h1 : lookupStat winRun.mgr.irqStats 0 = ⟨1, 1, 0⟩ := by decide
  have h2 : lookupStat (winRun.step (fireAt 10000000)).mgr.irqStats 0 = ⟨2, 2, 0⟩ := by decide
  norm_num [score, h1, h2] at hlt

/-- The failed attempts on line `n` since its last credited one. -/
def failStreak (log : List Attempt) (n : Int) : Nat :=
  log.foldl (fun k a => if a.line = n then (if a.won then 0 else k + 1) else k) 0

end Runs

/-- A failure, a win and a failure on one line: the last backoff is `2 * base_cooldown_ms` although
the failure streak since the win is one. -/
theorem backoff_streak_counterexample :
    ¬ ∀ s op a, Reachable (fun _ => True) streakCfg Host.bare s → op.Fits s.now →
      a ∈ op.attempts s.mgr → a.won = false →
      (lookupStat (s.step op).mgr.irqStats a.line).coolUntil =
        a.coolAt + s.mgr.baseCooldownMs * 2 ^ (failStreak (s.step op).log a.line - 1) * 1000000 := by
  intro h
  have := h streakRun (fireAt 20000000000) ⟨0, 20000000000, false, false, 20010000000, ⟨3, 1, 28010000000⟩⟩
    streakRun_reachable (by decide) (by decide) rfl
  revert this
  decide

end FuzzwareAdapt
