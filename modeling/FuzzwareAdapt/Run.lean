import FuzzwareAdapt.WaitInterceptor

/-!
# Runs of the manager

A run interleaves the manager's operations (`notify_progress`, `saw_wait_at`, `on_irq_fired`, a
direct `fire_one_irq`) with invocations of the wait hook, at clock readings that never go back.
`Sys` adds two ghost components to the manager: the last clock reading taken, and the log of the
attempts `fire_one_irq` made.  `Reachable P` is every state a run of operations allowed by `P`
reaches from `__init__`.

`Op.stats_cases` says once what an operation can do to `irq_stats`: nothing, or the attempt it logs
on a line that was not cooling down.  `Attempt.raised` marks an attempt whose backoff raised
`OverflowError`, and `fireOneIrq_isOk` says that `fire_one_irq` raises exactly then.  `Reachable.frozen` and `Reachable.lastProgress_le` are the
facts every later invariant uses.
-/

namespace FuzzwareAdapt

/-- What one `fire_one_irq` that found a line did: the line `_pick_irq` returned (the one
`_raise_irq` was called with), the clock reading of `_pick_irq`, whether it was credited, whether
the wait hook made it, the reading the backoff adds the cooldown to, and the line's record after. -/
structure Attempt where
  line : Int
  pick : Int
  won : Bool
  hook : Bool
  coolAt : Int
  after : IrqStat
  deriving DecidableEq

/-- Whether the attempt's `cooldown / 1000.0` raised `OverflowError`, with `base` the
`base_cooldown_ms` of its manager: it failed, and its cooldown does not fit a float. -/
def Attempt.raised (base : Int) (a : Attempt) : Bool :=
  !a.won && floatOverflows (base * 2 ^ (a.after.tries - a.after.wins - 1))

namespace AdaptiveIRQManager

variable (m : AdaptiveIRQManager) (d : Draw) (c : FireClock)

/-- The attempt `fire_one_irq` makes, when `_pick_irq` finds a line. -/
def attemptOf (hook : Bool) : Option Attempt :=
  (m.pickIrq c.pick d).map fun n =>
    ⟨n, c.pick, m.madeProgressRecently c.check, hook, c.cool,
      m.attempt (m.madeProgressRecently c.check) c.cool (lookupStat m.irqStats n)⟩

/-- The last clock reading `fire_one_irq` takes. -/
def fireEnd : Int :=
  match m.pickIrq c.pick d with
  | none => c.pick
  | some _ => if m.madeProgressRecently c.check then c.check else c.cool

/-- What one `fire_one_irq` does to the statistics: nothing when no line is free, else the logged
attempt on a non-cooling line. -/
theorem fireOneIrq_cases (hook : Bool) :
    (m.attemptOf d c hook = none ∧ (m.fireOneIrq d c).2.irqStats = m.irqStats) ∨
    ∃ a, m.attemptOf d c hook = some a ∧ a.line ∈ candidates m.irqStats c.pick ∧ a.pick = c.pick ∧
      a.won = m.madeProgressRecently c.check ∧ a.hook = hook ∧ a.coolAt = c.cool ∧
      a.after = m.attempt a.won a.coolAt (lookupStat m.irqStats a.line) ∧
      (m.fireOneIrq d c).2.irqStats = modifyStat m.irqStats a.line (m.attempt a.won a.coolAt) := by
  cases h : m.pickIrq c.pick d with
  | none => exact .inl ⟨by simp [attemptOf, h], by rw [fireOneIrq_of_none m d c h]⟩
  | some n =>
    refine .inr ⟨_, by simp [attemptOf, h]; rfl, m.pickIrq_mem c.pick d h, rfl, rfl, rfl, rfl, rfl, ?_⟩
    rw [fireOneIrq_snd_of_some m d c h]

theorem raised_mk (n pick : Int) (won hook : Bool) (cool : Int) (s : IrqStat) :
    (⟨n, pick, won, hook, cool, m.attempt won cool s⟩ : Attempt).raised m.baseCooldownMs = m.attemptRaises won s :=
  (attemptRaises_eq m won cool s).symm

/-- `fire_one_irq` raises exactly when the attempt it logs raised. -/
theorem fireOneIrq_isOk (hook : Bool) :
    (m.fireOneIrq d c).1.isOk = !(m.attemptOf d c hook).any (Attempt.raised m.baseCooldownMs) := by
  cases h : m.pickIrq c.pick d with
  | none => simp [fireOneIrq_of_none m d c h, attemptOf, h, Except.isOk, Except.toBool]
  | some n =>
    simp only [fireOneIrq_fst_of_some m d c h, attemptOf, h, Option.map_some', Option.any_some, raised_mk]
    cases m.attemptRaises (m.madeProgressRecently c.check) (lookupStat m.irqStats n) <;> rfl

end AdaptiveIRQManager

/-- `FireClock.Fits now c`: the readings of one `fire_one_irq` come after `now`, in call order,
with the grace sleep of 10 ms between `_pick_irq` and `_made_progress_recently`. -/
def FireClock.Fits (now : Int) (c : FireClock) : Prop :=
  now ≤ c.pick ∧ c.pick + 10000000 ≤ c.check ∧ c.check ≤ c.cool

/-- `HookClock.Fits now c`: the readings of one invocation of the hook come after `now`, in call
order. -/
def HookClock.Fits (now : Int) (c : HookClock) : Prop :=
  now ≤ c.saw ∧ c.saw ≤ c.ready ∧ c.ready ≤ c.should ∧ c.fire.Fits c.should ∧ c.fire.cool ≤ c.fired ∧
    c.should ≤ c.progress

instance (now : Int) (c : FireClock) : Decidable (c.Fits now) :=
  inferInstanceAs (Decidable (_ ∧ _ ∧ _))

instance (now : Int) (c : HookClock) : Decidable (c.Fits now) :=
  inferInstanceAs (Decidable (_ ∧ _ ∧ _ ∧ _ ∧ _ ∧ _))

/-- An operation of a run. -/
inductive Op
  | notifyProgress (t : Int)
  | sawWaitAt (pc t : Int)
  | onIrqFired (t : Int)
  | fireOneIrq (d : Draw) (c : FireClock)
  | onWait (pc : Int) (d : Draw) (c : HookClock)

namespace Op

/-- The manager after the operation. -/
def run : Op → AdaptiveIRQManager → AdaptiveIRQManager
  | notifyProgress t, m => m.notifyProgress t
  | sawWaitAt pc t, m => m.sawWaitAt pc t
  | onIrqFired t, m => m.onIrqFired t
  | fireOneIrq d c, m => (m.fireOneIrq d c).2
  | onWait pc d c, m => (FuzzwareAdapt.onWait m pc d c).2

/-- The `fire_one_irq` the operation runs, if any: on which manager, with which draws and readings,
and whether the hook runs it. -/
def fire? : Op → AdaptiveIRQManager → Option (AdaptiveIRQManager × Draw × FireClock × Bool)
  | fireOneIrq d c, m => some (m, d, c, false)
  | onWait pc d c, m =>
    if (m.sawWaitAt pc c.saw).ready c.ready && (m.sawWaitAt pc c.saw).shouldTryIrq c.should then
      some (m.sawWaitAt pc c.saw, d, c.fire, true)
    else none
  | _, _ => none

/-- The attempts the operation logs. -/
def attempts (op : Op) (m : AdaptiveIRQManager) : List Attempt :=
  match op.fire? m with
  | some (m', d, c, hook) => (m'.attemptOf d c hook).toList
  | none => []

/-- The last clock reading the operation takes. -/
def last : Op → AdaptiveIRQManager → Int
  | notifyProgress t, _ => t
  | sawWaitAt _ t, _ => t
  | onIrqFired t, _ => t
  | fireOneIrq d c, m => m.fireEnd d c
  | onWait pc d c, m =>
    if !(m.sawWaitAt pc c.saw).ready c.ready then c.ready
    else if (m.sawWaitAt pc c.saw).shouldTryIrq c.should then
      if ((m.sawWaitAt pc c.saw).fireOneIrq d c.fire).1.isOk then c.fired else c.fire.cool
    else c.progress

/-- The operation reads the clock after `now`, in call order. -/
def Fits (now : Int) : Op → Prop
  | notifyProgress t => now ≤ t
  | sawWaitAt _ t => now ≤ t
  | onIrqFired t => now ≤ t
  | fireOneIrq _ c => c.Fits now
  | onWait _ _ c => c.Fits now

instance (now : Int) : (op : Op) → Decidable (op.Fits now)
  | notifyProgress t => inferInstanceAs (Decidable (now ≤ t))
  | sawWaitAt _ t => inferInstanceAs (Decidable (now ≤ t))
  | onIrqFired t => inferInstanceAs (Decidable (now ≤ t))
  | fireOneIrq _ c => inferInstanceAs (Decidable (c.Fits now))
  | onWait _ _ c => inferInstanceAs (Decidable (c.Fits now))

/-- A direct call of `fire_one_irq`, not made by the hook. -/
def isFire : Op → Bool
  | fireOneIrq _ _ => true
  | _ => false

end Op

/-- A manager with the ghost clock and attempt log of its run. -/
structure Sys where
  mgr : AdaptiveIRQManager
  now : Int
  log : List Attempt

/-- One operation of a run. -/
def Sys.step (s : Sys) (op : Op) : Sys :=
  ⟨op.run s.mgr, op.last s.mgr, s.log ++ op.attempts s.mgr⟩

/-- The states reached from `__init__` by operations `P` allows, on a clock that never goes back. -/
inductive Reachable (P : Op → Prop) (cfg : Config) (uc : Host) : Sys → Prop
  | init (t₀ t₁ : Int) : t₀ ≤ t₁ → Reachable P cfg uc ⟨.init cfg uc t₀ t₁, t₁, []⟩
  | step {s : Sys} (op : Op) :
      Reachable P cfg uc s → P op → op.Fits s.now → Reachable P cfg uc (s.step op)

/-! ### What an operation does to the statistics -/

namespace Op

/-- The `fire_one_irq` an operation runs is a direct call, or the hook's after `saw_wait_at`, once
`ready` and `should_try_irq` hold. -/
theorem fire?_eq_some {op : Op} {m m' : AdaptiveIRQManager} {d : Draw} {c : FireClock} {hook : Bool}
    (h : op.fire? m = some (m', d, c, hook)) :
    (op = .fireOneIrq d c ∧ m' = m ∧ hook = false) ∨
    ∃ pc hc, op = .onWait pc d hc ∧ c = hc.fire ∧ m' = m.sawWaitAt pc hc.saw ∧ hook = true ∧
      m'.ready hc.ready = true ∧ m'.shouldTryIrq hc.should = true := by
  cases op with
  | fireOneIrq d' c' =>
    simp only [fire?, Option.some.injEq, Prod.mk.injEq] at h
    obtain ⟨rfl, rfl, rfl, rfl⟩ := h
    exact .inl ⟨rfl, rfl, rfl⟩
  | onWait pc d' hc =>
    simp only [fire?] at h
    split at h
    · rename_i hg
      simp only [Option.some.injEq, Prod.mk.injEq] at h
      obtain ⟨rfl, rfl, rfl, rfl⟩ := h
      simp only [Bool.and_eq_true] at hg
      exact .inr ⟨pc, hc, rfl, rfl, rfl, rfl, hg⟩
    · cases h
  | _ => cases h

theorem fire?_some {op : Op} {m m' : AdaptiveIRQManager} {d : Draw} {c : FireClock} {hook : Bool}
    (h : op.fire? m = some (m', d, c, hook)) :
    m'.irqStats = m.irqStats ∧ m'.baseCooldownMs = m.baseCooldownMs ∧
      (op.run m).irqStats = (m'.fireOneIrq d c).2.irqStats := by
  rcases fire?_eq_some h with ⟨rfl, rfl, -⟩ | ⟨pc, hc, rfl, rfl, rfl, -, hr, hs⟩
  · exact ⟨rfl, rfl, rfl⟩
  · refine ⟨by simp, by rw [AdaptiveIRQManager.sawWaitAt_eq], ?_⟩
    rcases onWait_cases m pc d hc with ⟨hr', -⟩ | ⟨-, -, -, he⟩ | ⟨-, -, -, he⟩ | ⟨-, hs', -⟩
    · simp [hr] at hr'
    · simp [run, he]
    · simp [run, he]
    · simp [hs] at hs'

theorem run_irqStats_of_none {op : Op} {m : AdaptiveIRQManager} (h : op.fire? m = none) :
    (op.run m).irqStats = m.irqStats := by
  cases op with
  | fireOneIrq d c => cases h
  | onWait pc d c =>
    simp only [fire?] at h
    split at h
    · cases h
    · rename_i hg
      obtain ⟨hr, hs⟩ | ⟨hr, hs, -⟩ | ⟨hr, hs, -⟩ | ⟨hr, hs, he⟩ := onWait_cases m pc d c
      · simp [run, hs]
      · simp [hr, hs] at hg
      · simp [hr, hs] at hg
      · simp [run, he]
  | _ => simp [run]

/-- What an operation does to `irq_stats`: nothing and no attempt, or one logged attempt on a line
that was not cooling down at its pick, whose record is updated in place. -/
theorem stats_cases (op : Op) (m : AdaptiveIRQManager) :
    (op.attempts m = [] ∧ (op.run m).irqStats = m.irqStats) ∨
    ∃ a, op.attempts m = [a] ∧ a.line ∈ candidates m.irqStats a.pick ∧
      a.after = m.attempt a.won a.coolAt (lookupStat m.irqStats a.line) ∧
      (op.run m).irqStats = modifyStat m.irqStats a.line (m.attempt a.won a.coolAt) := by
  cases hf : op.fire? m with
  | none => exact .inl ⟨by simp [attempts, hf], run_irqStats_of_none hf⟩
  | some x =>
    obtain ⟨m', d, c, hook⟩ := x
    obtain ⟨hst, hbase, hrun⟩ := fire?_some hf
    have hatt : m'.attempt = m.attempt := by
      funext won now s
      simp only [AdaptiveIRQManager.attempt, AdaptiveIRQManager.cooldown, hbase]
    rcases m'.fireOneIrq_cases d c hook with ⟨hn, hs⟩ | ⟨a, ha, hmem, hpick, -, -, -, hafter, hs⟩
    · exact .inl ⟨by simp [attempts, hf, hn], by rw [hrun, hs, hst]⟩
    · refine .inr ⟨a, by simp [attempts, hf, ha], ?_, ?_, ?_⟩
      · rw [← hst, hpick]; exact hmem
      · rw [hafter, hatt, hst]
      · rw [hrun, hs, hatt, hst]

end Op

/-! ### The attempts of an operation -/

namespace AdaptiveIRQManager

theorem attemptOf_some {m : AdaptiveIRQManager} {d : Draw} {c : FireClock} {hook : Bool} {a : Attempt}
    (h : m.attemptOf d c hook = some a) :
    m.pickIrq c.pick d = some a.line ∧ a.pick = c.pick ∧ a.won = m.madeProgressRecently c.check ∧
      a.hook = hook ∧ a.coolAt = c.cool := by
  unfold attemptOf at h
  cases hp : m.pickIrq c.pick d with
  | none => simp [hp] at h
  | some n =>
    simp only [hp, Option.map_some', Option.some.injEq] at h
    subst h
    exact ⟨rfl, rfl, rfl, rfl, rfl⟩

end AdaptiveIRQManager

namespace Op

theorem mem_attempts {op : Op} {m : AdaptiveIRQManager} {a : Attempt} (ha : a ∈ op.attempts m) :
    ∃ m' d c, op.fire? m = some (m', d, c, a.hook) ∧ m'.attemptOf d c a.hook = some a := by
  unfold attempts at ha
  split at ha
  · rename_i m' d c hook hf
    obtain ⟨-, -, -, hh, -⟩ := AdaptiveIRQManager.attemptOf_some (Option.mem_toList.1 ha)
    subst hh
    exact ⟨m', d, c, hf, Option.mem_toList.1 ha⟩
  · cases ha

/-- An attempt's pick comes after the run's last reading, and its backoff reading at least the
grace sleep after its pick. -/
theorem attempt_clock {op : Op} {m : AdaptiveIRQManager} {now : Int} (hfit : op.Fits now) {a : Attempt}
    (ha : a ∈ op.attempts m) : now ≤ a.pick ∧ a.pick + 10000000 ≤ a.coolAt := by
  obtain ⟨m', d, c, hf, hat⟩ := mem_attempts ha
  obtain ⟨-, hp, -, -, hc⟩ := AdaptiveIRQManager.attemptOf_some hat
  rcases fire?_eq_some hf with ⟨rfl, -, -⟩ | ⟨pc, hc', rfl, rfl, -, -, -, -⟩
  · obtain ⟨h1, h2, h3⟩ := hfit
    omega
  · obtain ⟨h1, h2, h3, ⟨h4, h5, h6⟩, -, -⟩ := hfit
    omega

end Op

/-! ### Facts of every run -/

namespace AdaptiveIRQManager

theorem fireOneIrq_snd (m : AdaptiveIRQManager) (d : Draw) (c : FireClock) :
    (m.fireOneIrq d c).2 = { m with irqStats := (m.fireOneIrq d c).2.irqStats } := by
  unfold fireOneIrq; split <;> rfl

theorem fireEnd_ge (m : AdaptiveIRQManager) (d : Draw) (c : FireClock) (hc : c.Fits now) :
    c.pick ≤ m.fireEnd d c := by
  unfold fireEnd; split
  · exact le_rfl
  · split <;> unfold FireClock.Fits at hc <;> omega

end AdaptiveIRQManager

namespace Op

variable (op : Op) (m : AdaptiveIRQManager)

/-- No operation writes the tunables or the candidate lines. -/
theorem run_frozen :
    (op.run m).warmupSec = m.warmupSec ∧ (op.run m).stallMs = m.stallMs ∧
      (op.run m).minBetweenIrqsMs = m.minBetweenIrqsMs ∧ (op.run m).baseCooldownMs = m.baseCooldownMs ∧
      (op.run m).epsilon = m.epsilon ∧ (op.run m).startTs = m.startTs := by
  cases op with
  | onWait pc d c =>
    rcases onWait_cases m pc d c with ⟨-, h⟩ | ⟨-, -, -, h⟩ | ⟨-, -, -, h⟩ | ⟨-, -, h⟩ <;>
      simp only [run, h] <;> (try rw [AdaptiveIRQManager.fireOneIrq_snd]) <;>
      simp [AdaptiveIRQManager.sawWaitAt_eq, AdaptiveIRQManager.onIrqFired,
        AdaptiveIRQManager.notifyProgress]
  | fireOneIrq d c => rw [run, AdaptiveIRQManager.fireOneIrq_snd]; simp
  | _ => simp [run, AdaptiveIRQManager.sawWaitAt_eq, AdaptiveIRQManager.onIrqFired,
      AdaptiveIRQManager.notifyProgress]

variable {op} {now : Int} (hfit : op.Fits now)
include hfit

/-- The clock never goes back across an operation. -/
theorem now_le_last : now ≤ op.last m := by
  cases op with
  | onWait pc d c =>
    obtain ⟨h1, h2, h3, ⟨h4, h5, h6⟩, h7, h8⟩ := hfit
    simp only [last]; split_ifs <;> omega
  | fireOneIrq d c => exact hfit.1.trans (m.fireEnd_ge d c hfit)
  | _ => exact hfit

/-- `_last_progress` is a reading already taken. -/
theorem lastProgress_le (hle : m.lastProgress ≤ now) : (op.run m).lastProgress ≤ op.last m := by
  cases op with
  | onWait pc d c =>
    obtain ⟨h1, h2, h3, ⟨h4, h5, h6⟩, h7, h8⟩ := hfit
    have hsaw : (m.sawWaitAt pc c.saw).lastProgress ≤ c.saw := by
      rw [AdaptiveIRQManager.sawWaitAt_eq]; dsimp only; split <;> omega
    rcases onWait_cases m pc d c with ⟨hr, h⟩ | ⟨hr, hs, ho, h⟩ | ⟨hr, hs, ho, h⟩ | ⟨hr, hs, h⟩
    · simp only [run, last, h, hr, Bool.not_false, if_true]; omega
    · simp only [run, last, h, hr, hs, ho, Bool.not_true, Bool.false_eq_true, if_false, if_true,
        AdaptiveIRQManager.onIrqFired_lastProgress, AdaptiveIRQManager.fireOneIrq_lastProgress]
      omega
    · simp only [run, last, h, hr, hs, ho, Bool.not_true, Bool.false_eq_true, if_false, if_true,
        AdaptiveIRQManager.fireOneIrq_lastProgress]
      omega
    · simp [run, last, h, hr, hs]
  | fireOneIrq d c =>
    simp only [run, last, AdaptiveIRQManager.fireOneIrq_lastProgress]
    exact hle.trans (now_le_last m hfit)
  | notifyProgress t => exact le_rfl
  | sawWaitAt pc t =>
    simp only [run, last, AdaptiveIRQManager.sawWaitAt_eq]; split <;> (unfold Fits at hfit; omega)
  | onIrqFired t => exact hle.trans hfit

end Op

namespace Reachable

variable {P : Op → Prop} {cfg : Config} {uc : Host} {s : Sys}

/-- The tunables stay those `__init__` resolved. -/
theorem frozen (hs : Reachable P cfg uc s) :
    s.mgr.warmupSec = cfg.warmupSec ∧ s.mgr.stallMs = cfg.stallMs ∧
      s.mgr.minBetweenIrqsMs = cfg.minBetweenIrqsMs ∧ s.mgr.baseCooldownMs = cfg.cooldownMs ∧
      s.mgr.epsilon = cfg.epsilon ∧ s.mgr.startTs ≤ s.now := by
  induction hs with
  | init t₀ t₁ h => exact ⟨rfl, rfl, rfl, rfl, rfl, h⟩
  | step op _ _ hfit ih =>
    obtain ⟨h1, h2, h3, h4, h5, h6⟩ := Op.run_frozen op _
    obtain ⟨i1, i2, i3, i4, i5, i6⟩ := ih
    exact ⟨h1.trans i1, h2.trans i2, h3.trans i3, h4.trans i4, h5.trans i5,
      h6 ▸ i6.trans (Op.now_le_last _ hfit)⟩

theorem lastProgress_le (hs : Reachable P cfg uc s) : s.mgr.lastProgress ≤ s.now := by
  induction hs with
  | init t₀ t₁ _ => exact le_rfl
  | step op _ _ hfit ih => exact Op.lastProgress_le _ hfit ih

end Reachable

end FuzzwareAdapt
