import FuzzwareAdapt.Bookkeeping

/-!
# The injection gates

When the wait hook injects, over whole runs.

* `injection_gates`: an invocation that skips the wait has run `fire_one_irq` after the warm-up,
  with `last_progress` at least `stall_ms` old (its own `saw_wait_at` counted) and the last
  `on_irq_fired` at least `min_between_irqs_ms` back; over a run, the hook's attempts all come
  after the warm-up, and each one `min_between_irqs_ms` after the end of an earlier one that did
  not raise.  An attempt whose backoff raised skips `on_irq_fired`, so the next one may follow it
  closely (`overflow_spacing_counterexample`).
* `stuck_wait_interception`: at the wait site it saw last, a hit `stall_ms` after the run's last
  clock reading runs `fire_one_irq`, and is intercepted unless that raised; hits closer than
  `stall_ms` to each other are never intercepted, however long the run, since every hit past the
  warm-up that fails `should_try_irq` counts as progress.
* `hook_once_per_stall`: the spacing gate stamps progress too, so of hits at one site that each
  come closer than `stall_ms` and `min_between_irqs_ms` to the one before, at most one is
  intercepted, and only the first when its attempt does not raise, from any state.
* `hook_never_credits`: with `stall_ms ≥ 100` an attempt of the hook is never credited, so
  exploitation takes the first line that is not cooling down, in enumeration order.
* `hook_rate`: the spacing and the grace sleep of `fire_one_irq` bound the hook's injection rate:
  in any clock window of length `L`, at most `L / (min_between_irqs_ms + 10 ms) + 1` attempts that
  did not raise, and at most `L / 10 ms + 1` in all.
-/

namespace FuzzwareAdapt

/-! ### One invocation -/

/-- The hook skips the wait only past both gates, after a `fire_one_irq` that returned and
`on_irq_fired`. -/
theorem onWait_fst_eq_true {m : AdaptiveIRQManager} {pc : Int} {d : Draw} {c : HookClock}
    (h : (onWait m pc d c).1 = true) :
    m.ready c.ready = true ∧ (m.sawWaitAt pc c.saw).shouldTryIrq c.should = true ∧
      ((m.sawWaitAt pc c.saw).fireOneIrq d c.fire).1.isOk = true ∧
      (onWait m pc d c).2 = ((m.sawWaitAt pc c.saw).fireOneIrq d c.fire).2.onIrqFired c.fired := by
  rcases onWait_cases m pc d c with ⟨-, he⟩ | ⟨hr, hs, ho, he⟩ | ⟨-, -, -, he⟩ | ⟨-, -, he⟩ <;> rw [he] at h ⊢
  · cases h
  · exact ⟨by simpa using hr, hs, ho, rfl⟩
  · cases h
  · cases h

namespace Op

variable {op : Op} {m : AdaptiveIRQManager} {a : Attempt}

/-- An attempt of the hook was made past both gates, on the manager after `saw_wait_at`; unless
its backoff raised, the hook's `on_irq_fired` then took the operation's last reading and wrote it
to `last_irq_ts`. -/
theorem attempt_of_hook (ha : a ∈ op.attempts m) (hh : a.hook = true) :
    ∃ pc d c, op = .onWait pc d c ∧ m.ready c.ready = true ∧
      (m.sawWaitAt pc c.saw).shouldTryIrq c.should = true ∧ a.pick = c.fire.pick ∧
      a.won = (m.sawWaitAt pc c.saw).madeProgressRecently c.fire.check ∧ a.coolAt = c.fire.cool ∧
      (op.run m).lastIrqTs = (if a.raised m.baseCooldownMs then m.lastIrqTs else c.fired) ∧
      op.last m = if a.raised m.baseCooldownMs then c.fire.cool else c.fired := by
  obtain ⟨m', d, c, hf, hat⟩ := mem_attempts ha
  obtain ⟨-, hp, hw, -, hc⟩ := AdaptiveIRQManager.attemptOf_some hat
  rcases fire?_eq_some hf with ⟨-, -, h⟩ | ⟨pc, hc', rfl, rfl, rfl, -, hr, hs⟩
  · rw [hh] at h; cases h
  · have hok := (m.sawWaitAt pc hc'.saw).fireOneIrq_isOk d hc'.fire a.hook
    rw [hat, Option.any_some, AdaptiveIRQManager.sawWaitAt_baseCooldownMs] at hok
    refine ⟨pc, d, hc', rfl, by simpa using hr, hs, hp, hw, hc, ?_, ?_⟩ <;>
      cases hra : a.raised m.baseCooldownMs <;> simp_all [run, last, FuzzwareAdapt.onWait]

theorem hook_of_isFire_eq_false (hP : op.isFire = false) (ha : a ∈ op.attempts m) : a.hook = true := by
  obtain ⟨m', d, c, hf, -⟩ := mem_attempts ha
  rcases fire?_eq_some hf with ⟨rfl, -, -⟩ | ⟨-, -, -, -, -, h, -⟩
  · cases hP
  · exact h

/-- `last_irq_ts` moves only to a reading the operation takes. -/
theorem lastIrqTs_run {now : Int} (hfit : op.Fits now) :
    (op.run m).lastIrqTs = m.lastIrqTs ∨ now ≤ (op.run m).lastIrqTs := by
  cases op with
  | onWait pc d c =>
    obtain ⟨h1, h2, h3, ⟨h4, h5, h6⟩, h7, h8⟩ := hfit
    rcases onWait_cases m pc d c with ⟨-, h⟩ | ⟨-, -, -, h⟩ | ⟨-, -, -, h⟩ | ⟨-, -, h⟩
    · exact .inl (by simp [run, h])
    · exact .inr (by simp only [run, h, AdaptiveIRQManager.onIrqFired_lastIrqTs]; omega)
    · exact .inl (by simp [run, h])
    · exact .inl (by simp [run, h])
  | onIrqFired t => exact .inr hfit
  | _ => exact .inl (by simp [run])

/-- With `stall_ms ≥ 100` an attempt of the hook is not credited: `should_try_irq` found
`last_progress` `stall_ms` old, and nothing refreshes it before `_made_progress_recently`. -/
theorem hook_attempt_not_won {now : Int} (hfit : op.Fits now) (hstall : 100 ≤ m.stallMs)
    (ha : a ∈ op.attempts m) (hh : a.hook = true) : a.won = false := by
  obtain ⟨pc, d, c, rfl, -, hs, -, hw, -⟩ := attempt_of_hook ha hh
  obtain ⟨-, -, -, ⟨h4, h5, -⟩, -, -⟩ := hfit
  rw [AdaptiveIRQManager.shouldTryIrq_iff, AdaptiveIRQManager.sawWaitAt_stallMs] at hs
  rw [hw, AdaptiveIRQManager.madeProgressRecently, decide_eq_false_iff_not]
  omega

end Op

/-- With every score 0, exploitation takes the first candidate. -/
theorem AdaptiveIRQManager.pickIrq_of_score_zero {m : AdaptiveIRQManager} {now : Int} {d : Draw}
    (hz : ∀ n, score m.irqStats n = 0) (hr : m.epsilon ≤ d.r) :
    m.pickIrq now d = (candidates m.irqStats now).head? := by
  cases hp : m.pickIrq now d with
  | none => rw [(m.pickIrq_eq_none now d).1 hp]; rfl
  | some n =>
    obtain ⟨pre, post, he, hpre, -⟩ := m.pickIrq_exploit now d hr hp
    cases pre with
    | nil => rw [he]; rfl
    | cons x pre => exact absurd (hpre x (List.mem_cons_self _ _)) (by rw [hz, hz]; exact lt_irrefl 0)

/-! ### The gates over a run -/

/-- What the hook's attempts in the log passed: the warm-up, and the spacing from each earlier
attempt that did not raise, whose `on_irq_fired` reading is at most `last_irq_ts`. -/
structure HookGates (s : Sys) : Prop where
  clock : ∀ a ∈ s.log, a.hook = true → a.coolAt ≤ s.now
  fired : ∀ a ∈ s.log, a.hook = true → a.raised s.mgr.baseCooldownMs = false → a.coolAt ≤ s.mgr.lastIrqTs
  warm : ∀ a ∈ s.log, a.hook = true → s.mgr.warmupSec * 1000000000 ≤ a.pick - s.mgr.startTs
  ordered : s.log.Pairwise fun a b => a.hook = true → b.hook = true → a.coolAt ≤ b.pick
  spaced : s.log.Pairwise fun a b => a.hook = true → a.raised s.mgr.baseCooldownMs = false → b.hook = true →
    a.coolAt + s.mgr.minBetweenIrqsMs * 1000000 ≤ b.pick

namespace HookGates

variable {s : Sys}

private theorem new_attempt {op : Op} (hfit : op.Fits s.now) {b : Attempt} (hb : b ∈ op.attempts s.mgr)
    (hh : b.hook = true) :
    s.now ≤ b.pick ∧ b.coolAt ≤ op.last s.mgr ∧
      (b.raised s.mgr.baseCooldownMs = false → b.coolAt ≤ (op.run s.mgr).lastIrqTs) ∧
      s.mgr.warmupSec * 1000000000 ≤ b.pick - s.mgr.startTs ∧
      s.mgr.lastIrqTs + s.mgr.minBetweenIrqsMs * 1000000 ≤ b.pick := by
  have hnow := (Op.attempt_clock hfit hb).1
  obtain ⟨pc, d, c, rfl, hr, hs, hp, -, hc, hl, hlast⟩ := Op.attempt_of_hook hb hh
  rw [AdaptiveIRQManager.ready_iff] at hr
  simp only [AdaptiveIRQManager.shouldTryIrq_iff, AdaptiveIRQManager.sawWaitAt_minBetweenIrqsMs,
    AdaptiveIRQManager.sawWaitAt_lastIrqTs] at hs
  obtain ⟨-, -, h3, ⟨h4, -, h6⟩, h7, -⟩ := hfit
  refine ⟨hnow, ?_, fun hraised => ?_, by omega, by omega⟩
  · rw [hlast]; split <;> omega
  · rw [hl, hraised, if_neg Bool.false_ne_true]; omega

private theorem pairwise_step {R : Attempt → Attempt → Prop} {op : Op} (h : s.log.Pairwise R)
    (hnew : ∀ a ∈ s.log, ∀ b ∈ op.attempts s.mgr, R a b) : (s.log ++ op.attempts s.mgr).Pairwise R := by
  refine List.pairwise_append.2 ⟨h, ?_, hnew⟩
  rcases op.stats_cases s.mgr with ⟨he, -⟩ | ⟨b, he, -⟩ <;> simp [he]

theorem step (h : HookGates s) {op : Op} (hfit : op.Fits s.now) : HookGates (s.step op) := by
  obtain ⟨hw, -, hmin, hbase, -, hst⟩ := op.run_frozen s.mgr
  have hnow := Op.now_le_last s.mgr hfit
  constructor <;> simp only [Sys.step, hw, hmin, hbase, hst]
  · intro a ha hh
    rcases List.mem_append.1 ha with ha | ha
    exacts [(h.clock a ha hh).trans hnow, (new_attempt hfit ha hh).2.1]
  · intro a ha hh hr
    rcases List.mem_append.1 ha with ha | ha
    · rcases Op.lastIrqTs_run (m := s.mgr) hfit with he | he
      exacts [he ▸ h.fired a ha hh hr, (h.clock a ha hh).trans he]
    · exact (new_attempt hfit ha hh).2.2.1 hr
  · intro a ha hh
    rcases List.mem_append.1 ha with ha | ha
    exacts [h.warm a ha hh, (new_attempt hfit ha hh).2.2.2.1]
  · refine pairwise_step h.ordered fun a ha b hb hah hbh => ?_
    have := (new_attempt hfit hb hbh).1
    have := h.clock a ha hah
    omega
  · refine pairwise_step h.spaced fun a ha b hb hah har hbh => ?_
    have := (new_attempt hfit hb hbh).2.2.2.2
    have := h.fired a ha hah har
    omega

end HookGates

theorem Reachable.hookGates {P : Op → Prop} {cfg : Config} {uc : Host} {s : Sys}
    (hs : Reachable P cfg uc s) : HookGates s := by
  induction hs with
  | init t₀ t₁ _ => exact ⟨by simp, by simp, by simp, List.Pairwise.nil, List.Pairwise.nil⟩
  | step op _ _ hfit ih => exact ih.step hfit

/-! ### Runs at one wait site -/

/-- Successive hits of the hook at one address: whether each one skips the wait. -/
def hookRun (m : AdaptiveIRQManager) (pc : Int) : List (Draw × HookClock) → List Bool
  | [] => []
  | (d, c) :: hits => (onWait m pc d c).1 :: hookRun (onWait m pc d c).2 pc hits

/-- Hits each reading the clock in `should_try_irq` less than `stall_ms` after the progress the
hit before stamped (the first one: after `last_progress`). -/
def Dense (stallMs : Int) : Int → List (Draw × HookClock) → Prop
  | _, [] => True
  | lp, (_, c) :: hits => c.should - lp < stallMs * 1000000 ∧ Dense stallMs c.progress hits

instance decDense (stallMs : Int) : (lp : Int) → (hits : List (Draw × HookClock)) →
    Decidable (Dense stallMs lp hits)
  | _, [] => isTrue trivial
  | _, (_, c) :: hits =>
    haveI := decDense stallMs c.progress hits
    inferInstanceAs (Decidable (_ ∧ _))

/-- At the wait site it saw last and after the warm-up, dense hits are never intercepted: each
one finds `last_progress` fresh, and stamps progress for the next. -/
theorem hookRun_dense {m : AdaptiveIRQManager} {pc : Int} (hpc : m.lastWaitPc = some pc) :
    ∀ hits : List (Draw × HookClock), (∀ h ∈ hits, m.ready h.2.ready = true) →
      Dense m.stallMs m.lastProgress hits → hookRun m pc hits = hits.map fun _ => false := by
  intro hits
  induction hits generalizing m with
  | nil => intros; rfl
  | cons h hits ih =>
    obtain ⟨d, c⟩ := h
    intro hr ⟨hlt, hd⟩
    have hon : onWait m pc d c = (false, m.notifyProgress c.progress) := by
      simp [onWait, m.sawWaitAt_of_eq hpc, hr _ (List.mem_cons_self _ _), AdaptiveIRQManager.shouldTryIrq,
        not_le.2 hlt]
    rw [hookRun, hon, List.map_cons]
    exact congrArg (false :: ·)
      (ih (m := m.notifyProgress c.progress) hpc (fun h' hh => hr h' (List.mem_cons_of_mem _ hh)) hd)

/-- Hit `h'` follows hit `h` closely: its `should_try_irq` reads the clock less than `stall_ms`
after the `notify_progress` of `h` and less than `min_between_irqs_ms` after its `on_irq_fired`. -/
def Packed (stallMs minBetweenIrqsMs : Int) (h h' : Draw × HookClock) : Prop :=
  h'.2.should - h.2.progress < stallMs * 1000000 ∧ h'.2.should - h.2.fired < minBetweenIrqsMs * 1000000

instance (stallMs minBetweenIrqsMs : Int) (h h' : Draw × HookClock) :
    Decidable (Packed stallMs minBetweenIrqsMs h h') :=
  inferInstanceAs (Decidable (_ ∧ _))

/-- A hit past the warm-up leaves the manager at its site, stamped with the reading of its
`on_irq_fired` if it intercepted and of its `notify_progress` if the gates let the wait run; only a
hit whose attempt raised stamps neither. -/
private theorem onWait_stamp (m : AdaptiveIRQManager) (pc : Int) (d : Draw) (c : HookClock)
    (hr : m.ready c.ready = true) :
    (onWait m pc d c).2.lastWaitPc = some pc ∧
      (((onWait m pc d c).2.lastIrqTs = c.fired ∨ (onWait m pc d c).2.lastProgress = c.progress) ∨
        (onWait m pc d c).1 = false ∧ ((m.sawWaitAt pc c.saw).fireOneIrq d c.fire).1.isOk = false) := by
  rcases onWait_cases m pc d c with ⟨hr', -⟩ | ⟨-, -, -, h⟩ | ⟨-, -, ho, h⟩ | ⟨-, -, h⟩
  · simp [hr] at hr'
  · rw [h, AdaptiveIRQManager.fireOneIrq_snd]
    simp [AdaptiveIRQManager.onIrqFired, AdaptiveIRQManager.sawWaitAt_eq]
  · refine ⟨by rw [h, AdaptiveIRQManager.fireOneIrq_snd]; simp [AdaptiveIRQManager.sawWaitAt_eq],
      .inr ⟨by rw [h], ho⟩⟩
  · rw [h]
    simp [AdaptiveIRQManager.notifyProgress, AdaptiveIRQManager.sawWaitAt_eq]

private theorem onWait_after_stamp {m : AdaptiveIRQManager} {pc : Int} (hpc : m.lastWaitPc = some pc)
    {h h' : Draw × HookClock} (hstamp : m.lastIrqTs = h.2.fired ∨ m.lastProgress = h.2.progress)
    (hr : m.ready h'.2.ready = true) (hp : Packed m.stallMs m.minBetweenIrqsMs h h') :
    onWait m pc h'.1 h'.2 = (false, m.notifyProgress h'.2.progress) := by
  have hshould : m.shouldTryIrq h'.2.should = false := by
    rw [← Bool.not_eq_true, AdaptiveIRQManager.shouldTryIrq_iff]
    obtain ⟨hs, hf⟩ := hp
    omega
  simp [onWait, m.sawWaitAt_of_eq hpc, hr, hshould]

private theorem dense_of_packed {stallMs minBetweenIrqsMs : Int} :
    ∀ {h : Draw × HookClock} {hits : List (Draw × HookClock)},
      hits.Chain (Packed stallMs minBetweenIrqsMs) h → Dense stallMs h.2.progress hits
  | _, [], _ => trivial
  | _, _ :: _, .cons hp hc => ⟨hp.1, dense_of_packed hc⟩

private theorem hookRun_after_stamp {m : AdaptiveIRQManager} {pc : Int} (hpc : m.lastWaitPc = some pc)
    {h : Draw × HookClock} (hstamp : m.lastIrqTs = h.2.fired ∨ m.lastProgress = h.2.progress) :
    ∀ {rest : List (Draw × HookClock)}, (∀ h' ∈ rest, m.ready h'.2.ready = true) →
      rest.Chain (Packed m.stallMs m.minBetweenIrqsMs) h → hookRun m pc rest = rest.map fun _ => false
  | [], _, _ => rfl
  | h' :: rest, hr, .cons hp hc => by
    rw [hookRun, onWait_after_stamp hpc hstamp (hr _ (List.mem_cons_self _ _)) hp, List.map_cons]
    exact congrArg (false :: ·) (hookRun_dense (m := m.notifyProgress h'.2.progress) hpc rest
      (fun h'' hh => hr h'' (List.mem_cons_of_mem _ hh)) (dense_of_packed hc))

/-! ### Interception, gates and credit over runs -/

section Runs

variable {P : Op → Prop} {cfg : Config} {uc : Host} {s : Sys}

/-- A manager made at clock 0, ready at once, on one line. -/
private def hitCfg : Config := { warmupSec := 0, maxIrq := 1 }

/-- A hit whose readings all fall at `t`, but for the grace sleep of an attempt. -/
private def hitAt (t : Int) : Draw × HookClock :=
  (⟨0, 0⟩, ⟨t, t, t, ⟨t, t + 10000000, t + 10000000⟩, t + 10000000, t⟩)

/-- Two hits at one wait site, 2 s apart: the first is let run, the second intercepted. -/
private def hitSys : Sys :=
  ((⟨.init hitCfg Host.bare 0 0, 0, []⟩ : Sys).step (.onWait 256 (hitAt 0).1 (hitAt 0).2)).step
    (.onWait 256 (hitAt 2000000000).1 (hitAt 2000000000).2)

private theorem hitSys_reachable : Reachable (fun op => op.isFire = false) hitCfg Host.bare hitSys :=
  .step _ (.step _ (.init 0 0 le_rfl) rfl (by decide)) rfl (by decide)

/-- Stuck at one wait: at the site it saw last and after the warm-up, a hit whose `should_try_irq`
reads the clock `stall_ms` after the run's last reading and `min_between_irqs_ms` after
`last_irq_ts` runs `fire_one_irq`, and is intercepted unless that raised; hits at that site, each
less than `stall_ms` after the progress the one before stamped, are never intercepted. -/
theorem stuck_wait_interception (hs : Reachable P cfg uc s) :
    (∀ a d (c : HookClock), s.mgr.lastWaitPc = some a →
      cfg.warmupSec * 1000000000 ≤ c.ready - s.mgr.startTs →
      cfg.stallMs * 1000000 ≤ c.should - s.now →
      cfg.minBetweenIrqsMs * 1000000 ≤ c.should - s.mgr.lastIrqTs →
      onWait s.mgr a d c = if (s.mgr.fireOneIrq d c.fire).1.isOk then
        (true, (s.mgr.fireOneIrq d c.fire).2.onIrqFired c.fired) else (false, (s.mgr.fireOneIrq d c.fire).2)) ∧
    ∀ a (hits : List (Draw × HookClock)), s.mgr.lastWaitPc = some a →
      (∀ h ∈ hits, cfg.warmupSec * 1000000000 ≤ h.2.ready - s.mgr.startTs) →
      Dense cfg.stallMs s.mgr.lastProgress hits → hookRun s.mgr a hits = hits.map fun _ => false := by
  obtain ⟨hw, hst, hmin, -, -, -⟩ := hs.frozen
  have hlp := hs.lastProgress_le
  refine ⟨fun a d c hpc hr hsh hsp => ?_, fun a hits hpc hr hd => ?_⟩
  · have hready : s.mgr.ready c.ready = true := by rw [AdaptiveIRQManager.ready_iff, hw]; exact hr
    have hshould : s.mgr.shouldTryIrq c.should = true := by
      rw [AdaptiveIRQManager.shouldTryIrq_iff, hst, hmin]; omega
    simp [onWait, s.mgr.sawWaitAt_of_eq hpc, hready, hshould]
  · exact hookRun_dense hpc hits (fun h hh => by rw [AdaptiveIRQManager.ready_iff, hw]; exact hr h hh)
      (hst ▸ hd)

theorem stuck_wait_interception_hitSys :
    Reachable (fun op => op.isFire = false) hitCfg Host.bare hitSys ∧
    ((∀ a d (c : HookClock), hitSys.mgr.lastWaitPc = some a →
      hitCfg.warmupSec * 1000000000 ≤ c.ready - hitSys.mgr.startTs →
      hitCfg.stallMs * 1000000 ≤ c.should - hitSys.now →
      hitCfg.minBetweenIrqsMs * 1000000 ≤ c.should - hitSys.mgr.lastIrqTs →
      onWait hitSys.mgr a d c = if (hitSys.mgr.fireOneIrq d c.fire).1.isOk then
        (true, (hitSys.mgr.fireOneIrq d c.fire).2.onIrqFired c.fired) else (false, (hitSys.mgr.fireOneIrq d c.fire).2)) ∧
    ∀ a (hits : List (Draw × HookClock)), hitSys.mgr.lastWaitPc = some a →
      (∀ h ∈ hits, hitCfg.warmupSec * 1000000000 ≤ h.2.ready - hitSys.mgr.startTs) →
      Dense hitCfg.stallMs hitSys.mgr.lastProgress hits → hookRun hitSys.mgr a hits = hits.map fun _ => false) :=
  ⟨hitSys_reachable, stuck_wait_interception hitSys_reachable⟩

/-- From a fresh manager, ready at once: three hits at one wait site, 1 s apart, each let run;
the third comes 2 s after the first, past `stall_ms + min_between_irqs_ms`, with no interception
before it. -/
theorem stuck_wait_counterexample :
    let m : AdaptiveIRQManager := .init hitCfg Host.bare 0 0
    0 < m.stallMs ∧ (hitAt 0).2.Fits 0 ∧ (hitAt 1000000000).2.Fits 0 ∧
      (hitAt 2000000000).2.Fits 1000000000 ∧
      (m.stallMs + m.minBetweenIrqsMs) * 1000000 < 2000000000 - 0 ∧
      hookRun m 256 [hitAt 0, hitAt 1000000000, hitAt 2000000000] = [false, false, false] := by
  decide

/-- A stuck wait is intercepted at most once while it is hit closely: past the warm-up, in a stream
of hits at one wait site that each follow the one before closely (`Packed`), from any manager state,
at most one hit is intercepted, and when the first hit's attempt does not raise, only the first can
be. A hit inside the spacing window counts as progress, so the stall has to build up again, with a
gap of `stall_ms` between hits, before the next interception; a hit whose attempt raised stamps
nothing, and the hit after it may then be intercepted. -/
theorem hook_once_per_stall (m : AdaptiveIRQManager) (pc : Int) (hits : List (Draw × HookClock))
    (hr : ∀ h ∈ hits, m.ready h.2.ready = true) (hc : hits.Chain' (Packed m.stallMs m.minBetweenIrqsMs)) :
    (hookRun m pc hits).count true ≤ 1 ∧
      ∀ h ∈ hits.head?, ((m.sawWaitAt pc h.2.saw).fireOneIrq h.1 h.2.fire).1.isOk = true →
        (hookRun m pc hits).tail = hits.tail.map fun _ => false := by
  induction hits generalizing m with
  | nil => exact ⟨by simp [hookRun], fun _ hh => by cases hh⟩
  | cons h rest ih =>
    obtain ⟨hpc, hstamp⟩ := onWait_stamp m pc h.1 h.2 (hr _ (List.mem_cons_self _ _))
    obtain ⟨hw, hst, hmin, -, -, hts⟩ := Op.run_frozen (.onWait pc h.1 h.2) m
    simp only [Op.run] at hw hst hmin hts
    -- the manager after the first hit is as ready, and the rest as closely packed, as before it
    have hready : ∀ h' ∈ rest, (onWait m pc h.1 h.2).2.ready h'.2.ready = true := fun h' hh => by
      rw [← hr h' (List.mem_cons_of_mem _ hh)]
      simp only [AdaptiveIRQManager.ready, hw, hts]
    have hchain : rest.Chain (Packed (onWait m pc h.1 h.2).2.stallMs (onWait m pc h.1 h.2).2.minBetweenIrqsMs) h := by
      rw [hst, hmin]; exact hc
    have hcount : ∀ b, (b :: rest.map fun _ => false).count true ≤ 1 := fun b => by
      have : (rest.map fun _ => false).count true = 0 := List.count_eq_zero.2 (by simp)
      cases b <;> simp only [List.count_cons, this] <;> decide
    rw [hookRun, List.tail_cons, List.tail_cons]
    rcases hstamp with hs | ⟨h1, hok⟩
    · rw [hookRun_after_stamp hpc hs hready hchain]
      exact ⟨hcount _, fun _ _ _ => rfl⟩
    · -- the first hit raised: it is let run and stamps nothing, and the rest start afresh
      refine ⟨?_, fun h' hh hok' => ?_⟩
      · rw [h1, List.count_cons_of_ne (by decide : true ≠ false)]
        exact (ih (onWait m pc h.1 h.2).2 hready (show List.Chain' _ (h :: rest) from hchain).tail).1
      · cases hh
        rw [hok] at hok'; cases hok'

/-- The manager after a first hit at site `256`, at clock 0, on a manager that never explores. -/
private def stampedMgr : AdaptiveIRQManager :=
  (onWait (.init { hitCfg with epsilon := 0 } Host.bare 0 0) 256 (hitAt 0).1 (hitAt 0).2).2

/-- Three hits 100 ms apart, 2 s after the first. -/
private def packedHits : List (Draw × HookClock) :=
  [hitAt 2000000000, hitAt 2100000000, hitAt 2200000000]

/-- Of three hits 100 ms apart after a first one 2 s before, the first is intercepted and the two
after it are let run. -/
theorem hook_once_per_stall_packedHits :
    ((∀ h ∈ packedHits, stampedMgr.ready h.2.ready = true) ∧
      packedHits.Chain' (Packed stampedMgr.stallMs stampedMgr.minBetweenIrqsMs)) ∧
    (hookRun stampedMgr 256 packedHits).head? = some true ∧
    ((hookRun stampedMgr 256 packedHits).count true ≤ 1 ∧
      ∀ h ∈ packedHits.head?, ((stampedMgr.sawWaitAt 256 h.2.saw).fireOneIrq h.1 h.2.fire).1.isOk = true →
        (hookRun stampedMgr 256 packedHits).tail = packedHits.tail.map fun _ => false) :=
  have hr : ∀ h ∈ packedHits, stampedMgr.ready h.2.ready = true := by decide
  have hc : packedHits.Chain' (Packed stampedMgr.stallMs stampedMgr.minBetweenIrqsMs) :=
    List.Chain.cons (by decide) (List.Chain.cons (by decide) List.Chain.nil)
  ⟨⟨hr, hc⟩, by decide, hook_once_per_stall _ 256 _ hr hc⟩

/-- A host whose `set_pending_irq` raises every line. -/
private def pendHost : Host := { Host.bare with setPendingIrq := some fun _ => true }

/-- Ready at once, on one line, never exploring, with a first backoff of `2 ** 1024` ms. -/
private def ovfCfg : Config := { warmupSec := 0, maxIrq := 1, epsilon := 0, cooldownMs := (1 <<< 1024 : Nat) }

/-- Three hits at one site: at 0 s, let run; at 2 s and at 2.02 s, each raising the line, and each
with a backoff that overflows. -/
private def ovfSys : Sys :=
  (((⟨.init ovfCfg pendHost 0 0, 0, []⟩ : Sys).step (.onWait 256 (hitAt 0).1 (hitAt 0).2)).step
    (.onWait 256 (hitAt 2000000000).1 (hitAt 2000000000).2)).step
    (.onWait 256 (hitAt 2020000000).1 (hitAt 2020000000).2)

theorem Reachable.hook_not_won (hstall : 100 ≤ cfg.stallMs)
    (hs : Reachable (fun op => op.isFire = false) cfg uc s) : ∀ a ∈ s.log, a.won = false := by
  induction hs with
  | init => simp
  | step op hprev hP hfit ih =>
    intro a ha
    rcases List.mem_append.1 ha with ha | ha
    · exact ih a ha
    · exact Op.hook_attempt_not_won hfit (by rw [hprev.frozen.2.1]; exact hstall) ha
        (Op.hook_of_isFire_eq_false hP ha)

/-- No success is credited when only the hook calls `fire_one_irq` and `stall_ms ≥ 100`: every
attempt takes the backoff branch, `wins` stays 0 on every line, every score is 0, and exploitation
returns the first line, in enumeration order, that is not cooling down. -/
theorem hook_never_credits (hstall : 100 ≤ cfg.stallMs)
    (hs : Reachable (fun op => op.isFire = false) cfg uc s) :
    (∀ a ∈ s.log, a.won = false) ∧ (∀ e ∈ s.mgr.irqStats, e.2.wins = 0) ∧
    (∀ n, score s.mgr.irqStats n = 0) ∧
    ∀ now d, s.mgr.epsilon ≤ d.r →
      s.mgr.pickIrq now d = ((initStats (enumerateIrqLines cfg uc)).map Prod.fst).find? fun n =>
        decide ((lookupStat s.mgr.irqStats n).coolUntil ≤ now) := by
  have h := hs.statsInv
  have hlog := hs.hook_not_won hstall
  have hwins : ∀ n, (lookupStat s.mgr.irqStats n).wins = 0 := fun n => by
    rw [h.wins, winsOn, List.countP_eq_zero]
    intro a ha
    simp [hlog a ha]
  have hscore : ∀ n, score s.mgr.irqStats n = 0 := fun n => by simp [score, hwins]
  refine ⟨hlog, fun ⟨n, st⟩ he => ?_, hscore, fun now d hr => ?_⟩
  · rw [← lookupStat_of_mem h.keys_nodup he]; exact hwins n
  · rw [AdaptiveIRQManager.pickIrq_of_score_zero hscore hr, candidates_eq_filter h.keys_nodup, h.keys,
      List.filter_head?]

theorem hook_never_credits_hitSys :
    100 ≤ hitCfg.stallMs ∧ Reachable (fun op => op.isFire = false) hitCfg Host.bare hitSys ∧
    ((∀ a ∈ hitSys.log, a.won = false) ∧ (∀ e ∈ hitSys.mgr.irqStats, e.2.wins = 0) ∧
    (∀ n, score hitSys.mgr.irqStats n = 0) ∧
    ∀ now d, hitSys.mgr.epsilon ≤ d.r →
      hitSys.mgr.pickIrq now d = ((initStats (enumerateIrqLines hitCfg Host.bare)).map Prod.fst).find? fun n =>
        decide ((lookupStat hitSys.mgr.irqStats n).coolUntil ≤ now)) :=
  ⟨by decide, hitSys_reachable, hook_never_credits (by decide) hitSys_reachable⟩

/-! ### The injection rate -/

/-- Every logged attempt took its backoff reading at least the grace sleep after its pick. -/
theorem Reachable.grace (hs : Reachable P cfg uc s) : ∀ a ∈ s.log, a.pick + 10000000 ≤ a.coolAt := by
  induction hs with
  | init => simp
  | step op _ _ hfit ih =>
    intro a ha
    rcases List.mem_append.1 ha with ha | ha
    exacts [ih a ha, (Op.attempt_clock hfit ha).2]

private theorem length_mul_le_of_spaced {α : Type} (f : α → Int) (g : Int) :
    ∀ (l : List α) (t L : Int), l.Pairwise (fun a b => f a + g ≤ f b) →
      (∀ a ∈ l, t ≤ f a ∧ f a ≤ t + L) → 0 ≤ L + g → (l.length : Int) * g ≤ L + g
  | [], _, _, _, _, h0 => by simpa using h0
  | a :: l, t, L, hp, hw, _ => by
    obtain ⟨ha, hl⟩ := List.pairwise_cons.1 hp
    have hat := hw a (List.mem_cons_self _ _)
    -- the rest lies in `[t + g, t + L]`, a window `g` shorter
    have ih := length_mul_le_of_spaced f g l (t + g) (L - g) hl
      (fun b hb => ⟨by linarith [ha b hb, hat.1], by linarith [(hw b (List.mem_cons_of_mem _ hb)).2]⟩)
      (by linarith [hat.1, hat.2])
    push_cast [List.length_cons]
    linarith

/-- The hook injects at most once per `min_between_irqs_ms` plus the 10 ms grace sleep: in every run,
the hook's attempts that did not raise and whose `_pick_irq` reading falls in a window of length `L`
number at most `L / (min_between_irqs_ms + 10 ms) + 1`; counting the attempts that raised, whose
`on_irq_fired` never ran, only the grace sleep spaces them: at most `L / 10 ms + 1`. -/
theorem hook_rate (hs : Reachable P cfg uc s) (hmin : 0 ≤ cfg.minBetweenIrqsMs) (t L : Int) (hL : 0 ≤ L) :
    ((s.log.filter fun a => a.hook && !a.raised cfg.cooldownMs && decide (t ≤ a.pick ∧ a.pick ≤ t + L)).length : Int) *
        (cfg.minBetweenIrqsMs * 1000000 + 10000000) ≤ L + (cfg.minBetweenIrqsMs * 1000000 + 10000000) ∧
    ((s.log.filter fun a => a.hook && decide (t ≤ a.pick ∧ a.pick ≤ t + L)).length : Int) * 10000000 ≤
      L + 10000000 := by
  have hgates := hs.hookGates
  have hgrace := hs.grace
  obtain ⟨-, -, hfrozen, hbase, -, -⟩ := hs.frozen
  have hwin : ∀ p : Attempt → Bool, ∀ a ∈ s.log.filter fun a => p a && decide (t ≤ a.pick ∧ a.pick ≤ t + L),
      a ∈ s.log ∧ p a = true ∧ t ≤ a.pick ∧ a.pick ≤ t + L := fun p a ha => by
    simpa only [List.mem_filter, Bool.and_eq_true, decide_eq_true_eq] using ha
  constructor
  · refine length_mul_le_of_spaced Attempt.pick _ _ t L ((hgates.spaced.filter _).imp_of_mem ?_)
      (fun a ha => (hwin _ a ha).2.2) (by omega)
    intro a b ha hb hab
    obtain ⟨ha, hp, -⟩ := hwin _ a ha
    obtain ⟨-, hpb, -⟩ := hwin _ b hb
    simp only [Bool.and_eq_true, Bool.not_eq_true'] at hp hpb
    have hsp := hab hp.1 (hbase ▸ hp.2) hpb.1
    have := hgrace a ha
    rw [hfrozen] at hsp
    omega
  · refine length_mul_le_of_spaced Attempt.pick _ _ t L ((hgates.ordered.filter _).imp_of_mem ?_)
      (fun a ha => (hwin _ a ha).2.2) (by omega)
    intro a b ha hb hab
    obtain ⟨ha, hah, -⟩ := hwin _ a ha
    have := hab hah (hwin _ b hb).2.1
    have := hgrace a ha
    omega

theorem hook_rate_hitSys :
    Reachable (fun op => op.isFire = false) hitCfg Host.bare hitSys ∧ 0 ≤ hitCfg.minBetweenIrqsMs ∧
      (0 : Int) ≤ 3000000000 ∧
      (((hitSys.log.filter fun a => a.hook && !a.raised hitCfg.cooldownMs &&
            decide (0 ≤ a.pick ∧ a.pick ≤ 0 + 3000000000)).length : Int) *
          (hitCfg.minBetweenIrqsMs * 1000000 + 10000000) ≤
        3000000000 + (hitCfg.minBetweenIrqsMs * 1000000 + 10000000) ∧
      ((hitSys.log.filter fun a => a.hook && decide (0 ≤ a.pick ∧ a.pick ≤ 0 + 3000000000)).length : Int) *
          10000000 ≤ 3000000000 + 10000000) :=
  ⟨hitSys_reachable, by decide, by decide, hook_rate hitSys_reachable (by decide) 0 3000000000 (by decide)⟩

end Runs

end FuzzwareAdapt
