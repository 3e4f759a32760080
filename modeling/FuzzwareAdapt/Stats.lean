import FuzzwareAdapt.Pick
import Mathlib.Tactic.NormNum

/-!
# The statistics of one attempt

The dict `irq_stats` keeps its keys under every update, and `fire_one_irq` touches only the record
of the line `_pick_irq` returned: one more try, then a win or the backoff (`fireOneIrq_snd_of_some`).
The backoff raises `OverflowError` once `cooldown / 1000.0` does not fit a float; the interrupt
was raised and the try counted before, and `cool_until` keeps its value (`fireOneIrq_fst_of_some`).

Whether the attempt counts as a win is decided by `_made_progress_recently` alone
(`fireOneIrq_wins`): progress notified up to 100 ms before the check is credited, and the value
`_raise_irq` returned never reaches the bookkeeping, so an attempt whose raise failed, or found no
capability at all, is credited all the same (`win_without_raise`).
-/

namespace FuzzwareAdapt

/-! ### The dict -/

section Dict

variable {d : List (Int × IrqStat)} {n k : Int} {f : IrqStat → IrqStat}

@[simp] theorem keys_modifyStat : (modifyStat d n f).map Prod.fst = d.map Prod.fst := by
  induction d with
  | nil => rfl
  | cons e d ih => simp [modifyStat, ih]

theorem lookupStat_modifyStat_of_ne (h : k ≠ n) : lookupStat (modifyStat d n f) k = lookupStat d k := by
  induction d with
  | nil => rfl
  | cons e d ih =>
    obtain ⟨j, s⟩ := e
    by_cases hj : j = k
    · subst hj; simp [modifyStat, lookupStat, h]
    · simp [modifyStat, lookupStat, hj, ih]

theorem lookupStat_modifyStat_self (h : n ∈ d.map Prod.fst) :
    lookupStat (modifyStat d n f) n = f (lookupStat d n) := by
  induction d with
  | nil => simp at h
  | cons e d ih =>
    obtain ⟨j, s⟩ := e
    by_cases hj : j = n
    · simp [modifyStat, lookupStat, hj]
    · have h' : n ∈ d.map Prod.fst := by
        simp only [List.map_cons, List.mem_cons] at h
        exact h.resolve_left (Ne.symm hj)
      simp only [modifyStat, lookupStat, hj, if_false]
      exact ih h'

theorem lookupStat_of_mem (hnd : (d.map Prod.fst).Nodup) {s : IrqStat} (h : (n, s) ∈ d) :
    lookupStat d n = s := by
  induction d with
  | nil => simp at h
  | cons e d ih =>
    obtain ⟨j, t⟩ := e
    simp only [List.map_cons, List.nodup_cons, List.mem_map] at hnd
    rcases List.mem_cons.1 h with h | h
    · obtain ⟨rfl, rfl⟩ := Prod.mk.inj h
      simp [lookupStat]
    · have hj : j ≠ n := fun e => hnd.1 ⟨(n, s), h, e.symm⟩
      simp [lookupStat, hj, ih hnd.2 h]

theorem lookupStat_of_not_mem (h : n ∉ d.map Prod.fst) : lookupStat d n = IrqStat.fresh := by
  induction d with
  | nil => rfl
  | cons e d ih =>
    simp only [List.map_cons, List.mem_cons, not_or] at h
    simp [lookupStat, Ne.symm h.1, ih h.2]

theorem forall_mem_modifyStat {P : IrqStat → Prop} (hd : ∀ e ∈ d, P e.2) (hf : ∀ s, P s → P (f s)) :
    ∀ e ∈ modifyStat d n f, P e.2 := by
  induction d with
  | nil => simp [modifyStat]
  | cons e d ih =>
    simp only [modifyStat, List.mem_cons, forall_eq_or_imp] at hd ⊢
    refine ⟨?_, ih hd.2⟩
    split
    · exact hf _ hd.1
    · exact hd.1

/-- With keys that do not repeat, the candidates are the keys whose record is not cooling down. -/
theorem candidates_eq_filter (hnd : (d.map Prod.fst).Nodup) (now : Int) :
    candidates d now = (d.map Prod.fst).filter fun k => decide ((lookupStat d k).coolUntil ≤ now) := by
  induction d with
  | nil => rfl
  | cons e d ih =>
    obtain ⟨j, s⟩ := e
    simp only [List.map_cons, List.nodup_cons] at hnd
    have htail : ((d.map Prod.fst).filter fun k => decide ((lookupStat ((j, s) :: d) k).coolUntil ≤ now)) =
        (d.map Prod.fst).filter fun k => decide ((lookupStat d k).coolUntil ≤ now) :=
      List.filter_congr fun k hk => by simp [lookupStat, show j ≠ k from fun e => hnd.1 (e ▸ hk)]
    rw [List.map_cons, List.filter_cons, htail, ← ih hnd.2]
    by_cases hc : s.coolUntil ≤ now <;> simp [candidates, lookupStat, hc]

private theorem initStats_aux (l : List Int) :
    ∀ d : List (Int × IrqStat), (d.map Prod.fst).Nodup → (∀ e ∈ d, e.2 = IrqStat.fresh) →
      let r := l.foldl (fun d n => if n ∈ d.map Prod.fst then d else d ++ [(n, IrqStat.fresh)]) d
      (r.map Prod.fst).Nodup ∧ (∀ k, k ∈ r.map Prod.fst ↔ k ∈ d.map Prod.fst ∨ k ∈ l) ∧
        ∀ e ∈ r, e.2 = IrqStat.fresh := by
  induction l with
  | nil => exact fun d hnd hd => ⟨hnd, fun k => (or_iff_left (List.not_mem_nil k)).symm, hd⟩
  | cons n l ih =>
    intro d hnd hd
    by_cases h : n ∈ d.map Prod.fst
    · simp only [List.foldl_cons, h, if_true]
      obtain ⟨h1, h2, h3⟩ := ih d hnd hd
      refine ⟨h1, fun k => ?_, h3⟩
      rw [h2, List.mem_cons]
      constructor
      · rintro (hk | hk)
        exacts [.inl hk, .inr (.inr hk)]
      · rintro (hk | rfl | hk)
        exacts [.inl hk, .inl h, .inr hk]
    · simp only [List.foldl_cons, h, if_false]
      obtain ⟨h1, h2, h3⟩ := ih (d ++ [(n, IrqStat.fresh)])
        (by
          rw [List.map_append, List.map_singleton]
          exact List.pairwise_append.2 ⟨hnd, List.pairwise_singleton _ _, fun a ha b hb => by
            rw [List.mem_singleton.1 hb]; rintro rfl; exact h ha⟩)
        (fun e he => by
          rcases List.mem_append.1 he with he | he
          exacts [hd e he, by rw [List.mem_singleton.1 he]])
      refine ⟨h1, fun k => ?_, h3⟩
      simp only [h2, List.map_append, List.map_cons, List.map_nil, List.mem_append, List.mem_singleton,
        List.mem_cons, List.not_mem_nil, false_or, or_assoc]

private theorem initStats_spec (l : List Int) :
    ((initStats l).map Prod.fst).Nodup ∧ (∀ k, k ∈ (initStats l).map Prod.fst ↔ k ∈ l) ∧
      ∀ e ∈ initStats l, e.2 = IrqStat.fresh :=
  let h := initStats_aux l [] List.nodup_nil fun _ he => absurd he (List.not_mem_nil _)
  ⟨h.1, fun k => (h.2.1 k).trans (or_iff_right (List.not_mem_nil k)), h.2.2⟩

theorem keys_initStats_nodup (l : List Int) : ((initStats l).map Prod.fst).Nodup :=
  (initStats_spec l).1

theorem mem_keys_initStats {l : List Int} {k : Int} : k ∈ (initStats l).map Prod.fst ↔ k ∈ l :=
  (initStats_spec l).2.1 k

theorem lookupStat_initStats (l : List Int) (k : Int) : lookupStat (initStats l) k = IrqStat.fresh := by
  by_cases h : k ∈ (initStats l).map Prod.fst
  · obtain ⟨⟨j, s⟩, hs, rfl⟩ := List.mem_map.1 h
    rw [lookupStat_of_mem (keys_initStats_nodup l) hs]
    exact (initStats_spec l).2.2 _ hs
  · exact lookupStat_of_not_mem h

end Dict

/-- A manager on one line, made at clock 0, with no way to raise an interrupt. -/
private def oneLine : AdaptiveIRQManager := .init { maxIrq := 1 } Host.bare 0 0

private theorem oneLine_pick : oneLine.pickIrq 50000000 ⟨1, 0⟩ = some 0 := by
  have hc : candidates oneLine.irqStats 50000000 = [0] := by decide
  rw [AdaptiveIRQManager.pickIrq_of_ne_nil _ _ _ (by simp [hc]),
    if_neg (by norm_num [oneLine, AdaptiveIRQManager.init]), hc]
  rfl

/-! ### One attempt -/

namespace AdaptiveIRQManager

variable (m : AdaptiveIRQManager) (d : Draw) (c : FireClock)

theorem attempt_true (now : Int) (s : IrqStat) :
    m.attempt true now s = { s with tries := s.tries + 1, wins := s.wins + 1 } := rfl

theorem attempt_false (now : Int) (s : IrqStat) :
    m.attempt false now s =
      if floatOverflows (m.cooldown { s with tries := s.tries + 1 }) then { s with tries := s.tries + 1 }
      else { s with tries := s.tries + 1, coolUntil := now + m.cooldown { s with tries := s.tries + 1 } * 1000000 } :=
  rfl

@[simp] theorem attempt_tries (won : Bool) (now : Int) (s : IrqStat) :
    (m.attempt won now s).tries = s.tries + 1 := by
  cases won
  · rw [attempt_false]; split <;> rfl
  · rfl

@[simp] theorem attempt_wins (won : Bool) (now : Int) (s : IrqStat) :
    (m.attempt won now s).wins = s.wins + if won then 1 else 0 := by
  cases won
  · rw [attempt_false]; split <;> rfl
  · rfl

theorem attempt_coolUntil (won : Bool) (now : Int) (s : IrqStat) :
    (m.attempt won now s).coolUntil =
      if won || floatOverflows (m.cooldown { s with tries := s.tries + 1 }) then s.coolUntil
      else now + m.cooldown { s with tries := s.tries + 1 } * 1000000 := by
  cases won
  · rw [attempt_false]; split <;> simp_all
  · rfl

/-- With a non-negative `base_cooldown_ms`, an attempt at a reading past `cool_until` never moves
it back. -/
theorem coolUntil_le_attempt (hbase : 0 ≤ m.baseCooldownMs) {now : Int} {s : IrqStat} (hs : s.coolUntil ≤ now)
    (won : Bool) : s.coolUntil ≤ (m.attempt won now s).coolUntil := by
  rw [attempt_coolUntil]
  split
  · exact le_rfl
  · have : 0 ≤ m.cooldown { s with tries := s.tries + 1 } := by unfold cooldown; positivity
    omega

theorem cooldown_attempt_false (now : Int) (s : IrqStat) :
    m.cooldown (m.attempt false now s) = m.cooldown { s with tries := s.tries + 1 } := by
  rw [attempt_false]; split <;> rfl

/-- The attempt raises exactly when the record it leaves failed with a cooldown that overflows. -/
theorem attemptRaises_eq (won : Bool) (now : Int) (s : IrqStat) :
    m.attemptRaises won s = (!won && floatOverflows (m.cooldown (m.attempt won now s))) := by
  cases won
  · rw [cooldown_attempt_false]; rfl
  · rfl

theorem fireOneIrq_of_none (h : m.pickIrq c.pick d = none) : m.fireOneIrq d c = (.ok false, m) := by
  simp [fireOneIrq, h]

theorem fireOneIrq_snd_of_some {n : Int} (h : m.pickIrq c.pick d = some n) :
    (m.fireOneIrq d c).2 =
      { m with irqStats := modifyStat m.irqStats n (m.attempt (m.madeProgressRecently c.check) c.cool) } := by
  simp [fireOneIrq, h]

/-- `fire_one_irq` returns what `_raise_irq` returned unless its backoff raised. -/
theorem fireOneIrq_fst_of_some {n : Int} (h : m.pickIrq c.pick d = some n) :
    (m.fireOneIrq d c).1 = if m.attemptRaises (m.madeProgressRecently c.check) (lookupStat m.irqStats n) then
      .error "OverflowError: int too large to convert to float" else .ok (m.raiseIrq n) := by
  simp [fireOneIrq, h]

theorem pickIrq_mem_keys {now : Int} {n : Int} (h : m.pickIrq now d = some n) :
    n ∈ m.irqStats.map Prod.fst := by
  obtain ⟨s, hs, -⟩ := mem_candidates.1 (m.pickIrq_mem now d h)
  exact List.mem_map.2 ⟨_, hs, rfl⟩

/-- Success attribution of `fire_one_irq`: the chosen line's wins go up by one exactly when the
progress check reads the clock less than 100 ms after `last_progress`, and the statistics after
the attempt do not depend on the host, so not on what `_raise_irq` returned. -/
theorem fireOneIrq_wins {n : Int} (h : m.pickIrq c.pick d = some n) :
    (lookupStat (m.fireOneIrq d c).2.irqStats n).wins =
        (lookupStat m.irqStats n).wins + (if c.check - m.lastProgress < 100000000 then 1 else 0) ∧
      ∀ uc : Host, ({ m with uc := uc }.fireOneIrq d c).2.irqStats = (m.fireOneIrq d c).2.irqStats := by
  refine ⟨?_, fun uc => ?_⟩
  · rw [fireOneIrq_snd_of_some m d c h, lookupStat_modifyStat_self (m.pickIrq_mem_keys d h), attempt_wins]
    simp [madeProgressRecently]
  · rw [fireOneIrq_snd_of_some m d c h, fireOneIrq_snd_of_some _ d c (by exact h)]
    rfl

theorem fireOneIrq_wins_oneLine :
    oneLine.pickIrq 50000000 ⟨1, 0⟩ = some 0 ∧
      ((lookupStat (oneLine.fireOneIrq ⟨1, 0⟩ ⟨50000000, 60000000, 60000000⟩).2.irqStats 0).wins =
          (lookupStat oneLine.irqStats 0).wins + (if 60000000 - oneLine.lastProgress < 100000000 then 1 else 0) ∧
        ∀ uc : Host, ({ oneLine with uc := uc }.fireOneIrq ⟨1, 0⟩ ⟨50000000, 60000000, 60000000⟩).2.irqStats =
          (oneLine.fireOneIrq ⟨1, 0⟩ ⟨50000000, 60000000, 60000000⟩).2.irqStats) :=
  ⟨oneLine_pick, fireOneIrq_wins oneLine ⟨1, 0⟩ ⟨50000000, 60000000, 60000000⟩ oneLine_pick⟩

end AdaptiveIRQManager

/-- An attempt 50 ms after the last progress, whose raise finds no capability, is credited as a
win: the raise returned `false`, and the progress predates the raise. -/
theorem win_without_raise :
    let r := oneLine.fireOneIrq ⟨1, 0⟩ ⟨50000000, 60000000, 60000000⟩
    r.1 = .ok false ∧ (lookupStat r.2.irqStats 0).wins = 1 ∧ oneLine.lastProgress < 50000000 := by
  refine ⟨?_, ?_, by decide⟩
  · rw [AdaptiveIRQManager.fireOneIrq_fst_of_some _ _ _ oneLine_pick]; rfl
  · rw [AdaptiveIRQManager.fireOneIrq_snd_of_some _ _ _ oneLine_pick]; decide

end FuzzwareAdapt
