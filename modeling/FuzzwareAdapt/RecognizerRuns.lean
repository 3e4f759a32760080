import FuzzwareAdapt.IdleScore
import Mathlib.Data.List.Count

/-!
# Runs of the recognizer

What `on_step` keeps and what it forgets, over whole runs.

* `updateIdleScore_perm`: the score sees the recent window only up to order (how many distinct
  samples it holds, how often the commonest occurs); order reaches the score only through the
  ping-pong counter.
* `win_unread`: `SR_WIN` is never read. `on_step` looks at the three newest samples of `_pcs` only,
  and that window keeps at least eight, so over every run of `on_step`, with any wait readings, a
  recognizer built with any other `win` reports the same score, recent window and counter.
  `AgreeBut` is the simulation between the two.
* `relocation_invariant`: addresses are only compared for equality, so renaming every sample by
  an injective map (relocating the firmware) leaves the score and the counter as they are;
  `onStep_rename` is the commuting square for one step.
* `waits_raise_score`: a recent wait only ever raises the score, by at most `0.25`; it never
  reaches the windows or the counter, and only the latest sample's wait counts.
* `self_loop_saturates`: after any history, `k ≥ 64` samples of one address leave the counter at
  least `k - 3` and the score at exactly `0.93125`.
* `loop_hysteresis`: the counter has no cap and loses one per changed sample, so a loop of `n`
  samples is remembered for about `n` samples after it. `alternation_after_loop`: a strict
  alternation, never idle from a fresh start, is judged idle (`0.6125`) after a long enough loop.
-/

namespace FuzzwareAdapt

namespace StateRecognizer

/-! ### What the score reads -/

private theorem topHits_perm {q q' : List Int} (h : q.Perm q') : topHits q = topHits q' := by
  unfold topHits
  rw [List.map_congr_left fun x _ => h.count_eq x]
  refine (h.map _).foldr_eq' ?_ 0
  intro x _ y _ z
  exact max_left_comm y x z

/-- The score of a window depends on the window only up to order. -/
theorem updateIdleScore_perm (cfg : RecognizerCfg) {q q' : List Int} (h : q.Perm q') (cnt : Nat)
    (bonus : ℚ) : updateIdleScore cfg q cnt bonus = updateIdleScore cfg q' cnt bonus := by
  have hnil : q = [] ↔ q' = [] :=
    ⟨fun e => by subst e; exact h.symm.eq_nil, fun e => by subst e; exact h.eq_nil⟩
  simp only [updateIdleScore, hnil, h.dedup.length_eq, topHits_perm h, h.length_eq]

theorem updateIdleScore_perm_swap :
    List.Perm [1, 2, 1] [2, 1, 1] ∧
      updateIdleScore {} [1, 2, 1] 3 0 = updateIdleScore {} [2, 1, 1] 3 0 :=
  ⟨List.Perm.swap 2 1 [1], updateIdleScore_perm {} (List.Perm.swap 2 1 [1]) 3 0⟩

/-! ### `SR_WIN` is never read -/

private theorem pingpongNext_take (pcs : List Int) (pc : Int) (cnt : Nat) :
    pingpongNext (pcs.take 3) pc cnt = pingpongNext pcs pc cnt := by
  match pcs with
  | [] | [_] | [_, _] | [_, _, _] => rfl
  | _ :: _ :: _ :: _ :: _ => simp [pingpongNext]

/-- Two recognizers that differ at most in `win` and in `_pcs` beyond its three newest samples. -/
structure AgreeBut (w : Int) (sr sr' : StateRecognizer) : Prop where
  cfg : sr'.cfg = { sr.cfg with win := w }
  recent : sr'.recent = sr.recent
  pingpongCnt : sr'.pingpongCnt = sr.pingpongCnt
  score : sr'.score = sr.score
  pcs : sr'.pcs.take 3 = sr.pcs.take 3

namespace AgreeBut

variable {w : Int} {sr sr' : StateRecognizer}

theorem onStep (h : AgreeBut w sr sr') (pc : Int) (ts : Option Int) (nowMs : Int) :
    AgreeBut w (sr.onStep pc ts nowMs) (sr'.onStep pc ts nowMs) := by
  have hcnt : pingpongNext sr'.pcs pc sr'.pingpongCnt = pingpongNext sr.pcs pc sr.pingpongCnt := by
    rw [← pingpongNext_take, h.pcs, pingpongNext_take, h.pingpongCnt]
  -- a window of at least eight keeps the three newest samples
  have hwin : ∀ (l : List Int) (k : Int), ((pc :: l).take (max 8 k).toNat).take 3 = pc :: (l.take 3).take 2 :=
    fun l k => by rw [List.take_take, min_eq_left (by omega)]; simp [List.take_take]
  refine ⟨h.cfg, ?_, hcnt, ?_, ?_⟩ <;> simp only [StateRecognizer.onStep, h.cfg, h.recent, hcnt]
  · rfl
  · rw [hwin, hwin, h.pcs]

theorem run (steps : List (Int × Option Int × Int)) (h : AgreeBut w sr sr') :
    AgreeBut w (steps.foldl (fun s p => s.onStep p.1 p.2.1 p.2.2) sr)
      (steps.foldl (fun s p => s.onStep p.1 p.2.1 p.2.2) sr') := by
  induction steps generalizing sr sr' with
  | nil => exact h
  | cons p steps ih => exact ih (h.onStep p.1 p.2.1 p.2.2)

end AgreeBut

/-- `SR_WIN` is never read: over every run of `on_step`, with any wait readings, a recognizer
built with any other `win` reports the same `idle_score` (so the same `idle_now` and
`stalled_like`), the same recent window and the same ping-pong counter. -/
theorem win_unread (cfg : RecognizerCfg) (w : Int) (steps : List (Int × Option Int × Int)) :
    (steps.foldl (fun s p => s.onStep p.1 p.2.1 p.2.2) (init { cfg with win := w })).idleScore =
        (steps.foldl (fun s p => s.onStep p.1 p.2.1 p.2.2) (init cfg)).idleScore ∧
      (steps.foldl (fun s p => s.onStep p.1 p.2.1 p.2.2) (init { cfg with win := w })).recent =
        (steps.foldl (fun s p => s.onStep p.1 p.2.1 p.2.2) (init cfg)).recent ∧
      (steps.foldl (fun s p => s.onStep p.1 p.2.1 p.2.2) (init { cfg with win := w })).pingpongCnt =
        (steps.foldl (fun s p => s.onStep p.1 p.2.1 p.2.2) (init cfg)).pingpongCnt := by
  have h := AgreeBut.run steps
    (show AgreeBut w (init cfg) (init { cfg with win := w }) from ⟨rfl, rfl, rfl, rfl, rfl⟩)
  exact ⟨by simp only [idleScore, h.score], h.recent, h.pingpongCnt⟩

/-! ### Addresses are only compared -/

/-- The recognizer with every kept sample renamed by `f`. -/
def rename (sr : StateRecognizer) (f : Int → Int) : StateRecognizer :=
  { sr with pcs := sr.pcs.map f, recent := sr.recent.map f }

section Rename

variable {f : Int → Int} (hf : f.Injective)
include hf

private theorem topHits_map (q : List Int) : topHits (q.map f) = topHits q := by
  unfold topHits
  rw [List.map_map]
  congr 2
  funext x
  exact List.count_map_of_injective q f hf x

private theorem pingpongNext_map (pcs : List Int) (pc : Int) (cnt : Nat) :
    pingpongNext (pcs.map f) (f pc) cnt = pingpongNext pcs pc cnt := by
  match pcs with
  | [] | [_] => rfl
  | p1 :: p2 :: rest => simp [pingpongNext, hf.eq_iff, List.head?_map]

private theorem updateIdleScore_map (cfg : RecognizerCfg) (q : List Int) (cnt : Nat) (bonus : ℚ) :
    updateIdleScore cfg (q.map f) cnt bonus = updateIdleScore cfg q cnt bonus := by
  simp only [updateIdleScore, List.map_eq_nil_iff, List.dedup_map_of_injective hf, List.length_map,
    topHits_map hf]

/-- Renaming the samples commutes with `on_step`, whatever the wait readings. -/
theorem onStep_rename (sr : StateRecognizer) (pc : Int) (ts : Option Int) (nowMs : Int) :
    (sr.onStep pc ts nowMs).rename f = (sr.rename f).onStep (f pc) ts nowMs := by
  simp only [rename, StateRecognizer.onStep, ← List.map_cons, ← List.map_take, pingpongNext_map hf,
    updateIdleScore_map hf]

theorem run_rename (steps : List (Int × Option Int × Int)) (sr : StateRecognizer) :
    (steps.foldl (fun s p => s.onStep p.1 p.2.1 p.2.2) sr).rename f =
      (steps.map fun p => (f p.1, p.2)).foldl (fun s p => s.onStep p.1 p.2.1 p.2.2) (sr.rename f) := by
  induction steps generalizing sr with
  | nil => rfl
  | cons p steps ih => rw [List.foldl_cons, ih, onStep_rename hf]; rfl

/-- The recognizer only tests addresses for equality: over every run of `on_step`, with any wait
readings and any thresholds, renaming every sample by an injective `f` (relocating the firmware,
say) leaves `idle_score`, so `idle_now` and `stalled_like`, and the ping-pong counter as they are,
and renames the windows. -/
theorem relocation_invariant (cfg : RecognizerCfg) (steps : List (Int × Option Int × Int)) :
    ((steps.map fun p => (f p.1, p.2)).foldl (fun s p => s.onStep p.1 p.2.1 p.2.2) (init cfg)).idleScore =
        (steps.foldl (fun s p => s.onStep p.1 p.2.1 p.2.2) (init cfg)).idleScore ∧
      ((steps.map fun p => (f p.1, p.2)).foldl (fun s p => s.onStep p.1 p.2.1 p.2.2) (init cfg)).pingpongCnt =
        (steps.foldl (fun s p => s.onStep p.1 p.2.1 p.2.2) (init cfg)).pingpongCnt ∧
      ((steps.map fun p => (f p.1, p.2)).foldl (fun s p => s.onStep p.1 p.2.1 p.2.2) (init cfg)).recent =
        (steps.foldl (fun s p => s.onStep p.1 p.2.1 p.2.2) (init cfg)).recent.map f := by
  have h := run_rename hf steps (init cfg)
  rw [show (init cfg).rename f = init cfg from rfl] at h
  rw [← h]
  exact ⟨rfl, rfl, rfl⟩

end Rename

/-- Shifting a two-address loop by `0x1000` leaves its score as it is. -/
theorem relocation_invariant_shift :
    Function.Injective (· + 0x1000 : Int → Int) ∧
      (([(0, none, 0), (4, none, 0), (0, none, 0)].map fun p => (p.1 + 0x1000, p.2)).foldl
          (fun s p => s.onStep p.1 p.2.1 p.2.2) (init {})).idleScore =
        (([(0, none, 0), (4, none, 0), (0, none, 0)] : List (Int × Option Int × Int)).foldl
          (fun s p => s.onStep p.1 p.2.1 p.2.2) (init {})).idleScore :=
  have hf : Function.Injective (· + 0x1000 : Int → Int) := add_left_injective _
  ⟨hf, (relocation_invariant hf {} [(0, none, 0), (4, none, 0), (0, none, 0)]).1⟩

/-! ### Waits -/

/-- The wait bonus lies in `[0, 1/4]`, whatever the configuration. -/
theorem waitBonus_mem (cfg : RecognizerCfg) (ts : Option Int) (nowMs : Int) :
    0 ≤ waitBonus cfg ts nowMs ∧ waitBonus cfg ts nowMs ≤ 1 / 4 := by
  unfold waitBonus
  cases ts with
  | none => norm_num
  | some t =>
    dsimp only
    split_ifs with h
    · obtain ⟨-, h0, h1⟩ := h
      have hm : (0 : ℚ) < ((max 1 cfg.idleScoreWaitBonusMs : Int) : ℚ) :=
        Int.cast_pos.2 (lt_max_of_lt_left Int.one_pos)
      exact ⟨mul_nonneg (by norm_num)
          (sub_nonneg.2 (div_le_one_of_le₀ (Int.cast_le.2 (h1.trans (le_max_right _ _))) hm.le)),
        mul_le_of_le_one_right (by norm_num) (sub_le_self 1 (div_nonneg (Int.cast_nonneg.2 h0) hm.le))⟩
    · norm_num

private theorem clip_add {x b : ℚ} (hb : 0 ≤ b) :
    max 0 (min 1 x) ≤ max 0 (min 1 (x + b)) ∧ max 0 (min 1 (x + b)) ≤ max 0 (min 1 x) + b := by
  have hmin : min 1 (x + b) ≤ min 1 x + b := by
    rw [← min_add_add_right]; exact min_le_min (le_add_of_nonneg_right hb) le_rfl
  exact ⟨max_le_max le_rfl (min_le_min le_rfl (le_add_of_nonneg_right hb)),
    max_le (add_nonneg (le_max_left _ _) hb) (hmin.trans (add_le_add_right (le_max_right _ _) _))⟩

theorem updateIdleScore_bonus (cfg : RecognizerCfg) (q : List Int) (cnt : Nat) {b : ℚ} (hb : 0 ≤ b) :
    updateIdleScore cfg q cnt 0 ≤ updateIdleScore cfg q cnt b ∧
      updateIdleScore cfg q cnt b ≤ updateIdleScore cfg q cnt 0 + b := by
  unfold updateIdleScore
  split
  · exact ⟨le_rfl, by linarith⟩
  · simpa only [add_zero] using clip_add hb

private theorem onStep_erase (s : StateRecognizer) (x : ℚ) (pc : Int) (ts : Option Int) (nowMs : Int) :
    ({ s with score := x }).onStep pc ts nowMs = s.onStep pc ts nowMs := rfl

/-- A run with wait readings and the run of the same samples without them differ only in the score. -/
private theorem run_erase : ∀ (steps : List (Int × Option Int × Int)) (s s' : StateRecognizer),
    { s with score := 0 } = { s' with score := 0 } →
      { steps.foldl (fun s p => s.onStep p.1 p.2.1 p.2.2) s with score := 0 } =
        { s'.feed (steps.map Prod.fst) with score := 0 }
  | [], _, _, h => h
  | p :: steps, s, s', h => run_erase steps _ _ (by
      show { s.onStep p.1 p.2.1 p.2.2 with score := 0 } = { s'.onStep p.1 none 0 with score := 0 }
      rw [← onStep_erase s 0, h, onStep_erase]
      rfl)

/-- Waits only ever raise `idle_score`, by at most `0.25`: over every run of `on_step`, with any wait
readings, the score lies between that of the same samples with no wait and that plus `0.25`. The
wait collaborator never reaches the windows or the counter, and only the latest sample's wait
counts. -/
theorem waits_raise_score (cfg : RecognizerCfg) (steps : List (Int × Option Int × Int)) :
    ((init cfg).feed (steps.map Prod.fst)).idleScore ≤
        (steps.foldl (fun s p => s.onStep p.1 p.2.1 p.2.2) (init cfg)).idleScore ∧
      (steps.foldl (fun s p => s.onStep p.1 p.2.1 p.2.2) (init cfg)).idleScore ≤
        ((init cfg).feed (steps.map Prod.fst)).idleScore + 1 / 4 := by
  rcases List.eq_nil_or_concat steps with rfl | ⟨pre, p, rfl⟩
  · exact ⟨le_rfl, le_add_of_nonneg_right (by norm_num)⟩
  -- the two runs reach the last sample differing only in the score
  have hlast : (pre.foldl (fun s p => s.onStep p.1 p.2.1 p.2.2) (init cfg)).onStep p.1 p.2.1 p.2.2 =
      ((init cfg).feed (pre.map Prod.fst)).onStep p.1 p.2.1 p.2.2 := by
    rw [← onStep_erase _ 0, run_erase pre (init cfg) (init cfg) rfl, onStep_erase]
  rw [List.concat_eq_append, List.foldl_concat, List.map_append, List.map_singleton, feed_concat, hlast,
    idleScore_onStep, idleScore_onStep]
  set b := (init cfg).feed (pre.map Prod.fst)
  obtain ⟨hb0, hb1⟩ := waitBonus_mem b.cfg p.2.1 p.2.2
  obtain ⟨h1, h2⟩ := updateIdleScore_bonus b.cfg (b.onStep p.1 none 0).recent (b.onStep p.1 none 0).pingpongCnt hb0
  exact ⟨h1, h2.trans (add_le_add_left hb1 _)⟩

/-! ### Self-loops, and what they leave behind -/

private theorem recent_suffix (pre : List Int) {ys : List Int} (hys : 64 ≤ ys.length) :
    ((init {}).feed (pre ++ ys)).recent = ys.reverse.take 64 := by
  rw [recent_feed _ _ (by simp [init])]
  simp only [init, List.reverse_append, List.append_nil]
  exact List.take_append_of_le_length (by simpa using hys)

private theorem recent_loop (h : List Int) (A : Int) {k : Nat} (hk : 64 ≤ k) :
    ((init {}).feed (h ++ List.replicate k A)).recent = List.replicate 64 A := by
  rw [recent_suffix h (by simpa using hk), List.reverse_replicate, List.take_replicate, min_eq_left hk]

private theorem pcs_loop (cfg : RecognizerCfg) (h : List Int) (A : Int) (j : Nat) :
    ∃ rest, ((init cfg).feed (h ++ List.replicate (j + 3) A)).pcs = A :: A :: A :: rest := by
  obtain ⟨M, hM⟩ : ∃ M, (max 8 cfg.win).toNat = M + 3 := ⟨(max 8 cfg.win).toNat - 3, by omega⟩
  rw [pcs_feed _ _ (by simp [init])]
  simp only [init, List.reverse_append, List.reverse_replicate, List.append_nil]
  rw [hM, List.replicate_succ, List.replicate_succ, List.replicate_succ]
  exact ⟨_, rfl⟩

private theorem pingpongCnt_loop (cfg : RecognizerCfg) (h : List Int) (A : Int) :
    ∀ k, k ≤ ((init cfg).feed (h ++ List.replicate (k + 3) A)).pingpongCnt
  | 0 => Nat.zero_le _
  | k + 1 => by
    obtain ⟨rest, hpcs⟩ := pcs_loop cfg h A k
    rw [show k + 1 + 3 = k + 3 + 1 by omega, List.replicate_succ', ← List.append_assoc, feed_concat]
    simp only [onStep, hpcs, pingpongNext, List.head?_cons, true_and, if_true]
    exact Nat.succ_le_succ (pingpongCnt_loop cfg h A k)

/-- A self-loop saturates the score whatever came before: after any history and `k ≥ 64` samples
of one address, the ping-pong counter is at least `k - 3` and `idle_score` is exactly `0.93125`,
the diversity, hotspot and ping-pong terms each at its bound. -/
theorem self_loop_saturates (h : List Int) (A : Int) (k : Nat) (hk : 64 ≤ k) :
    k - 3 ≤ ((init {}).feed (h ++ List.replicate k A)).pingpongCnt ∧
      ((init {}).feed (h ++ List.replicate k A)).idleScore = 149 / 160 := by
  obtain ⟨j, rfl⟩ : ∃ j, k = j + 3 := ⟨k - 3, by omega⟩
  have hcnt := pingpongCnt_loop {} h A j
  refine ⟨by omega, ?_⟩
  rw [idleScore_feed _ (by simp), recent_loop h A hk, updateIdleScore_replicate A (by norm_num),
    min_eq_left ((le_div_iff₀ (by norm_num)).2 (by rw [one_mul]; exact_mod_cast (by omega : 12 ≤ _)))]
  norm_num

theorem self_loop_saturates_after_pair :
    64 ≤ 64 ∧ (64 - 3 ≤ ((init {}).feed ([1, 2] ++ List.replicate 64 0)).pingpongCnt ∧
      ((init {}).feed ([1, 2] ++ List.replicate 64 0)).idleScore = 149 / 160) :=
  ⟨le_rfl, self_loop_saturates [1, 2] 0 64 le_rfl⟩

private theorem pingpongNext_change {pcs : List Int} {pc : Int} (h2 : 2 ≤ pcs.length)
    (hne : pcs.head? ≠ some pc) (cnt : Nat) : pingpongNext pcs pc cnt = cnt - 1 := by
  match pcs, h2, hne with
  | p1 :: _ :: _, _, hne =>
    have : p1 ≠ pc := fun e => hne (by simp [e])
    simp [pingpongNext, this]

private theorem pingpongCnt_changes (cfg : RecognizerCfg) :
    ∀ (ys pre : List Int) (A : Int), 2 ≤ pre.length → pre.getLast? = some A →
      List.Chain (· ≠ ·) A ys →
      ((init cfg).feed (pre ++ ys)).pingpongCnt = ((init cfg).feed pre).pingpongCnt - ys.length
  | [], _, _, _, _, _ => by simp
  | y :: ys, pre, A, h2, hlast, hc => by
    obtain ⟨hAy, hys⟩ := List.chain_cons.1 hc
    have hpcs : ((init cfg).feed pre).pcs = pre.reverse.take (max 8 cfg.win).toNat := by
      rw [pcs_feed _ _ (by simp [init])]; simp [init]
    have hstep : ((init cfg).feed (pre ++ [y])).pingpongCnt = ((init cfg).feed pre).pingpongCnt - 1 := by
      rw [feed_concat]
      refine pingpongNext_change ?_ ?_ _
      · rw [hpcs, List.length_take, List.length_reverse]; omega
      · rw [hpcs, List.head?_take, if_neg (by omega), List.head?_reverse, hlast]
        simpa using hAy
    rw [show pre ++ y :: ys = (pre ++ [y]) ++ ys by simp,
      pingpongCnt_changes cfg ys (pre ++ [y]) y (by simp; omega) (by simp) hys, hstep, List.length_cons]
    omega

private theorem pingpongCnt_after_loop (cfg : RecognizerCfg) (h ys : List Int) (A : Int) {n : Nat}
    (hn : 3 ≤ n) (hys : List.Chain (· ≠ ·) A ys) :
    n - 3 - ys.length ≤ ((init cfg).feed (h ++ List.replicate n A ++ ys)).pingpongCnt := by
  obtain ⟨j, rfl⟩ : ∃ j, n = j + 3 := ⟨n - 3, by omega⟩
  have hlast : (h ++ List.replicate (j + 3) A).getLast? = some A := by
    rw [show j + 3 = j + 2 + 1 from rfl, List.replicate_succ', ← List.append_assoc]
    exact List.getLast?_concat _
  rw [pingpongCnt_changes cfg ys _ A (by simp; omega) hlast hys]
  have := pingpongCnt_loop cfg h A j
  omega

/-- The ping-pong counter has no cap and loses only one per changed sample, so a self-loop is
remembered: after any history, `n ≥ 3` samples of `A`, and then samples that each differ from the
one before, the counter is still at least `n - 3` less their number. -/
theorem loop_hysteresis (h ys : List Int) (A : Int) (n : Nat) (hn : 3 ≤ n)
    (hys : List.Chain (· ≠ ·) A ys) :
    n - 3 - ys.length ≤ ((init {}).feed (h ++ List.replicate n A ++ ys)).pingpongCnt :=
  pingpongCnt_after_loop {} h ys A hn hys

theorem loop_hysteresis_after_loop :
    3 ≤ 79 ∧ List.Chain (· ≠ ·) (0 : Int) [1, 2] ∧
      79 - 3 - [1, 2].length ≤ ((init {}).feed ([] ++ List.replicate 79 0 ++ [1, 2])).pingpongCnt :=
  have hc : List.Chain (· ≠ ·) (0 : Int) [1, 2] := .cons (by decide) (.cons (by decide) .nil)
  ⟨by decide, hc, loop_hysteresis [] [1, 2] 0 79 (by decide) hc⟩

private theorem updateIdleScore_saturated {q : List Int} (hq : q ≠ [])
    (htop : 20 * topHits q ≤ 11 * q.length) {cnt : Nat} (hcnt : 12 ≤ cnt) :
    updateIdleScore {} q cnt 0 = min 1 (11 / 20 * (1 - min 1 ((q.dedup.length : ℚ) / 8)) + 1 / 5) := by
  have hlen : (0 : ℚ) < q.length := by exact_mod_cast List.length_pos.2 hq
  have hshare : (topHits q : ℚ) / q.length ≤ 55 / 100 :=
    (div_le_div_iff₀ hlen (by norm_num)).2 (by norm_cast; omega)
  have htop0 : max 0 ((min 1 ((topHits q : ℚ) / q.length) - 55 / 100) / max (1 / 1000000) (1 - 55 / 100))
      = (0 : ℚ) :=
    max_eq_left (div_nonpos_of_nonpos_of_nonneg (sub_nonpos.2 ((min_le_right _ _).trans hshare))
      (by norm_num))
  have hpp : min 1 ((cnt : ℚ) / ((max 1 12 : Int) : ℚ)) = 1 :=
    min_eq_left ((le_div_iff₀ (by norm_num)).2 (by norm_num; exact_mod_cast hcnt))
  have h8 : ((max 1 8 : Int) : ℚ) = 8 := by norm_num
  simp only [updateIdleScore, hq, if_false, htop0, hpp, h8, mul_zero, add_zero, mul_one]
  rw [show (55 / 100 : ℚ) = 11 / 20 by norm_num, show (20 / 100 : ℚ) = 1 / 5 by norm_num,
    max_eq_right (le_min zero_le_one (add_nonneg (mul_nonneg (by norm_num)
      (sub_nonneg.2 (min_le_left _ _))) (by norm_num)))]

/-- What the memory of a loop does to a strict alternation `B, C, B, C, …`: from a fresh start it
never reaches either gate, but after a self-loop of `n` samples an alternation of `m` samples, with
`64 ≤ m ≤ n - 15`, is judged idle, at `0.6125`. -/
theorem alternation_after_loop (h : List Int) (A B C : Int) (n m : Nat) (hAB : A ≠ B) (hBC : B ≠ C)
    (hm : 64 ≤ m) (hmn : m + 15 ≤ n) :
    ((init {}).feed (h ++ List.replicate n A ++ alternating B C m)).idleScore = 49 / 80 ∧
      ((init {}).feed (h ++ List.replicate n A ++ alternating B C m)).idleNow = true := by
  obtain ⟨k, rfl⟩ : ∃ k, m = k + 1 := ⟨m - 1, by omega⟩
  have hlen : (alternating B C (k + 1)).length = k + 1 := by simp [alternating]
  have hhead : (alternating B C (k + 1)).head? = some B := by
    simp [alternating, List.range_succ_eq_map]
  have hys : List.Chain (· ≠ ·) A (alternating B C (k + 1)) :=
    List.chain'_cons'.2 ⟨fun y hy => by rw [hhead] at hy; cases hy; exact hAB, alternating_chain hBC _⟩
  -- the loop leaves the counter at `pingpong_min` or above for the whole alternation
  have hsat := pingpongCnt_after_loop {} h _ A (n := n) (by omega) hys
  rw [hlen] at hsat
  -- the window holds the alternation only: two samples, neither over half of it
  obtain ⟨hc, hdedup, hwlen⟩ := alternating_window hBC (n := k + 1) (by omega)
  have htop : topHits ((alternating B C (k + 1)).reverse.take 64) ≤ 32 :=
    topHits_le fun x _ => by have := two_mul_count_le hc x; omega
  have hscore : ((init {}).feed (h ++ List.replicate n A ++ alternating B C (k + 1))).idleScore = 49 / 80 := by
    rw [idleScore_feed _ (List.ne_nil_of_length_pos (by simp [hlen])), recent_suffix _ (by omega),
      updateIdleScore_saturated (List.ne_nil_of_length_pos (by omega)) (by omega) (by omega), hdedup]
    norm_num
  refine ⟨hscore, ?_⟩
  simp only [idleNow, hscore]
  norm_num

theorem alternation_after_loop_zero_one_two :
    (0 : Int) ≠ 1 ∧ (1 : Int) ≠ 2 ∧ 64 ≤ 64 ∧ 64 + 15 ≤ 79 ∧
      (((init {}).feed ([] ++ List.replicate 79 0 ++ alternating 1 2 64)).idleScore = 49 / 80 ∧
        ((init {}).feed ([] ++ List.replicate 79 0 ++ alternating 1 2 64)).idleNow = true) :=
  ⟨by decide, by decide, le_rfl, by decide,
    alternation_after_loop [] 0 1 2 79 64 (by decide) (by decide) le_rfl (by decide)⟩

end StateRecognizer

end FuzzwareAdapt
