import FuzzwareAdapt.Recognizer
import Mathlib.Data.List.Chain
import Mathlib.Data.List.Range
import Mathlib.Tactic.Linarith
import Mathlib.Tactic.NormNum

/-!
# The idle score on fed traces

`feed` keeps the newest samples of the trace in each window (`recent_feed`, `pcs_feed`).  On a trace
whose consecutive samples differ, `on_step` never finds the repeated sample it counts, so the
ping-pong counter stays at zero (`pingpongCnt_feed_of_chain`): in particular on the strictly
alternating trace `A, B, A, B, …`, where the score settles at `0.55 * (1 - 2/8) = 0.4125`, below both
gates (`alternating_trace_score`).  On a trace of distinct samples the score is `0.55 * (1 - n/8)`
for the first eight steps, plus the full hotspot term `0.25` after the first one, and `0` from the
eighth step on (`distinct_trace_score`).  Once one sample has filled the recent window, whatever came
before, the score is at least `0.73125` and both gates hold for as long as it repeats
(`self_loop_idle`).
-/

namespace FuzzwareAdapt

namespace StateRecognizer

variable (sr : StateRecognizer)

/-! ### Windows -/

theorem feed_concat (xs : List Int) (x : Int) : sr.feed (xs ++ [x]) = (sr.feed xs).onStep x none 0 :=
  List.foldl_concat _ _ _ _

@[simp] theorem cfg_onStep (pc : Int) (ts : Option Int) (nowMs : Int) :
    (sr.onStep pc ts nowMs).cfg = sr.cfg := rfl

@[simp] theorem cfg_feed (xs : List Int) : (sr.feed xs).cfg = sr.cfg := by
  induction xs using List.reverseRecOn with
  | nil => rfl
  | append_singleton xs x ih => rw [feed_concat, cfg_onStep, ih]

private theorem take_cons_take (x : Int) (l : List Int) (k : Nat) :
    (x :: l.take k).take k = (x :: l).take k := by
  cases k with
  | zero => rfl
  | succ k => simp [List.take_take]

theorem recent_feed (xs : List Int) (h : sr.recent.length ≤ (max 8 sr.cfg.recent).toNat) :
    (sr.feed xs).recent = (xs.reverse ++ sr.recent).take (max 8 sr.cfg.recent).toNat := by
  induction xs using List.reverseRecOn with
  | nil => exact (List.take_of_length_le h).symm
  | append_singleton xs x ih =>
    rw [feed_concat]
    simp [onStep, ih, take_cons_take]

theorem pcs_feed (xs : List Int) (h : sr.pcs.length ≤ (max 8 sr.cfg.win).toNat) :
    (sr.feed xs).pcs = (xs.reverse ++ sr.pcs).take (max 8 sr.cfg.win).toNat := by
  induction xs using List.reverseRecOn with
  | nil => exact (List.take_of_length_le h).symm
  | append_singleton xs x ih =>
    rw [feed_concat]
    simp [onStep, ih, take_cons_take]

/-! ### The ping-pong counter -/

/-- A sample that differs from the one before it leaves a zero counter at zero. -/
theorem pingpongNext_zero {pcs : List Int} {pc : Int} (h : pcs.head? ≠ some pc) :
    pingpongNext pcs pc 0 = 0 := by
  match pcs, h with
  | [], _ => rfl
  | [_], _ => rfl
  | p1 :: _ :: _, h =>
    have : p1 ≠ pc := fun e => h (by simp [e])
    simp [pingpongNext, this]

theorem pingpongCnt_feed_of_chain (cfg : RecognizerCfg) {xs : List Int}
    (h : xs.Chain' (· ≠ ·)) : ((init cfg).feed xs).pingpongCnt = 0 := by
  induction xs using List.reverseRecOn with
  | nil => rfl
  | append_singleton xs x ih =>
    obtain ⟨hxs, -, hlast⟩ := List.chain'_append.1 h
    rw [feed_concat]
    simp only [onStep]
    rw [ih hxs]
    refine pingpongNext_zero ?_
    rw [pcs_feed _ _ (by simp [init]), List.head?_take, if_neg (by omega)]
    simp only [init, List.append_nil, List.head?_reverse]
    intro he
    exact hlast _ he x rfl rfl

/-! ### The score with default thresholds -/

private theorem foldr_max_le {ys : List Nat} {k : Nat} (h : ∀ y ∈ ys, y ≤ k) : ys.foldr max 0 ≤ k := by
  induction ys with
  | nil => simp
  | cons y ys ih => simpa using ⟨h y (by simp), ih fun z hz => h z (by simp [hz])⟩

theorem topHits_le {q : List Int} {k : Nat} (h : ∀ x ∈ q, q.count x ≤ k) : topHits q ≤ k :=
  foldr_max_le (by simpa using h)

/-- The score of a window whose most common sample holds at most 55% of it: the diversity term
alone. -/
theorem updateIdleScore_default {q : List Int} (hq : q ≠ []) (htop : 20 * topHits q ≤ 11 * q.length) :
    updateIdleScore {} q 0 0 = 11 / 20 * (1 - min 1 ((q.dedup.length : ℚ) / 8)) := by
  have hlen : (0 : ℚ) < q.length := by exact_mod_cast List.length_pos.2 hq
  have hshare : (topHits q : ℚ) / q.length ≤ 55 / 100 :=
    (div_le_div_iff₀ hlen (by norm_num)).2 (by norm_cast; omega)
  have htop0 : max 0 ((min 1 ((topHits q : ℚ) / q.length) - 55 / 100) / max (1 / 1000000) (1 - 55 / 100))
      = (0 : ℚ) :=
    max_eq_left (div_nonpos_of_nonpos_of_nonneg (sub_nonpos.2 ((min_le_right _ _).trans hshare))
      (by norm_num))
  have hd0 : 0 ≤ min 1 ((q.dedup.length : ℚ) / 8) :=
    le_min zero_le_one (div_nonneg (Nat.cast_nonneg _) (by norm_num))
  have h8 : ((max 1 8 : Int) : ℚ) = 8 := by norm_num
  simp only [updateIdleScore, hq, if_false, htop0, h8, Nat.cast_zero, zero_div, mul_zero, add_zero,
    min_eq_right zero_le_one]
  rw [show (55 / 100 : ℚ) = 11 / 20 by norm_num,
    min_eq_right ((mul_le_of_le_one_right (by norm_num) (sub_le_self _ hd0)).trans (by norm_num)),
    max_eq_right (mul_nonneg (by norm_num) (sub_nonneg.2 (min_le_left _ _)))]

private theorem topHits_replicate (A : Int) {k : Nat} (hk : 0 < k) : topHits (List.replicate k A) = k := by
  obtain ⟨j, rfl⟩ : ∃ j, k = j + 1 := ⟨k - 1, by omega⟩
  rw [topHits, List.map_replicate, List.count_replicate_self, List.replicate_succ, List.foldr_cons,
    max_eq_left (foldr_max_le fun y hy => (List.eq_of_mem_replicate hy).le)]

/-- A window of one repeated sample: diversity `1 - 1/8` and the whole hotspot term give `0.73125`,
to which the ping-pong term adds. -/
theorem updateIdleScore_replicate (A : Int) {k : Nat} (hk : 0 < k) (cnt : Nat) :
    updateIdleScore {} (List.replicate k A) cnt 0 = min 1 (117 / 160 + 1 / 5 * min 1 ((cnt : ℚ) / 12)) := by
  have hne : List.replicate k A ≠ [] := by simpa using hk.ne'
  simp only [updateIdleScore, List.replicate_dedup hk.ne', topHits_replicate A hk, List.length_replicate,
    List.length_singleton, hne, if_false, add_zero]
  have hdiv : (1 : ℚ) - min 1 (((1 : Nat) : ℚ) / ((max 1 8 : Int) : ℚ)) = 7 / 8 := by norm_num
  have htop : max 0 ((min 1 ((k : ℚ) / k) - 55 / 100) / max (1 / 1000000) (1 - 55 / 100)) = (1 : ℚ) := by
    rw [div_self (by exact_mod_cast hk.ne')]; norm_num
  have h12 : ((max 1 12 : Int) : ℚ) = 12 := by norm_num
  have hpp : 0 ≤ min 1 ((cnt : ℚ) / 12) := le_min zero_le_one (div_nonneg (Nat.cast_nonneg _) (by norm_num))
  rw [hdiv, htop, h12, max_eq_right (le_min zero_le_one (add_nonneg (by norm_num) (mul_nonneg (by norm_num) hpp))),
    show (55 / 100 * (7 / 8) + 25 / 100 * 1 : ℚ) = 117 / 160 by norm_num, show (20 / 100 : ℚ) = 1 / 5 by norm_num]

/-- The stored score is already clipped, so the `idle_score` property reads it unchanged. -/
theorem idleScore_onStep (pc : Int) (ts : Option Int) (nowMs : Int) :
    (sr.onStep pc ts nowMs).idleScore = (sr.onStep pc ts nowMs).score := by
  simp only [idleScore, onStep, updateIdleScore]
  split
  · simp
  · rw [min_eq_right (max_le zero_le_one (min_le_left _ _)), max_eq_right (le_max_left _ _)]

/-- On a fed trace the `idle_score` property is the score of the newest window. -/
theorem idleScore_feed (cfg : RecognizerCfg) {xs : List Int} (hne : xs ≠ []) :
    ((init cfg).feed xs).idleScore =
      updateIdleScore cfg ((init cfg).feed xs).recent ((init cfg).feed xs).pingpongCnt 0 := by
  obtain ⟨ys, x, rfl⟩ := List.eq_nil_or_concat xs |>.resolve_left hne
  rw [List.concat_eq_append, feed_concat, idleScore_onStep]
  simp only [onStep, cfg_feed]
  rfl

private theorem recent_feed_default (xs : List Int) :
    ((init {}).feed xs).recent = xs.reverse.take 64 := by
  rw [recent_feed _ _ (by simp [init])]
  simp [init]

/-! ### Traces of distinct samples -/

private theorem min_one_div_eight (n : Nat) : min 1 ((n : ℚ) / 8) = ((min n 8 : Nat) : ℚ) / 8 := by
  rcases le_total n 8 with h | h
  · rw [min_eq_left h, min_eq_right ((div_le_iff₀ (by norm_num)).2 (by rw [one_mul]; exact_mod_cast h))]
  · rw [min_eq_right h, min_eq_left ((le_div_iff₀ (by norm_num)).2 (by rw [one_mul]; exact_mod_cast h))]
    norm_num

private theorem score_distinct_window {q : List Int} (hnd : q.Nodup) (h2 : 2 ≤ q.length) :
    updateIdleScore {} q 0 0 = 11 / 20 * (1 - min 1 ((q.length : ℚ) / 8)) := by
  have htop : topHits q ≤ 1 := topHits_le fun x _ => List.nodup_iff_count_le_one.1 hnd x
  rw [updateIdleScore_default (List.ne_nil_of_length_pos (by omega)) (by omega),
    List.dedup_eq_self.2 hnd]

/-- The score after a trace of `n ≥ 1` distinct samples: `0.55 * (1 - min(n, 8)/8)`, plus `0.25`
after the first sample, so it is `0` from the eighth sample on and both gates are closed from the
second. -/
theorem distinct_trace_score (xs : List Int) (hnd : xs.Nodup) (hne : xs ≠ []) :
    ((init {}).feed xs).idleScore =
        11 / 20 * (1 - ((min xs.length 8 : Nat) : ℚ) / 8) + (if xs.length = 1 then 1 / 4 else 0) ∧
      (2 ≤ xs.length → ((init {}).feed xs).idleNow = false ∧ ((init {}).feed xs).stalledLike = false) := by
  have hcnt := pingpongCnt_feed_of_chain {} (List.Pairwise.chain' hnd)
  by_cases h1 : xs.length = 1
  · obtain ⟨x, rfl⟩ := List.length_eq_one.1 h1
    refine ⟨?_, by simp⟩
    rw [idleScore_feed _ hne, hcnt, recent_feed_default]
    exact (updateIdleScore_replicate x one_pos 0).trans (by norm_num)
  have h2 : 2 ≤ xs.length := by have := List.length_pos.2 hne; omega
  have hq : (xs.reverse.take 64).Nodup := (List.nodup_reverse.2 hnd).sublist (List.take_sublist _ _)
  have hscore : ((init {}).feed xs).idleScore = 11 / 20 * (1 - ((min xs.length 8 : Nat) : ℚ) / 8) := by
    rw [idleScore_feed _ hne, hcnt, recent_feed_default, score_distinct_window hq (by simp; omega),
      List.length_take, List.length_reverse, min_one_div_eight,
      show min (min 64 xs.length) 8 = min xs.length 8 by omega]
  have hm : (2 : ℚ) ≤ ((min xs.length 8 : Nat) : ℚ) := by exact_mod_cast (by omega : 2 ≤ min xs.length 8)
  have hlow : 11 / 20 * (1 - ((min xs.length 8 : Nat) : ℚ) / 8) ≤ 33 / 80 :=
    calc _ ≤ 11 / 20 * (1 - 2 / 8 : ℚ) :=
          mul_le_mul_of_nonneg_left (sub_le_sub_left (div_le_div_of_nonneg_right hm (by norm_num)) 1)
            (by norm_num)
      _ = 33 / 80 := by norm_num
  refine ⟨by rw [hscore, if_neg h1, add_zero], fun _ => ?_⟩
  simp only [idleNow, stalledLike, hscore, decide_eq_false_iff_not, not_le]
  exact ⟨hlow.trans_lt (by norm_num), hlow.trans_lt (by norm_num)⟩

theorem distinct_trace_score_pair :
    ([0, 1] : List Int).Nodup ∧ ([0, 1] : List Int) ≠ [] ∧
      (((init {}).feed [0, 1]).idleScore =
          11 / 20 * (1 - ((min ([0, 1] : List Int).length 8 : Nat) : ℚ) / 8) +
            (if ([0, 1] : List Int).length = 1 then 1 / 4 else 0) ∧
        (2 ≤ ([0, 1] : List Int).length →
          ((init {}).feed [0, 1]).idleNow = false ∧ ((init {}).feed [0, 1]).stalledLike = false)) :=
  ⟨by decide, by decide, distinct_trace_score [0, 1] (by decide) (by decide)⟩

/-- A single sample fills the hotspot term: the score is `0.73125` and `idle_now` holds. -/
theorem first_sample_scores_idle :
    ((init {}).feed [0]).idleScore = 117 / 160 ∧ ((init {}).feed [0]).idleNow = true := by
  have h : ((init {}).feed [0]).idleScore = 117 / 160 := by
    rw [idleScore_feed _ (by simp), pingpongCnt_feed_of_chain _ (by simp), recent_feed_default]
    exact (updateIdleScore_replicate 0 one_pos 0).trans (by norm_num)
  simp only [idleNow, h]
  norm_num

/-! ### The alternating trace -/

/-- The strictly alternating trace `A, B, A, B, …` of length `n`. -/
def alternating (A B : Int) (n : Nat) : List Int :=
  (List.range n).map fun i => if i % 2 = 0 then A else B

theorem alternating_chain {A B : Int} (hAB : A ≠ B) (n : Nat) :
    (alternating A B n).Chain' (· ≠ ·) := by
  cases n with
  | zero => simp [alternating]
  | succ n =>
    rw [alternating, List.chain'_map, List.chain'_range_succ]
    intro i _
    rcases Nat.mod_two_eq_zero_or_one i with h | h
    · simp [h, show (i + 1) % 2 = 1 by omega, hAB]
    · simp [h, show (i + 1) % 2 = 0 by omega, hAB.symm]

/-- No sample of a trace whose consecutive samples differ fills more than every other position. -/
theorem two_mul_count_le : ∀ {l : List Int}, l.Chain' (· ≠ ·) → ∀ x, 2 * l.count x ≤ l.length + 1
  | [], _, _ => by simp
  | [a], _, x => by rw [List.count_singleton']; split <;> simp
  | a :: b :: rest, h, x => by
    have hab : a ≠ b := (List.chain'_cons.1 h).1
    have ih := two_mul_count_le h.tail.tail x
    simp only [List.count_cons, List.length_cons, beq_iff_eq] at ih ⊢
    by_cases ha : a = x <;> by_cases hb : b = x <;> simp_all <;> omega

/-- The newest window of the alternating trace: consecutive samples differ, every sample is `A` or
`B`, and it holds both. -/
theorem alternating_window {A B : Int} (hAB : A ≠ B) {n : Nat} (hn : 2 ≤ n) :
    let q := (alternating A B n).reverse.take 64
    q.Chain' (· ≠ ·) ∧ q.dedup.length = 2 ∧ q.length = min n 64 := by
  intro q
  have hc : q.Chain' (· ≠ ·) :=
    (List.chain'_reverse.2 ((alternating_chain hAB n).imp fun _ _ h => Ne.symm h)).take 64
  have hAB' : ∀ x ∈ q, x = A ∨ x = B := fun x hx => by
    have := List.mem_reverse.1 ((List.take_sublist _ _).subset hx)
    simp only [alternating, List.mem_map] at this
    obtain ⟨i, -, rfl⟩ := this
    split <;> simp
  have hlen : q.length = min n 64 := by simp [q, alternating, min_comm]
  obtain ⟨y0, y1, rest, hq⟩ : ∃ y0 y1 rest, q = y0 :: y1 :: rest := by
    match q, hlen with
    | y0 :: y1 :: rest, _ => exact ⟨y0, y1, rest, rfl⟩
    | [], h => simp at h; omega
    | [_], h => simp at h; omega
  have hy : y0 ≠ y1 := (List.chain'_cons.1 (hq ▸ hc)).1
  -- the two newest samples differ, so they are `A` and `B` in some order
  have hboth : A ∈ q ∧ B ∈ q := by
    rw [hq]
    rcases hAB' y0 (by simp [hq]) with rfl | rfl <;> rcases hAB' y1 (by simp [hq]) with rfl | rfl <;>
      simp_all
  have hmem : ∀ x, x ∈ q.dedup ↔ x ∈ [A, B] := fun x => by
    rw [List.mem_dedup]
    refine ⟨fun hx => by simpa using hAB' x hx, fun hx => ?_⟩
    rcases List.mem_pair.1 hx with rfl | rfl
    exacts [hboth.1, hboth.2]
  refine ⟨hc, ?_, hlen⟩
  exact ((List.perm_ext_iff_of_nodup (List.nodup_dedup q) (by simpa using hAB)).2 hmem).length_eq

/-- On the alternating trace the ping-pong counter never moves, and from ten samples on the score
is `0.4125`, the diversity term of two addresses alone: `idle_now` and `stalled_like` stay false. -/
theorem alternating_trace_score (A B : Int) (hAB : A ≠ B) :
    (∀ n, ((init {}).feed (alternating A B n)).pingpongCnt = 0) ∧
    ∀ n, 10 ≤ n → ((init {}).feed (alternating A B n)).idleScore = 33 / 80 ∧
      ((init {}).feed (alternating A B n)).idleNow = false ∧
      ((init {}).feed (alternating A B n)).stalledLike = false := by
  have hcnt := fun n => pingpongCnt_feed_of_chain {} (alternating_chain hAB n)
  refine ⟨hcnt, fun n hn => ?_⟩
  obtain ⟨hc, hdedup, hlen⟩ := alternating_window hAB (n := n) (by omega)
  have htop : topHits ((alternating A B n).reverse.take 64) ≤ (min n 64 + 1) / 2 :=
    topHits_le fun x _ => by have := two_mul_count_le hc x; omega
  have hne : alternating A B n ≠ [] := List.ne_nil_of_length_pos (by simp [alternating]; omega)
  have hscore : ((init {}).feed (alternating A B n)).idleScore = 33 / 80 := by
    rw [idleScore_feed _ hne, hcnt, recent_feed_default,
      updateIdleScore_default (List.ne_nil_of_length_pos (by omega)) (by omega), hdedup]
    norm_num
  simp only [idleNow, stalledLike, hscore]
  norm_num

theorem alternating_trace_score_zero_one :
    (0 : Int) ≠ 1 ∧
      ((∀ n, ((init {}).feed (alternating 0 1 n)).pingpongCnt = 0) ∧
      ∀ n, 10 ≤ n → ((init {}).feed (alternating 0 1 n)).idleScore = 33 / 80 ∧
        ((init {}).feed (alternating 0 1 n)).idleNow = false ∧
        ((init {}).feed (alternating 0 1 n)).stalledLike = false) :=
  ⟨by decide, alternating_trace_score 0 1 (by decide)⟩

/-! ### Self-loops -/

/-- A self-loop is recognised whatever came before: after any history and then at least
`max(8, recent) = 64` samples of one address, the score is at least `0.73125`, so `idle_now` and
`stalled_like` hold. -/
theorem self_loop_idle (h : List Int) (A : Int) (k : Nat) (hk : 64 ≤ k) :
    117 / 160 ≤ ((init {}).feed (h ++ List.replicate k A)).idleScore ∧
      ((init {}).feed (h ++ List.replicate k A)).idleNow = true ∧
      ((init {}).feed (h ++ List.replicate k A)).stalledLike = true := by
  have hne : h ++ List.replicate k A ≠ [] := by simp; omega
  have hwin : ((init {}).feed (h ++ List.replicate k A)).recent = List.replicate 64 A := by
    rw [recent_feed_default, List.reverse_append, List.reverse_replicate,
      List.take_append_of_le_length (by simpa using hk), List.take_replicate, min_eq_left hk]
  have hpp : 0 ≤ min 1 ((((init {}).feed (h ++ List.replicate k A)).pingpongCnt : ℚ) / 12) :=
    le_min zero_le_one (div_nonneg (Nat.cast_nonneg _) (by norm_num))
  have hscore : 117 / 160 ≤ ((init {}).feed (h ++ List.replicate k A)).idleScore := by
    rw [idleScore_feed _ hne, hwin, updateIdleScore_replicate A (by norm_num)]
    exact le_min (by norm_num) (le_add_of_nonneg_right (mul_nonneg (by norm_num) hpp))
  refine ⟨hscore, ?_, ?_⟩ <;> simp only [idleNow, stalledLike, decide_eq_true_eq] <;>
    exact le_trans (by norm_num) hscore

theorem self_loop_idle_after_pair :
    64 ≤ 64 ∧ (117 / 160 ≤ ((init {}).feed ([1, 2] ++ List.replicate 64 0)).idleScore ∧
      ((init {}).feed ([1, 2] ++ List.replicate 64 0)).idleNow = true ∧
      ((init {}).feed ([1, 2] ++ List.replicate 64 0)).stalledLike = true) :=
  ⟨le_rfl, self_loop_idle [1, 2] 0 64 le_rfl⟩

end StateRecognizer

end FuzzwareAdapt
