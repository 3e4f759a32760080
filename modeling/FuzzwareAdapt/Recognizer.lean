import Mathlib.Algebra.Order.Field.Rat
import Mathlib.Data.List.Dedup

/-!
# The state recognizer

`StateRecognizer` of `adapt/state_recognizer.py`: two bounded windows of program-counter samples,
a ping-pong counter, and the idle score recomputed on every `on_step`.

A `deque(maxlen=k)` is kept newest first, so that `append` is `(pc :: q).take k` and `q[-1]`,
`q[-3]` are the first and third elements.  The thresholds are the values `__init__` resolves from
the environment and `cfg`; their defaults are the structure's.  The wait collaborator enters
`on_step` only through its `last_wait_ts` (`none` when there is no collaborator or it has none),
read together with `_now_ms()`.
-/

namespace FuzzwareAdapt

/-- The thresholds of a recognizer. -/
structure RecognizerCfg where
  win : Int := 512
  recent : Int := 64
  diversityMax : Int := 8
  topHitRatio : ℚ := 55 / 100
  pingpongMin : Int := 12
  idleScoreWaitBonusMs : Int := 200

/-- The state of a `StateRecognizer`; `score` is `_idle_score`. -/
structure StateRecognizer where
  cfg : RecognizerCfg
  pcs : List Int
  recent : List Int
  pingpongCnt : Nat
  score : ℚ

/-- A recognizer as `__init__` leaves it. -/
def StateRecognizer.init (cfg : RecognizerCfg) : StateRecognizer := ⟨cfg, [], [], 0, 0⟩

/-- The count of the most common sample, `Counter(q).most_common(1)[0][1]`. -/
def topHits (q : List Int) : Nat := (q.map q.count).foldr max 0

/-- The ping-pong update of `on_step` against the samples before `pc` (newest first): a sample
equal to both `q[-1]` and `q[-3]` counts one up, a change decays the counter by one. -/
def pingpongNext (pcs : List Int) (pc : Int) (cnt : Nat) : Nat :=
  match pcs with
  | p1 :: _ :: rest =>
    if p1 = pc ∧ rest.head? = some pc then cnt + 1 else if p1 ≠ pc then cnt - 1 else cnt
  | _ => cnt

/-- The recent-wait bonus: up to 0.25, decaying linearly over `idle_score_wait_bonus_ms`. -/
def waitBonus (cfg : RecognizerCfg) (ts : Option Int) (nowMs : Int) : ℚ :=
  match ts with
  | some t =>
    if t ≠ 0 ∧ 0 ≤ nowMs - t ∧ nowMs - t ≤ cfg.idleScoreWaitBonusMs then
      1 / 4 * (1 - ((nowMs - t : Int) : ℚ) / ((max 1 cfg.idleScoreWaitBonusMs : Int) : ℚ))
    else 0
  | none => 0

/-- `_update_idle_score`: diversity, hotspot, ping-pong and wait bonus, clipped to `[0, 1]`. -/
def updateIdleScore (cfg : RecognizerCfg) (recent : List Int) (cnt : Nat) (bonus : ℚ) : ℚ :=
  if recent = [] then 0 else
  let divPart := 1 - min 1 ((recent.dedup.length : ℚ) / ((max 1 cfg.diversityMax : Int) : ℚ))
  let topPart := max 0 ((min 1 ((topHits recent : ℚ) / (recent.length : ℚ)) - cfg.topHitRatio) /
    max (1 / 1000000) (1 - cfg.topHitRatio))
  let pingpongPart := min 1 ((cnt : ℚ) / ((max 1 cfg.pingpongMin : Int) : ℚ))
  max 0 (min 1 (55 / 100 * divPart + 25 / 100 * topPart + 20 / 100 * pingpongPart + bonus))

namespace StateRecognizer

variable (sr : StateRecognizer)

/-- `on_step(pc)`. -/
def onStep (pc : Int) (ts : Option Int) (nowMs : Int) : StateRecognizer :=
  let cnt := pingpongNext sr.pcs pc sr.pingpongCnt
  let recent := (pc :: sr.recent).take (max 8 sr.cfg.recent).toNat
  { sr with
    pcs := (pc :: sr.pcs).take (max 8 sr.cfg.win).toNat
    recent := recent
    pingpongCnt := cnt
    score := updateIdleScore sr.cfg recent cnt (waitBonus sr.cfg ts nowMs) }

/-- The `idle_score` property. -/
def idleScore : ℚ := max 0 (min 1 sr.score)

/-- `idle_now`: the strict gate. -/
def idleNow : Bool := decide (3 / 5 ≤ sr.idleScore)

/-- `stalled_like`: the loose gate. -/
def stalledLike : Bool := decide (9 / 20 ≤ sr.idleScore)

/-- `on_step` over a sequence of samples, oldest first, with no wait timestamp. -/
def feed (xs : List Int) : StateRecognizer := xs.foldl (fun s pc => s.onStep pc none 0) sr

end StateRecognizer

end FuzzwareAdapt
