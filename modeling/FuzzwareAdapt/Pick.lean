import FuzzwareAdapt.Manager

/-!
# The selection policy of `_pick_irq`

`maxBy` returns the first element of maximal key (`maxBy_isFirstMax`), as CPython's `max` does, and
the candidates are the lines not cooling down.  Together they give the policy of `_pick_irq`
(`pickIrq_policy`): nothing exactly when every line cools down, else a non-cooling line, which is
the first of highest score when the draw is at least `epsilon` and the drawn one otherwise, so every
non-cooling line, and only those, can be explored.
-/

namespace FuzzwareAdapt

variable {α : Type}

/-- `a` is the first element of `l` whose key is maximal. -/
def IsFirstMax (f : α → ℚ) (l : List α) (a : α) : Prop :=
  ∃ pre post, l = pre ++ a :: post ∧ (∀ x ∈ pre, f x < f a) ∧ ∀ x ∈ post, f x ≤ f a

/-! ### `max` with a key -/

private theorem foldl_isFirstMax (f : α → ℚ) (a : α) (l : List α) :
    IsFirstMax f (a :: l) (l.foldl (fun b x => if f b < f x then x else b) a) := by
  induction l using List.reverseRecOn with
  | nil => exact ⟨[], [], rfl, by simp, by simp⟩
  | append_singleton l x ih =>
    obtain ⟨pre, post, hl, hpre, hpost⟩ := ih
    have hle : ∀ y ∈ a :: l, f y ≤ f (l.foldl (fun b x => if f b < f x then x else b) a) := by
      intro y hy
      rw [hl, List.mem_append, List.mem_cons] at hy
      rcases hy with hy | rfl | hy
      exacts [(hpre y hy).le, le_rfl, hpost y hy]
    rw [List.foldl_concat]
    split
    · exact ⟨a :: l, [], by simp, fun y hy => (hle y hy).trans_lt ‹_›, by simp⟩
    · refine ⟨pre, post ++ [x], by rw [← List.cons_append, hl]; simp, hpre, fun y hy => ?_⟩
      rcases List.mem_append.1 hy with hy | hy
      · exact hpost y hy
      · exact List.mem_singleton.1 hy ▸ le_of_not_lt ‹_›

theorem maxBy_isFirstMax {f : α → ℚ} {l : List α} {a : α} (h : maxBy f l = some a) :
    IsFirstMax f l a := by
  cases l with
  | nil => cases h
  | cons b l => exact Option.some.inj h ▸ foldl_isFirstMax f b l

theorem maxBy_eq_none {f : α → ℚ} {l : List α} : maxBy f l = none ↔ l = [] := by
  cases l <;> simp [maxBy]

/-! ### Candidates -/

theorem mem_candidates {d : List (Int × IrqStat)} {now n : Int} :
    n ∈ candidates d now ↔ ∃ s, (n, s) ∈ d ∧ s.coolUntil ≤ now := by
  simp [candidates]

theorem candidates_eq_nil {d : List (Int × IrqStat)} {now : Int} :
    candidates d now = [] ↔ ∀ e ∈ d, now < e.2.coolUntil := by
  simp [candidates, List.filter_eq_nil_iff]

private theorem exists_getElem?_mod (cs : List Int) (n : Int) :
    (∃ i, cs[i % cs.length]? = some n) ↔ n ∈ cs := by
  constructor
  · rintro ⟨i, h⟩
    exact List.getElem?_mem h
  · intro h
    obtain ⟨k, hk⟩ := List.mem_iff_getElem?.1 h
    have : k < cs.length := (List.getElem?_eq_some_iff.1 hk).1
    exact ⟨k, by rwa [Nat.mod_eq_of_lt this]⟩

namespace AdaptiveIRQManager

variable (m : AdaptiveIRQManager) (now : Int) (d : Draw)

theorem pickIrq_of_nil (h : candidates m.irqStats now = []) : m.pickIrq now d = none := by
  simp [pickIrq, h]

theorem pickIrq_of_ne_nil (h : candidates m.irqStats now ≠ []) :
    m.pickIrq now d = if d.r < m.epsilon then
      (candidates m.irqStats now)[d.idx % (candidates m.irqStats now).length]?
    else maxBy (score m.irqStats) (candidates m.irqStats now) := by
  obtain ⟨c, cs, hc⟩ := List.exists_cons_of_ne_nil h
  simp [pickIrq, hc]

theorem pickIrq_eq_none : m.pickIrq now d = none ↔ candidates m.irqStats now = [] := by
  by_cases h : candidates m.irqStats now = []
  · simp [pickIrq_of_nil m now d h, h]
  · have hlt := Nat.mod_lt d.idx (List.length_pos.2 h)
    rw [pickIrq_of_ne_nil m now d h]
    split <;> simp [h, maxBy_eq_none, hlt]

theorem pickIrq_mem {n : Int} (h : m.pickIrq now d = some n) : n ∈ candidates m.irqStats now := by
  have hne : candidates m.irqStats now ≠ [] := fun he => by simp [pickIrq_of_nil m now d he] at h
  rw [pickIrq_of_ne_nil m now d hne] at h
  split at h
  · exact List.getElem?_mem h
  · obtain ⟨pre, post, hl, -, -⟩ := maxBy_isFirstMax h
    simp [hl]

theorem pickIrq_exploit (hr : m.epsilon ≤ d.r) {n : Int} (h : m.pickIrq now d = some n) :
    IsFirstMax (score m.irqStats) (candidates m.irqStats now) n := by
  have hne : candidates m.irqStats now ≠ [] := fun he => by simp [pickIrq_of_nil m now d he] at h
  rw [pickIrq_of_ne_nil m now d hne, if_neg (not_lt.2 hr)] at h
  exact maxBy_isFirstMax h

theorem pickIrq_explore (hr : d.r < m.epsilon) :
    m.pickIrq now d = (candidates m.irqStats now)[d.idx % (candidates m.irqStats now).length]? := by
  by_cases h : candidates m.irqStats now = []
  · simp [pickIrq_of_nil m now d h, h]
  · rw [pickIrq_of_ne_nil m now d h, if_pos hr]

/-- The selection policy of `_pick_irq`, with exploitation stated on the success rate
`wins / max(1, tries)` itself. -/
theorem pickIrq_policy :
    (m.pickIrq now d = none ↔ ∀ e ∈ m.irqStats, now < e.2.coolUntil) ∧
    (∀ n, m.pickIrq now d = some n → ∃ s, (n, s) ∈ m.irqStats ∧ s.coolUntil ≤ now) ∧
    (m.epsilon ≤ d.r → ∀ n, m.pickIrq now d = some n →
      IsFirstMax (fun k => ((lookupStat m.irqStats k).wins : ℚ) / ((max 1 (lookupStat m.irqStats k).tries : Nat) : ℚ))
        (candidates m.irqStats now) n) ∧
    (d.r < m.epsilon →
      m.pickIrq now d = (candidates m.irqStats now)[d.idx % (candidates m.irqStats now).length]? ∧
      ∀ n, (∃ i, m.pickIrq now ⟨d.r, i⟩ = some n) ↔ n ∈ candidates m.irqStats now) := by
  refine ⟨(pickIrq_eq_none m now d).trans candidates_eq_nil,
    fun n h => mem_candidates.1 (pickIrq_mem m now d h), fun hr n => pickIrq_exploit m now d hr,
    fun hr => ⟨pickIrq_explore m now d hr, fun n => ?_⟩⟩
  simpa only [fun i => pickIrq_explore m now ⟨d.r, i⟩ hr] using exists_getElem?_mod _ n

end AdaptiveIRQManager

end FuzzwareAdapt
