import FuzzwareAdapt.Stats
import Mathlib.Data.Int.Bitwise

/-!
# The wait hook

`_on_wait` of `adapt/wait_interceptor.py`: every WFI/WFE the code hook recognises is reported to
`saw_wait_at`; after the warm-up the hook fires one IRQ and skips the instruction when
`should_try_irq` holds, and otherwise lets the wait run and counts it as progress.  Of the manager's
calls only `fire_one_irq` can raise, with the `OverflowError` of its backoff; the `except` branch
then lets the wait run, with neither `on_irq_fired` nor `notify_progress`.

`onWait_cases` says once what an invocation can do; the simp lemmas beside the manager's small
methods say which fields each one writes.

`_code_hook` reads the emulator twice before it reaches `_on_wait`: the CPSR through `_is_thumb`
and the halfword at the hooked address through `_read_u16`.  The two helpers fail differently:
`_read_u16` turns a failed read into `None` and the hook returns, while `_is_thumb` answers `True`
when the CPSR cannot be read, so that a failed CPSR read stops nothing (`codeHook_spec`).  The PC
is written only after `_on_wait` returned `True`, and then to `addr + 2`.
-/

namespace FuzzwareAdapt

/-- The clock readings of one `_on_wait`: `notify_progress` in `saw_wait_at`, `ready`,
`should_try_irq`, the attempt, `on_irq_fired`, and the `notify_progress` of the branch that lets
the wait run. -/
structure HookClock where
  saw : Int
  ready : Int
  should : Int
  fire : FireClock
  fired : Int
  progress : Int

/-- `_on_wait(uc, address, size, mgr)`: whether to skip the instruction, and the manager after. -/
def onWait (mgr : AdaptiveIRQManager) (address : Int) (d : Draw) (c : HookClock) :
    Bool × AdaptiveIRQManager :=
  let mgr := mgr.sawWaitAt address c.saw
  if !mgr.ready c.ready then (false, mgr)
  else if mgr.shouldTryIrq c.should then
    let r := mgr.fireOneIrq d c.fire
    if r.1.isOk then (true, r.2.onIrqFired c.fired) else (false, r.2)
  else (false, mgr.notifyProgress c.progress)

namespace AdaptiveIRQManager

variable (m : AdaptiveIRQManager)

@[simp] theorem notifyProgress_lastProgress (t : Int) : (m.notifyProgress t).lastProgress = t := rfl
@[simp] theorem notifyProgress_irqStats (t : Int) : (m.notifyProgress t).irqStats = m.irqStats := rfl
@[simp] theorem notifyProgress_lastIrqTs (t : Int) : (m.notifyProgress t).lastIrqTs = m.lastIrqTs := rfl
@[simp] theorem onIrqFired_lastIrqTs (t : Int) : (m.onIrqFired t).lastIrqTs = t := rfl
@[simp] theorem onIrqFired_irqStats (t : Int) : (m.onIrqFired t).irqStats = m.irqStats := rfl
@[simp] theorem onIrqFired_lastProgress (t : Int) : (m.onIrqFired t).lastProgress = m.lastProgress := rfl

/-- `saw_wait_at` writes only `_last_wait_pc` and `_last_progress`. -/
theorem sawWaitAt_eq (pc t : Int) :
    m.sawWaitAt pc t = { m with
      lastWaitPc := some pc
      lastProgress := if m.lastWaitPc = some pc then m.lastProgress else t } := by
  unfold sawWaitAt
  split
  · simp_all [notifyProgress]
  · rename_i h
    simp only [not_not] at h
    cases m
    simp_all

@[simp] theorem sawWaitAt_irqStats (pc t : Int) : (m.sawWaitAt pc t).irqStats = m.irqStats := by
  rw [sawWaitAt_eq]

@[simp] theorem sawWaitAt_lastIrqTs (pc t : Int) : (m.sawWaitAt pc t).lastIrqTs = m.lastIrqTs := by
  rw [sawWaitAt_eq]

@[simp] theorem sawWaitAt_stallMs (pc t : Int) : (m.sawWaitAt pc t).stallMs = m.stallMs := by
  rw [sawWaitAt_eq]

@[simp] theorem sawWaitAt_minBetweenIrqsMs (pc t : Int) :
    (m.sawWaitAt pc t).minBetweenIrqsMs = m.minBetweenIrqsMs := by
  rw [sawWaitAt_eq]

@[simp] theorem sawWaitAt_baseCooldownMs (pc t : Int) : (m.sawWaitAt pc t).baseCooldownMs = m.baseCooldownMs := by
  rw [sawWaitAt_eq]

@[simp] theorem sawWaitAt_ready (pc t r : Int) : (m.sawWaitAt pc t).ready r = m.ready r := by
  rw [sawWaitAt_eq]; rfl

/-- At the wait site it saw last, `saw_wait_at` does nothing. -/
theorem sawWaitAt_of_eq {pc : Int} (h : m.lastWaitPc = some pc) (t : Int) : m.sawWaitAt pc t = m := by
  simp [sawWaitAt, h]

@[simp] theorem fireOneIrq_lastProgress (d : Draw) (c : FireClock) :
    (m.fireOneIrq d c).2.lastProgress = m.lastProgress := by
  unfold fireOneIrq; split <;> rfl

@[simp] theorem fireOneIrq_lastIrqTs (d : Draw) (c : FireClock) :
    (m.fireOneIrq d c).2.lastIrqTs = m.lastIrqTs := by
  unfold fireOneIrq; split <;> rfl

theorem ready_iff (t : Int) : m.ready t = true ↔ m.warmupSec * 1000000000 ≤ t - m.startTs := by
  simp [ready]

theorem shouldTryIrq_iff (t : Int) : m.shouldTryIrq t = true ↔
    m.stallMs * 1000000 ≤ t - m.lastProgress ∧ m.minBetweenIrqsMs * 1000000 ≤ t - m.lastIrqTs := by
  simp [shouldTryIrq]

end AdaptiveIRQManager

/-- What one invocation of the hook does: before the warm-up it lets the wait run; after it, it
either fires and skips the wait, or fires, raises and lets the wait run, or lets the wait run and
stamps progress. -/
theorem onWait_cases (m : AdaptiveIRQManager) (pc : Int) (d : Draw) (c : HookClock) :
    let m' := m.sawWaitAt pc c.saw
    (m'.ready c.ready = false ∧ onWait m pc d c = (false, m')) ∨
    (m'.ready c.ready = true ∧ m'.shouldTryIrq c.should = true ∧ (m'.fireOneIrq d c.fire).1.isOk = true ∧
      onWait m pc d c = (true, (m'.fireOneIrq d c.fire).2.onIrqFired c.fired)) ∨
    (m'.ready c.ready = true ∧ m'.shouldTryIrq c.should = true ∧ (m'.fireOneIrq d c.fire).1.isOk = false ∧
      onWait m pc d c = (false, (m'.fireOneIrq d c.fire).2)) ∨
    (m'.ready c.ready = true ∧ m'.shouldTryIrq c.should = false ∧
      onWait m pc d c = (false, m'.notifyProgress c.progress)) := by
  intro m'
  cases hr : m'.ready c.ready <;> cases hs : m'.shouldTryIrq c.should <;>
    cases ho : (m'.fireOneIrq d c.fire).1.isOk <;> simp [onWait, m', hr, hs, ho]

/-! ### The code hook -/

/-- `_WFI`, the Thumb encoding of Wait For Interrupt. -/
def wfi : Nat := 0xBF30

/-- `_WFE`, the Thumb encoding of Wait For Event. -/
def wfe : Nat := 0xBF20

/-- What the hook reads from and writes to the emulator, each read `none` where it raises: whether
the unicorn constants `UC_ARM_REG_CPSR` and `UC_ARM_REG_PC` were imported, `uc.reg_read` of the
CPSR, `uc.mem_read(addr, 2)` at each address, and at which values `uc.reg_write` of the PC returns. -/
structure Emu where
  cpsrReg : Bool
  pcReg : Bool
  cpsr : Option Int
  memRead : Int → Option (List UInt8)
  pcWrite : Int → Bool

/-- `_is_thumb(uc)`: the T bit of the CPSR, and Thumb when the constant is missing or the read
raises. -/
def isThumb (e : Emu) : Bool :=
  if !e.cpsrReg then true
  else match e.cpsr with
    | some cpsr => Int.land (cpsr >>> 5) 1 ≠ 0
    | none => true

/-- `_read_u16(uc, addr)`: the little-endian halfword of `uc.mem_read(addr, 2)`, `none` when the
read raises or `struct.unpack("<H", data)` refuses data that is not two bytes. -/
def readU16 (e : Emu) (addr : Int) : Option Nat :=
  match e.memRead addr with
  | some [b0, b1] => some (b0.toNat + 256 * b1.toNat)
  | _ => none

/-- `_advance_pc(uc, pc, thumb)`: the value written to the PC, when the write happens. -/
def advancePc (e : Emu) (pc : Int) (thumb : Bool) : Option Int :=
  let v := pc + if thumb then 2 else 4
  if e.pcReg && e.pcWrite v then some v else none

/-- `_code_hook(uc_, addr, size_, user_data)` of `WaitInstrInterceptor.install`: the result of
`_on_wait`, with the manager after it, when the hook calls it, and the value the hook writes to the
PC, if any. -/
def codeHook (e : Emu) (mgr : AdaptiveIRQManager) (addr : Int) (d : Draw) (c : HookClock) :
    Option (Bool × AdaptiveIRQManager) × Option Int :=
  if !isThumb e then (none, none)
  else match readU16 e addr with
    | none => (none, none)
    | some val =>
      if val = wfi ∨ val = wfe then
        let r := onWait mgr addr d c
        (some r, if r.1 then advancePc e addr true else none)
      else (none, none)

/-- `_on_wait` skips the wait exactly when, after `saw_wait_at`, both gates pass and
`fire_one_irq` returns. -/
theorem onWait_fst_iff (m : AdaptiveIRQManager) (pc : Int) (d : Draw) (c : HookClock) :
    (onWait m pc d c).1 = true ↔ m.ready c.ready = true ∧ (m.sawWaitAt pc c.saw).shouldTryIrq c.should = true ∧
      ((m.sawWaitAt pc c.saw).fireOneIrq d c.fire).1.isOk = true := by
  rcases onWait_cases m pc d c with ⟨hr, he⟩ | ⟨hr, hs, ho, he⟩ | ⟨hr, hs, ho, he⟩ | ⟨hr, hs, he⟩ <;>
    simp_all

theorem isThumb_eq_false (e : Emu) :
    isThumb e = false ↔ e.cpsrReg = true ∧ ∃ v, e.cpsr = some v ∧ Int.land (v >>> 5) 1 = 0 := by
  unfold isThumb
  cases e.cpsrReg <;> cases e.cpsr <;> simp

/-- The hook in one `if`: it reaches `_on_wait` exactly at a WFI/WFE read in Thumb state. -/
theorem codeHook_eq (e : Emu) (mgr : AdaptiveIRQManager) (addr : Int) (d : Draw) (c : HookClock) :
    codeHook e mgr addr d c =
      if isThumb e = true ∧ (readU16 e addr = some wfi ∨ readU16 e addr = some wfe) then
        (some (onWait mgr addr d c), if (onWait mgr addr d c).1 then advancePc e addr true else none)
      else (none, none) := by
  unfold codeHook
  cases isThumb e <;> cases readU16 e addr <;> simp

/-- The code hook on every emulator and manager: a failed read of the halfword stops it before
the manager and the PC; a failed CPSR read counts as Thumb; the manager is called exactly at a
WFI/WFE read in Thumb state; and the PC is written, always to `addr + 2`, exactly when moreover
both gates of `_on_wait` pass, `fire_one_irq` returns, and the write goes through. -/
theorem codeHook_spec (e : Emu) (mgr : AdaptiveIRQManager) (addr : Int) (d : Draw) (c : HookClock) :
    (readU16 e addr = none → codeHook e mgr addr d c = (none, none)) ∧
    (isThumb e = false ↔ e.cpsrReg = true ∧ ∃ v, e.cpsr = some v ∧ Int.land (v >>> 5) 1 = 0) ∧
    ((codeHook e mgr addr d c).1.isSome ↔
      isThumb e = true ∧ (readU16 e addr = some wfi ∨ readU16 e addr = some wfe)) ∧
    (∀ pc, (codeHook e mgr addr d c).2 = some pc → pc = addr + 2) ∧
    ((codeHook e mgr addr d c).2.isSome ↔
      isThumb e = true ∧ (readU16 e addr = some wfi ∨ readU16 e addr = some wfe) ∧
      mgr.ready c.ready = true ∧ (mgr.sawWaitAt addr c.saw).shouldTryIrq c.should = true ∧
      ((mgr.sawWaitAt addr c.saw).fireOneIrq d c.fire).1.isOk = true ∧
      e.pcReg = true ∧ e.pcWrite (addr + 2) = true) := by
  refine ⟨fun h => by simp [codeHook, h], isThumb_eq_false e, ?_, fun pc hpc => ?_, ?_⟩ <;>
    simp only [codeHook_eq] at *
  · split_ifs <;> simp_all
  · split_ifs at hpc; simp_all [advancePc]
  · simp only [onWait_fst_iff]
    split_ifs <;> simp_all [advancePc]

/-- An emulator whose CPSR read raises, with a WFI at every address and a PC that takes writes. -/
private def emuNoCpsr : Emu := ⟨true, true, none, fun _ => some [0x30, 0xBF], fun _ => true⟩

/-- A manager on one line, ready at once, that never explores. -/
private def readyMgr : AdaptiveIRQManager := .init { warmupSec := 0, maxIrq := 1, epsilon := 0 } Host.bare 0 0

/-- The CPSR read raises, and still the hook calls the manager and skips the WFI at `0x100`: the
hit comes 2 s after the manager was made, past `stall_ms` and `min_between_irqs_ms`. -/
theorem cpsr_failure_counterexample :
    let r := codeHook emuNoCpsr readyMgr 256 ⟨0, 0⟩
      ⟨0, 0, 2000000000, ⟨2000000000, 2010000000, 2010000000⟩, 2010000000, 2000000000⟩
    emuNoCpsr.cpsr = none ∧ r.1.isSome = true ∧ r.2 = some 258 := by
  decide

end FuzzwareAdapt
