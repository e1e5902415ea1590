import Magneto.Model
import Mathlib.Logic.Function.Basic

/-!
# Event contexts and the events driver

The driver maps a registered descriptor to its context, its direction and the
expiry of its timer. `RegEvent` takes its timeout as an `int`; a negative one
arms no timer on `kAddEvent` and keeps the old timer on `kModEvent`. A failed
`RegEvent` leaves the descriptor unregistered.
-/

namespace Magneto

/-- The session variant of `EventCtx`; `id` is its identity in `pool_event_ctxs_`. -/
structure EventCtx where
  id : ℕ
  fd : ℤ
  timeleftMs : ℤ
  lasttimeMs : ℤ
  noTalk : ℕ
  deriving DecidableEq, Repr

/-- `AgentSlave::CheckEventCtxTimeout_`; the default argument of the source is 0. -/
def EventCtx.checkTimeout (now timeleftMs : ℤ) (ctx : EventCtx) : Bool × EventCtx :=
  let consumed := now - ctx.lasttimeMs
  if ctx.timeleftMs ≤ consumed then (false, ctx)
  else if timeleftMs ≠ 0 then (true, { ctx with timeleftMs := timeleftMs, lasttimeMs := now })
  else (true, { ctx with timeleftMs := ctx.timeleftMs - consumed, lasttimeMs := now })

abbrev EventCtxPool := ObjectPool Unit Unit

namespace EventsDriver

inductive Event
  | kIn | kOut | kErr
  deriving DecidableEq, Repr

inductive Direction
  | kIn | kOut
  deriving DecidableEq, Repr

structure Slot where
  ctx : EventCtx
  direction : Direction
  expireTimeMs : Option ℤ
  deriving DecidableEq, Repr

end EventsDriver

open EventsDriver (Slot Direction)

abbrev EventsDriver := ℤ → Option Slot

namespace EventsDriver

def empty : EventsDriver := fun _ => none

def regEventDel (d : EventsDriver) (fd : ℤ) : EventsDriver := Function.update d fd none

def regEventAdd (d : EventsDriver) (ok : Bool) (fd : ℤ) (direction : Direction) (ctx : EventCtx)
    (timeoMs now : ℤ) : Bool × EventsDriver :=
  let timeo := Word.narrow timeoMs
  if ok then
    (true, Function.update d fd
      (some ⟨ctx, direction, if 0 ≤ timeo then some (now + timeo) else none⟩))
  else (false, d.regEventDel fd)

/-- `RegEvent` with `kModEvent`; the context is the one registered before. -/
def regEventMod (d : EventsDriver) (ok : Bool) (fd : ℤ) (direction : Direction) (ctx : EventCtx)
    (timeoMs now : ℤ) : Bool × EventsDriver :=
  let timeo := Word.narrow timeoMs
  let expireTimeMs := if 0 ≤ timeo then some (now + timeo) else (d fd).bind (·.expireTimeMs)
  if ok then (true, Function.update d fd (some ⟨ctx, direction, expireTimeMs⟩))
  else (false, d.regEventDel fd)

@[simp] theorem regEventDel_self (d : EventsDriver) (fd : ℤ) : d.regEventDel fd fd = none := by
  simp [regEventDel]

theorem regEventDel_of_ne (d : EventsDriver) {fd fd' : ℤ} (h : fd' ≠ fd) :
    d.regEventDel fd fd' = d fd' := by
  simp [regEventDel, h]

theorem regEventDel_of_none {d : EventsDriver} {fd : ℤ} (h : d fd = none) :
    d.regEventDel fd = d := by
  unfold regEventDel
  rw [← h, Function.update_eq_self]

end EventsDriver

end Magneto
