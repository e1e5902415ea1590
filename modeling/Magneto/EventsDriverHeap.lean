import Magneto.EventsDriver
import Magneto.Heap

/-!
# The tables of the events driver

`EventsDriver` as it is stored: the heap of expiry times, the vector of contexts
indexed by descriptor, and the interest list the kernel keeps for the epoll
descriptor. `EPOLL_CTL_ADD` fails on a listed descriptor, the two others on one
that is not listed; the kernel may refuse the first two for reasons of its own.

The clock is a variable shared by the threads, so every test of
`RemoveTimeouts` has its own reading of it.
-/

namespace Magneto

namespace EventsDriver

structure EventTimeo where
  expireTimeMs : ℤ
  fd : ℕ
  deriving DecidableEq, Repr

/-- An entry of `fd_to_event_ctx_`; a sign of 0 is no timer. -/
structure CtxEntry (Context : Type*) where
  context : Option Context
  signTimeo : Option ℕ
  deriving DecidableEq, Repr

inductive RegOp
  | kAddEvent | kModEvent | kDelEvent
  deriving DecidableEq, Repr

structure Tables (Context : Type*) where
  epoll : ℕ → Option Direction
  heapTimeo : HeapBase EventTimeo
  fdToEventCtx : ℕ → CtxEntry Context
  sizeCtx : ℕ

namespace Tables

variable {Context : Type*}

def init (fresh : ℕ → HeapItem EventTimeo) : Tables Context :=
  ⟨fun _ => none, .init fresh HeapBase.DefaultSizeHeap, fun _ => ⟨none, none⟩, 0⟩

def setContext (d : Tables Context) (fd : ℕ) (context : Option Context) : Tables Context :=
  { d with fdToEventCtx :=
      Function.update d.fdToEventCtx fd ⟨context, (d.fdToEventCtx fd).signTimeo⟩ }

def setSign (d : Tables Context) (fd : ℕ) (sign : Option ℕ) : Tables Context :=
  { d with fdToEventCtx :=
      Function.update d.fdToEventCtx fd ⟨(d.fdToEventCtx fd).context, sign⟩ }

def resize (d : Tables Context) (fd : ℕ) : Tables Context :=
  if d.sizeCtx ≤ fd then
    { d with
      fdToEventCtx := fun i =>
        if d.sizeCtx ≤ i ∧ i ≤ fd then ⟨none, none⟩ else d.fdToEventCtx i
      sizeCtx := fd + 1 }
  else d

def insertTimer (d : Tables Context) (fd : ℕ) (expireTimeMs : ℤ) : Tables Context :=
  let r := d.heapTimeo.insert EventTimeo.expireTimeMs ⟨expireTimeMs, fd⟩
  { d with heapTimeo := r.1 }.setSign fd (some r.2)

def eraseTimer (d : Tables Context) (fd : ℕ) : Tables Context :=
  match (d.fdToEventCtx fd).signTimeo with
  | some sign =>
    { d with heapTimeo := d.heapTimeo.erase EventTimeo.expireTimeMs sign }.setSign fd none
  | none => d

def regEventDel (d : Tables Context) (fd : ℕ) : Bool × Tables Context :=
  let d := d.eraseTimer fd
  if (d.epoll fd).isSome then
    (true, { d with epoll := Function.update d.epoll fd none }.setContext fd none)
  else (false, d)

def addTimer (d : Tables Context) (fd : ℕ) (context : Context) (timeoMs now : ℤ) :
    Tables Context :=
  let d := d.setContext fd (some context)
  if 0 ≤ timeoMs then d.insertTimer fd (now + timeoMs) else d.setSign fd none

def modTimer (d : Tables Context) (fd : ℕ) (timeoMs now : ℤ) : Tables Context :=
  if 0 ≤ timeoMs then
    match (d.fdToEventCtx fd).signTimeo with
    | some sign =>
      { d with
        heapTimeo :=
          d.heapTimeo.update EventTimeo.expireTimeMs sign ⟨now + timeoMs, fd⟩ }
    | none => d.insertTimer fd (now + timeoMs)
  else d

/-- `RegEvent`. On `kDelEvent` a `RegEventDel` that returns true counts as a failure. -/
def regEvent (d : Tables Context) (fd : ℕ) (op : RegOp) (direction : Direction)
    (context : Context) (timeoMs now : ℤ) (refused : Bool) : Bool × Tables Context :=
  let d := d.resize fd
  match op with
  | .kAddEvent =>
    let d := d.addTimer fd context timeoMs now
    if (d.epoll fd).isNone && !refused then
      (true, { d with epoll := Function.update d.epoll fd (some direction) })
    else (false, (d.regEventDel fd).2)
  | .kModEvent =>
    let d := d.modTimer fd timeoMs now
    if (d.epoll fd).isSome && !refused then
      (true, { d with epoll := Function.update d.epoll fd (some direction) })
    else (false, (d.regEventDel fd).2)
  | .kDelEvent =>
    let r := d.regEventDel fd
    if r.1 then (false, (r.2.regEventDel fd).2)
    else (true, r.2.setContext fd none)

def checkReadyEvent (d : Tables Context) (fd : ℕ) : Option Context :=
  (d.fdToEventCtx fd).context

/-- `RemoveTimeouts`, with the readings of the clock; there is no result when it still runs after
the last reading. -/
def removeTimeouts (d : Tables Context) : List ℤ → Option (List Context × Tables Context)
  | [] => match d.heapTimeo.top with
    | none => some ([], d)
    | some _ => none
  | now :: nows => match d.heapTimeo.top with
    | none => some ([], d)
    | some timeo =>
      if timeo.expireTimeMs < now then
        ((d.regEventDel timeo.fd).2.removeTimeouts nows).map fun r =>
          ((d.fdToEventCtx timeo.fd).context.toList ++ r.1, r.2)
      else some ([], d)

def timeToWait (d : Tables Context) (timeoMs now : ℤ) : ℤ :=
  match d.heapTimeo.top with
  | none => timeoMs
  | some timeo => max 0 (min (timeo.expireTimeMs - now) timeoMs)

/-- What `Wait` passes to `epoll_wait`, which takes an `int`; a negative one sleeps for ever. -/
def epollTimeout (d : Tables Context) (timeoMs now : ℤ) : ℤ :=
  Word.narrow (d.timeToWait timeoMs now)

end Tables

end EventsDriver

end Magneto
