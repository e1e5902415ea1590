import Magneto.MPSCFixedPipe

/-!
# Several senders at once

`SendMsg`, `ReceiveMsg` and `MsgConsumed` one access of the shared fields after
another, so that the accesses of the senders and of the receiver come in any
order. `memcpy` and `memset` are one access. Rounds of the buffer are counted
beside the paces; what the code keeps of them is the version.
-/

namespace Magneto

open Cells (write fill)
open MPSCFixedPipe (sizeAt setSize getMsgSize msgAt isReady kBlank kMsgOffset kMaskNotWriting
  kNumVersions)

structure Pace where
  ptr : ℕ
  round : ℕ
  deriving DecidableEq, Repr

def Pace.packed (p : Pace) : ℕ × ℕ := (p.ptr, p.round % kNumVersions)

/-- Space that a sender has reserved; `before` is its `pos_before_rewind`. -/
structure PipeSlot where
  start : Pace
  before : Option ℕ
  msg : PipeMsg
  deriving DecidableEq, Repr

def PipeSlot.stop (slot : PipeSlot) : Pace :=
  ⟨slot.start.ptr + (kMsgOffset + slot.msg.content.length), slot.start.round⟩

/-- What all threads share, and the history of the messages for which space was reserved and of
those that were received. -/
structure SharedPipe where
  m : MPSCFixedPipe
  roundFrom : ℕ
  roundTo : ℕ
  roundReceiver : ℕ
  reserved : List PipeMsg
  received : List PipeMsg

inductive SenderPc
  | idle
  | loadTo (msg : PipeMsg) (tries : ℕ)
  | loadReceiver (msg : PipeMsg) (tries : ℕ) (pace : Pace)
  | casTo (msg : PipeMsg) (tries : ℕ) (pace : Pace) (slot : PipeSlot)
  | storeHeader (slot : PipeSlot)
  | storeSize (slot : PipeSlot)
  | storeContent (slot : PipeSlot)
  | setReady (slot : PipeSlot)
  | loadFrom (slot : PipeSlot)
  | spin (slot : PipeSlot) (round : ℕ)
  | rewind (slot : PipeSlot) (round : ℕ)
  | measure (old : Pace)
  | casFrom (old : Pace) (size : ℕ)
  | checkTo (pace : Pace)
  | checkReady (pace : Pace)
  deriving DecidableEq, Repr

inductive ReceiverPc
  | idle
  | loadFrom (tries : ℕ)
  | checkBlank (tries : ℕ) (senderPace : ℕ)
  | found
  | setBlank (orig : ℕ)
  deriving DecidableEq, Repr

namespace SharedPipe

def paceFrom (p : SharedPipe) : Pace := ⟨p.m.senderPaceFrom.1, p.roundFrom⟩

def paceTo (p : SharedPipe) : Pace := ⟨p.m.senderPaceTo.1, p.roundTo⟩

def paceReceiver (p : SharedPipe) : Pace := ⟨p.m.receiverPace, p.roundReceiver⟩

def setPipe (p : SharedPipe) (pipe : ℕ → UInt8) : SharedPipe := { p with m := { p.m with pipe } }

def setPaceFrom (p : SharedPipe) (pace : Pace) : SharedPipe :=
  { p with m := { p.m with senderPaceFrom := pace.packed }, roundFrom := pace.round }

def setPaceReceiver (p : SharedPipe) (pace : Pace) : SharedPipe :=
  { p with m := { p.m with receiverPace := pace.ptr }, roundReceiver := pace.round }

def space (p : SharedPipe) (pace : Pace) (msg : PipeMsg) : Option PipeSlot :=
  (MPSCFixedPipe.reserveSpaceForSend { p.m with senderPaceTo := pace.packed }
    msg.content.length).map fun r =>
      ⟨⟨r.1, if r.2.1.isSome then pace.round + 1 else pace.round⟩, r.2.1, msg⟩

def reserve (p : SharedPipe) (slot : PipeSlot) : SharedPipe :=
  { p with
    m := p.m.setSenderPaceTo slot.stop.ptr slot.before.isSome
    roundTo := slot.start.round
    reserved := p.reserved ++ [slot.msg] }

end SharedPipe

namespace SenderPc

/-- `SendMsg` makes two attempts. -/
def retry (msg : PipeMsg) (tries : ℕ) : SenderPc :=
  if 1 < tries then loadTo msg (tries - 1) else idle

def step (p : SharedPipe) : SenderPc → SharedPipe × SenderPc
  | idle => (p, idle)
  | loadTo msg tries => (p, loadReceiver msg tries p.paceTo)
  | loadReceiver msg tries pace =>
    (p, (p.space pace msg).elim (retry msg tries) (casTo msg tries pace))
  | casTo msg tries pace slot =>
    if p.m.senderPaceTo = pace.packed then (p.reserve slot, storeHeader slot)
    else (p, retry msg tries)
  | storeHeader slot =>
    (p.setPipe (write p.m.pipe slot.start.ptr [slot.msg.header]), storeSize slot)
  | storeSize slot =>
    (p.setPipe (setSize p.m.pipe slot.start.ptr slot.msg.content.length), storeContent slot)
  | storeContent slot =>
    (p.setPipe (write p.m.pipe (slot.start.ptr + kMsgOffset) slot.msg.content), setReady slot)
  | setReady slot =>
    (p.setPipe (setSize p.m.pipe slot.start.ptr
      (sizeAt p.m.pipe slot.start.ptr ||| kMaskNotWriting)), loadFrom slot)
  | loadFrom slot =>
    (p, if p.paceFrom.ptr = slot.start.ptr then measure p.paceFrom
      else if slot.start.ptr = 0 then spin slot p.paceFrom.round
      else idle)
  | spin slot round =>
    (p, if some p.paceFrom.ptr = slot.before then rewind slot round else spin slot round)
  | rewind _ round => (p.setPaceFrom ⟨0, round + 1⟩, measure ⟨0, round + 1⟩)
  | measure old =>
    (p, if getMsgSize p.m.pipe old.ptr = kBlank then idle
      else casFrom old (getMsgSize p.m.pipe old.ptr))
  | casFrom old size =>
    if p.m.senderPaceFrom = old.packed then
      (p.setPaceFrom ⟨old.ptr + size, old.round⟩, checkTo ⟨old.ptr + size, old.round⟩)
    else (p, idle)
  | checkTo pace => (p, if pace.ptr ≠ p.paceTo.ptr then checkReady pace else idle)
  | checkReady pace =>
    (p, if isReady (sizeAt p.m.pipe pace.ptr) then measure pace else idle)

end SenderPc

namespace ReceiverPc

def miss (tries : ℕ) : ReceiverPc := if 1 < tries then loadFrom (tries - 1) else idle

def step (p : SharedPipe) : ReceiverPc → SharedPipe × ReceiverPc
  | idle => (p, idle)
  | loadFrom tries =>
    (p, if p.paceReceiver.ptr < p.paceFrom.ptr then found
      else if p.paceFrom.ptr = p.paceReceiver.ptr then miss tries
      else checkBlank tries p.paceFrom.ptr)
  | checkBlank tries senderPace =>
    if p.m.sizePipe < p.paceReceiver.ptr + kMsgOffset ∨
        sizeAt p.m.pipe p.paceReceiver.ptr = kBlank then
      (p.setPaceReceiver ⟨0, p.roundReceiver + 1⟩, if senderPace ≠ 0 then found else miss tries)
    else (p, found)
  | found => (p, found)
  | setBlank orig => (p.setPipe (fill p.m.pipe orig p.paceReceiver.ptr 255), idle)

/-- `MsgConsumed` after the message was read: its first store. -/
def consume (p : SharedPipe) : SharedPipe × ReceiverPc :=
  ({ p.setPaceReceiver ⟨p.paceReceiver.ptr + getMsgSize p.m.pipe p.paceReceiver.ptr,
      p.roundReceiver⟩ with
    received := p.received ++ [msgAt p.m.pipe p.paceReceiver.ptr] }, setBlank p.paceReceiver.ptr)

def blanks : ReceiverPc → Bool
  | setBlank _ => true
  | _ => false

end ReceiverPc

/-- No sender loads the receiver's pace between the two stores of `MsgConsumed`, none loads
`sender_pace_from_` after it has come to a later round than the sender's own message, and none
makes a compare-and-swap with a pace that is as many rounds old as there are versions. -/
def SenderPc.Timely (p : SharedPipe) (receiver : ReceiverPc) : SenderPc → Prop
  | loadReceiver _ _ _ => receiver.blanks = false
  | loadFrom slot => p.roundFrom ≤ slot.start.round
  | casTo _ _ pace _ => p.roundTo < pace.round + kNumVersions
  | casFrom old _ => p.roundFrom < old.round + kNumVersions
  | _ => True

instance (p : SharedPipe) (receiver : ReceiverPc) :
    ∀ pc : SenderPc, Decidable (pc.Timely p receiver)
  | .loadReceiver _ _ _ => inferInstanceAs (Decidable (receiver.blanks = false))
  | .loadFrom slot => inferInstanceAs (Decidable (p.roundFrom ≤ slot.start.round))
  | .casTo _ _ pace _ => inferInstanceAs (Decidable (p.roundTo < pace.round + kNumVersions))
  | .casFrom old _ => inferInstanceAs (Decidable (p.roundFrom < old.round + kNumVersions))
  | .idle | .loadTo _ _ | .storeHeader _ | .storeSize _ | .storeContent _ | .setReady _
  | .spin _ _ | .rewind _ _ | .measure _ | .checkTo _ | .checkReady _ =>
    inferInstanceAs (Decidable True)

structure PipeThreads where
  shared : SharedPipe
  senders : ℕ → SenderPc
  receiver : ReceiverPc

namespace PipeThreads

def start (m : MPSCFixedPipe) : PipeThreads :=
  ⟨⟨m, 0, 0, 0, [], []⟩, fun _ => .idle, .idle⟩

inductive Label
  | sendMsg (i : ℕ) (msg : PipeMsg)
  | sender (i : ℕ)
  | receiveMsg
  | receiver
  | msgConsumed
  deriving DecidableEq, Repr

def next (s : PipeThreads) : Label → PipeThreads
  | .sendMsg i msg => { s with senders := Function.update s.senders i (.loadTo msg 2) }
  | .sender i =>
    let r := (s.senders i).step s.shared
    { s with shared := r.1, senders := Function.update s.senders i r.2 }
  | .receiveMsg => { s with receiver := .loadFrom 2 }
  | .receiver =>
    let r := s.receiver.step s.shared
    { s with shared := r.1, receiver := r.2 }
  | .msgConsumed =>
    let r := ReceiverPc.consume s.shared
    { s with shared := r.1, receiver := r.2 }

def Enabled (s : PipeThreads) : Label → Prop
  | .sendMsg i _ => s.senders i = .idle
  | .sender i => s.senders i ≠ .idle
  | .receiveMsg => s.receiver = .idle ∨ s.receiver = .found
  | .receiver => s.receiver ≠ .idle ∧ s.receiver ≠ .found
  | .msgConsumed => s.receiver = .found

instance (s : PipeThreads) : ∀ l : Label, Decidable (s.Enabled l)
  | .sendMsg i _ => inferInstanceAs (Decidable (s.senders i = .idle))
  | .sender i => inferInstanceAs (Decidable (s.senders i ≠ .idle))
  | .receiveMsg => inferInstanceAs (Decidable (s.receiver = .idle ∨ s.receiver = .found))
  | .receiver => inferInstanceAs (Decidable (s.receiver ≠ .idle ∧ s.receiver ≠ .found))
  | .msgConsumed => inferInstanceAs (Decidable (s.receiver = .found))

def machine : Machine PipeThreads Label where
  enabled := Enabled
  next := next

instance (s : PipeThreads) (l : Label) : Decidable (machine.enabled s l) :=
  inferInstanceAs (Decidable (s.Enabled l))

def Timely (s : PipeThreads) : Label → Prop
  | .sender i => (s.senders i).Timely s.shared s.receiver
  | _ => True

instance (s : PipeThreads) : ∀ l : Label, Decidable (s.Timely l)
  | .sendMsg _ _ => inferInstanceAs (Decidable True)
  | .sender i => inferInstanceAs (Decidable ((s.senders i).Timely s.shared s.receiver))
  | .receiveMsg => inferInstanceAs (Decidable True)
  | .receiver => inferInstanceAs (Decidable True)
  | .msgConsumed => inferInstanceAs (Decidable True)

instance (s : PipeThreads) (l : Label) : Decidable ((machine.guarded Timely).enabled s l) :=
  inferInstanceAs (Decidable (s.Enabled l ∧ s.Timely l))

end PipeThreads

end Magneto
