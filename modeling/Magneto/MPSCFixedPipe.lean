import Magneto.Lib.Cells
import Magneto.Lib.Word
import Magneto.Lib.Machine

/-!
# The pipe of a mailbox

`MPSCFixedPipe` with a `bool` as message header, over the bytes of its buffer. A
pointer is its offset from `pipe_`, and a pace is a pointer with a version. The
calls of several senders and of the receiver come one after another. `Notify` is
recorded and not modelled; a sender that waits for `sender_pace_from_` to move
when no one else can move it has no result.
-/

namespace Magneto

open Cells (write read fill)

structure PipeMsg where
  header : UInt8
  content : List UInt8
  deriving DecidableEq, Repr

structure MPSCFixedPipe where
  sizePipe : ℕ
  maxSizeContent : ℕ
  thresholdSenderNotify : ℕ
  pipe : ℕ → UInt8
  receiverPace : ℕ
  senderPaceFrom : ℕ × ℕ
  senderPaceTo : ℕ × ℕ

namespace MPSCFixedPipe

def kMsgOffset : ℕ := 8

def kMaskNotWriting : ℕ := 2 ^ 31

def kNumVersions : ℕ := 2 ^ 16

/-- `uint32_t(-1)` -/
def kBlank : ℕ := 2 ^ 32 - 1

/-- `fresh` is what the allocated buffer, and the memory around it, hold. -/
def init (fresh : ℕ → UInt8) (sizePipe maxSizeContent thresholdSenderNotify : ℕ)
    (notifier : Bool) : Option MPSCFixedPipe :=
  if sizePipe ≤ maxSizeContent + kMsgOffset ∨ thresholdSenderNotify ≠ 0 ∧ notifier = false then
    none
  else some ⟨sizePipe, maxSizeContent, thresholdSenderNotify, fill fresh 0 sizePipe 255, 0,
    (0, 0), (0, 0)⟩

def sizeAt (mem : ℕ → UInt8) (msg : ℕ) : ℕ := Word.leNat (read mem (msg + 4) 4)

def setSize (mem : ℕ → UInt8) (msg size : ℕ) : ℕ → UInt8 :=
  write mem (msg + 4) (Word.leBytes 4 size)

def isReady (size : ℕ) : Bool := size ≠ kBlank && size &&& kMaskNotWriting ≠ 0

def getMsgSize (mem : ℕ → UInt8) (msg : ℕ) : ℕ :=
  if sizeAt mem msg ≠ kBlank then kMsgOffset + (sizeAt mem msg &&& (kMaskNotWriting - 1))
  else kBlank

def msgAt (mem : ℕ → UInt8) (msg : ℕ) : PipeMsg :=
  ⟨mem msg, read mem (msg + kMsgOffset) (sizeAt mem msg &&& (kMaskNotWriting - 1))⟩

def sizeSpace (m : MPSCFixedPipe) : ℕ :=
  if m.senderPaceTo.1 < m.receiverPace then m.receiverPace - m.senderPaceTo.1
  else m.receiverPace + m.sizePipe - m.senderPaceTo.1

/-- `CASSenderPaceTo_`, which no other sender makes fail. -/
def setSenderPaceTo (m : MPSCFixedPipe) (newPace : ℕ) (newVersion : Bool) : MPSCFixedPipe :=
  { m with senderPaceTo :=
      (newPace, if newVersion then (m.senderPaceTo.2 + 1) % kNumVersions else m.senderPaceTo.2) }

/-- The message, `pos_before_rewind` and the pipe. -/
def reserveSpaceForSend (m : MPSCFixedPipe) (sizeContent : ℕ) :
    Option (ℕ × Option ℕ × MPSCFixedPipe) :=
  let pace := m.senderPaceTo.1
  let sizeNeed := kMsgOffset + sizeContent
  if m.maxSizeContent < sizeContent then none
  else if m.receiverPace ≤ pace then
    if pace + sizeNeed ≤ m.sizePipe then
      some (pace, none, m.setSenderPaceTo (pace + sizeNeed) false)
    else if sizeNeed < m.receiverPace then some (0, some pace, m.setSenderPaceTo sizeNeed true)
    else none
  else if pace + sizeNeed < m.receiverPace then
    some (pace, none, m.setSenderPaceTo (pace + sizeNeed) false)
  else none

/-- The end of `JustSendMsg_`: the pace moves over the message at `old`, and on over those that
are ready. -/
def advance : ℕ → MPSCFixedPipe → ℕ × ℕ → MPSCFixedPipe
  | 0, m, _ => m
  | fuel + 1, m, old =>
    let size := getMsgSize m.pipe old.1
    if size = kBlank then m
    else if m.senderPaceFrom ≠ old then m
    else
      let m := { m with senderPaceFrom := (old.1 + size, old.2) }
      if old.1 + size ≠ m.senderPaceTo.1 && isReady (sizeAt m.pipe (old.1 + size)) then
        advance fuel m (old.1 + size, old.2)
      else m

def justSendMsg (m : MPSCFixedPipe) (msg : ℕ) (posBeforeRewind : Option ℕ) :
    Option MPSCFixedPipe :=
  let m := { m with pipe := setSize m.pipe msg (sizeAt m.pipe msg ||| kMaskNotWriting) }
  if m.senderPaceFrom.1 = msg then some (advance m.sizePipe m m.senderPaceFrom)
  else if msg = 0 then
    if posBeforeRewind ≠ some m.senderPaceFrom.1 then none
    else
      let pace := (0, (m.senderPaceFrom.2 + 1) % kNumVersions)
      some (advance m.sizePipe { m with senderPaceFrom := pace } pace)
  else some m

def store (mem : ℕ → UInt8) (msg : ℕ) (m : PipeMsg) : ℕ → UInt8 :=
  write (setSize (write mem msg [m.header]) msg m.content.length) (msg + kMsgOffset) m.content

def sendOnce (m : MPSCFixedPipe) (msg : PipeMsg) : Option (Bool × MPSCFixedPipe) :=
  match m.reserveSpaceForSend msg.content.length with
  | none => some (false, m)
  | some (pos, posBeforeRewind, m) =>
    (justSendMsg { m with pipe := store m.pipe pos msg } pos posBeforeRewind).map (true, ·)

def sendMsg (m : MPSCFixedPipe) (msg : PipeMsg) : Option (Bool × Bool × MPSCFixedPipe) :=
  let notify : Bool := m.thresholdSenderNotify ≠ 0 &&
    m.sizePipe - m.sizeSpace ≤ m.thresholdSenderNotify
  match m.sendOnce msg with
  | some (true, m) => some (true, notify, m)
  | some (false, m) => (m.sendOnce msg).map fun r => (r.1, r.1 && notify, r.2)
  | none => none

/-- `HasTodoMPSCFixedPipeMsg_`, which may rewind the receiver. -/
def hasTodo (m : MPSCFixedPipe) : Bool × MPSCFixedPipe :=
  let pace := m.senderPaceFrom.1
  if m.receiverPace < pace then (true, m)
  else if pace = m.receiverPace then (false, m)
  else if m.sizePipe < m.receiverPace + kMsgOffset ∨ sizeAt m.pipe m.receiverPace = kBlank then
    (pace ≠ 0, { m with receiverPace := 0 })
  else (true, m)

def receiveMsg (m : MPSCFixedPipe) : Option ℕ × MPSCFixedPipe :=
  let r := m.hasTodo
  let r := if r.1 then r else r.2.hasTodo
  (if r.1 then some r.2.receiverPace else none, r.2)

def msgConsumed (m : MPSCFixedPipe) : MPSCFixedPipe :=
  let pace := m.receiverPace + getMsgSize m.pipe m.receiverPace
  { m with receiverPace := pace, pipe := fill m.pipe m.receiverPace pace 255 }

end MPSCFixedPipe

end Magneto
