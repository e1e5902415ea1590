import Magneto.MPSCFixedPipeOps

/-!
# Runs of the pipe

Any run of calls is a queue: what was received is what was accepted, in order
and byte for byte. The receiver consumes a message only after it has found it;
senders come between.
-/

namespace Magneto

inductive PipeCall
  | send (msg : PipeMsg)
  | receive
  | consumed
  deriving DecidableEq, Repr

structure PipeRun where
  pipe : MPSCFixedPipe
  accepted : List PipeMsg
  received : List PipeMsg
  found : Bool
  stuck : Bool

namespace PipeRun

open MPSCFixedPipe (msgAt Sound)

def start (pipe : MPSCFixedPipe) : PipeRun := ⟨pipe, [], [], false, false⟩

def next (s : PipeRun) : PipeCall → PipeRun
  | .send msg => match s.pipe.sendMsg msg with
    | some (ok, _, pipe) =>
      { s with pipe := pipe, accepted := if ok then s.accepted ++ [msg] else s.accepted }
    | none => { s with stuck := true }
  | .receive =>
    { s with pipe := s.pipe.receiveMsg.2, found := s.pipe.receiveMsg.1.isSome }
  | .consumed =>
    { s with
      pipe := s.pipe.msgConsumed
      received := s.received ++ [msgAt s.pipe.pipe s.pipe.receiverPace]
      found := false }

def Enabled (s : PipeRun) : PipeCall → Prop
  | .consumed => s.found = true
  | _ => True

instance (s : PipeRun) : ∀ l : PipeCall, Decidable (s.Enabled l)
  | .send _ => inferInstanceAs (Decidable True)
  | .receive => inferInstanceAs (Decidable True)
  | .consumed => inferInstanceAs (Decidable (s.found = true))

def machine : Machine PipeRun PipeCall where
  enabled := Enabled
  next := next

instance (s : PipeRun) (l : PipeCall) : Decidable (machine.enabled s l) :=
  inferInstanceAs (Decidable (s.Enabled l))

variable {fresh : ℕ → UInt8} {m : MPSCFixedPipe} {s : PipeRun}

structure Inv (fresh : ℕ → UInt8) (m : MPSCFixedPipe) (s : PipeRun) : Prop where
  running : s.stuck = false
  sizePipe : s.pipe.sizePipe = m.sizePipe
  maxSizeContent : s.pipe.maxSizeContent = m.maxSizeContent
  threshold : s.pipe.thresholdSenderNotify = m.thresholdSenderNotify
  holds : ∃ front back, s.pipe.Sound fresh front back ∧
    s.accepted = s.received ++ (front ++ back) ∧ (s.found = true → front ≠ [])

theorem inv_start (h : m.Sound fresh [] []) : Inv fresh m (start m) :=
  ⟨rfl, rfl, rfl, rfl, [], [], h, rfl, (nomatch ·)⟩

theorem Inv.found (h : Inv fresh m s) (hf : s.found = true) :
    ∃ msg rest back, s.pipe.Sound fresh (msg :: rest) back ∧
      s.accepted = s.received ++ msg :: (rest ++ back) ∧
        msgAt s.pipe.pipe s.pipe.receiverPace = msg := by
  obtain ⟨front, back, hsound, hacc, hfound⟩ := h.holds
  obtain ⟨msg, rest, rfl⟩ := List.exists_cons_of_ne_nil (hfound hf)
  exact ⟨msg, rest, back, hsound, hacc, hsound.msgConsumed.2⟩

theorem Inv.next (h : Inv fresh m s) {l : PipeCall} (hl : s.Enabled l) :
    Inv fresh m (s.next l) := by
  obtain ⟨front, back, hsound, hacc, hfound⟩ := h.holds
  cases l with
  | send msg =>
    obtain ⟨hno, -⟩ | ⟨-, notify, p, v, front', back', hyes, -, hsound', happ, hfront⟩ :=
      hsound.sendMsg msg
    · have hsame : s.next (.send msg) = s := by
        unfold PipeRun.next
        dsimp only
        rw [hno]
        rfl
      rwa [hsame]
    · have hnext : s.next (.send msg) = { s with
          pipe := s.pipe.pushed p v msg
          accepted := s.accepted ++ [msg] } := by
        unfold PipeRun.next
        dsimp only
        rw [hyes]
        rfl
      rw [hnext]
      refine ⟨h.running, h.sizePipe, h.maxSizeContent, h.threshold, front', back', hsound', ?_,
        fun hf => hfront (hfound hf)⟩
      rw [hacc, happ, List.append_assoc]
  | receive =>
    obtain ⟨hempty, hno⟩ | ⟨m', msg, rest, back', hyes, hsound', happ, hsame⟩ := hsound.receiveMsg
    · have hnext : s.next .receive = { s with found := false } := by
        unfold PipeRun.next
        dsimp only
        rw [hno]
        rfl
      rw [hnext]
      exact ⟨h.running, h.sizePipe, h.maxSizeContent, h.threshold, front, back, hsound, hacc,
        (nomatch ·)⟩
    · have hnext : s.next .receive = { s with pipe := m', found := true } := by
        unfold PipeRun.next
        dsimp only
        rw [hyes]
        rfl
      rw [hnext]
      refine ⟨h.running, ?_, ?_, ?_, msg :: rest, back', hsound', ?_, fun _ => List.cons_ne_nil _ _⟩
      · rw [hsame]
        exact h.sizePipe
      · rw [hsame]
        exact h.maxSizeContent
      · rw [hsame]
        exact h.threshold
      · rw [happ]
        exact hacc
  | consumed =>
    obtain ⟨msg, rest, back, hsound, hacc, hmsg⟩ := h.found hl
    have hsound' := hsound.msgConsumed.1
    refine ⟨h.running, h.sizePipe, h.maxSizeContent, h.threshold, rest, back, hsound', ?_,
      (nomatch ·)⟩
    change s.accepted = s.received ++ [msgAt s.pipe.pipe s.pipe.receiverPace] ++ (rest ++ back)
    rw [hmsg, hacc]
    simp

/-- The pipe is a queue: no sender waits for ever, nothing outside the buffer is written, what was
received is what was accepted first, and the next message to be found is the next accepted one. A
message is taken if twice its size is free, only if it is not too long, and with a notification if
the pipe was empty. -/
structure IsQueue (fresh : ℕ → UInt8) (m : MPSCFixedPipe) (s : PipeRun) : Prop where
  running : s.stuck = false
  inside : ∀ i, m.sizePipe ≤ i → s.pipe.pipe i = fresh i
  fifo : s.received <+: s.accepted
  next : s.pipe.receiveMsg.1.map (msgAt s.pipe.receiveMsg.2.pipe) =
    (s.accepted.drop s.received.length).head?
  send : ∀ msg : PipeMsg, ∃ ok notify m', s.pipe.sendMsg msg = some (ok, notify, m') ∧
    (ok = true → msg.content.length ≤ m.maxSizeContent) ∧
    (msg.content.length ≤ m.maxSizeContent →
      2 * (8 + msg.content.length) ≤ s.pipe.sizeSpace → ok = true) ∧
    (ok = true → s.accepted = s.received → m.thresholdSenderNotify ≠ 0 → notify = true)

theorem Inv.isQueue (h : Inv fresh m s) : IsQueue fresh m s := by
  obtain ⟨front, back, hsound, hacc, -⟩ := h.holds
  refine ⟨h.running, fun i hi => hsound.outside i (by rwa [h.sizePipe]),
    ⟨front ++ back, hacc.symm⟩, ?_, fun msg => ?_⟩
  · rw [hacc, List.drop_left]
    obtain ⟨hempty, hno⟩ | ⟨m', msg, rest, back', hyes, hsound', happ, -⟩ := hsound.receiveMsg
    · rw [hno, hempty]
      rfl
    · rw [hyes, ← happ]
      exact congrArg some hsound'.msgConsumed.2
  · obtain ⟨hno, hwhy⟩ | ⟨hn, notify, p, v, front', back', hyes, hnotify, -⟩ := hsound.sendMsg msg
    · refine ⟨false, false, s.pipe, hno, (nomatch ·), fun hn hspace => ?_, (nomatch ·)⟩
      rw [← h.maxSizeContent] at hn
      omega
    · refine ⟨true, notify, _, hyes, fun _ => h.maxSizeContent ▸ hn, fun _ _ => rfl,
        fun _ hall hthr => hnotify ?_ (h.threshold ▸ hthr)⟩
      rw [hacc] at hall
      exact List.append_right_eq_self.mp hall

/-- Every run of a pipe that `Init` has set up is a queue. -/
theorem exec_isQueue {sizePipe maxSizeContent threshold : ℕ} {notifier : Bool}
    (hinit : MPSCFixedPipe.init fresh sizePipe maxSizeContent threshold notifier = some m)
    (hmax : maxSizeContent < 2 ^ 31 - 1) {ls : List PipeCall}
    (hls : machine.Admits (start m) ls) :
    IsQueue fresh m (machine.exec (start m) ls) :=
  (machine.invariant (fun _ _ h hl => h.next hl)
    (inv_start (MPSCFixedPipe.sound_init hinit hmax)) hls).isQueue

def shortPipe : MPSCFixedPipe :=
  ⟨40, 16, 3, Cells.fill (fun _ => 0) 0 40 255, 0, (0, 0), (0, 0)⟩

/-- The third message goes to the start of the buffer, and the receiver follows it there. -/
def rewoundRun : List PipeCall :=
  [.send ⟨1, [1, 2, 3, 4, 5, 6, 7, 8, 9]⟩, .send ⟨1, [10, 11, 12, 13, 14, 15, 16, 17]⟩, .receive,
    .consumed, .send ⟨1, [255, 255, 255, 255]⟩, .receive, .consumed, .receive]

theorem exec_isQueue_rewoundRun :
    (machine.exec (start shortPipe) rewoundRun).pipe.receiverPace = 0 ∧
      (machine.exec (start shortPipe) rewoundRun).received.length = 2 ∧
      IsQueue (fun _ => 0) shortPipe (machine.exec (start shortPipe) rewoundRun) := by
  have hinit : MPSCFixedPipe.init (fun _ => 0) 40 16 3 true = some shortPipe := rfl
  exact ⟨by decide +kernel, by decide +kernel, exec_isQueue hinit (by decide) (by decide +kernel)⟩

end PipeRun

end Magneto
