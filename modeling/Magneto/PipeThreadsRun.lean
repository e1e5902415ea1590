import Magneto.MPSCFixedPipeRun
import Magneto.PipeThreadsReceiver

/-!
# Runs of a shared pipe

Any order of the accesses of the senders and of the receiver: the pipe is still
a queue of whole messages, the senders do not wait for each other for ever, and
what they have sent is found.
-/

namespace Magneto

open MPSCFixedPipe (sizeAt msgAt isReady)

namespace SenderPc

def writes : SenderPc → Option PipeSlot
  | storeHeader slot | storeSize slot | storeContent slot | setReady slot => some slot
  | _ => none

def Waits (p : SharedPipe) : SenderPc → Prop
  | spin slot _ => some p.paceFrom.ptr ≠ slot.before
  | _ => False

theorem step_sizePipe (pc : SenderPc) (p : SharedPipe) :
    (pc.step p).1.m.sizePipe = p.m.sizePipe := by
  cases pc <;> rw [step]
  case casTo => split_ifs <;> rfl
  case casFrom => split_ifs <;> rfl
  all_goals rfl

theorem Ok.writes {p : SharedPipe} {q : PipeSlots} {pc : SenderPc} {slot : PipeSlot}
    (h : pc.Ok p q) (hw : pc.writes = some slot) :
    slot ∈ q.unpublished ∧ pc.owned = some slot := by
  cases pc with
  | storeHeader x | storeSize x | storeContent x | setReady x =>
    obtain rfl : x = slot := Option.some.inj hw
    exact ⟨h.1, rfl⟩
  | _ => cases hw

end SenderPc

theorem ReceiverPc.step_sizePipe (r : ReceiverPc) (p : SharedPipe) :
    (r.step p).1.m.sizePipe = p.m.sizePipe := by
  cases r <;> rw [step]
  case checkBlank => split_ifs <;> rfl
  all_goals rfl

namespace Senders

variable {fresh : ℕ → UInt8} {p : SharedPipe} {q : PipeSlots} {senders : ℕ → SenderPc}

theorem sendMsg (h : Senders p q senders) (hs : p.Sound fresh q) {i : ℕ}
    (hi : senders i = .idle) (msg : PipeMsg) :
    Senders p q (Function.update senders i (.loadTo msg 2)) :=
  h.look_free hs trivial rfl (by rw [hi]; rfl) (fun _ _ _ _ => by rw [hi]; exact id) fun _ => id

theorem not_waits_of_owned (h : Senders p q senders) (hs : p.Sound fresh q) {slot : PipeSlot}
    {slots : List PipeSlot} (hq : q.unpublished = slot :: slots) {j : ℕ}
    (ho : (senders j).owned = some slot) : senders j ≠ .idle ∧ ¬ (senders j).Waits p := by
  have hok := h.ok j
  have hrest := hs.rest
  rw [hq] at hrest
  cases hpc : senders j with
  | spin x round =>
    rw [hpc] at hok ho
    obtain rfl : x = slot := Option.some.inj ho
    obtain ⟨-, -, hstart, -⟩ := hok
    refine ⟨nofun, fun hwait => hwait ?_⟩
    obtain hfrom | ⟨y, ys, hq', hfrom⟩ := hs.front
    · obtain heq | ⟨-, hbefore⟩ := hrest.1
      · exact absurd (hfrom.trans heq.symm) hstart
      · rw [hfrom, hbefore]
    · rw [hq] at hq'
      cases hq'
      exact absurd hfrom hstart
  | idle =>
    rw [hpc] at ho
    cases ho
  | _ => exact ⟨nofun, id⟩

theorem not_waits_of_publishing {pc : SenderPc} {pace : Pace} (hpub : pc.Publishing pace) :
    pc ≠ .idle ∧ ¬ pc.Waits p := by
  cases pc with
  | measure old | casFrom old size | checkTo old | checkReady old => exact ⟨nofun, id⟩
  | _ => exact hpub.elim

/-- Of the senders at work one can go on. -/
theorem exists_not_waits (h : Senders p q senders) (hs : p.Sound fresh q) {i : ℕ}
    (hi : senders i ≠ .idle) : ∃ j, senders j ≠ .idle ∧ ¬ (senders j).Waits p := by
  by_cases hw : (senders i).Waits p
  swap
  · exact ⟨i, hi, hw⟩
  have hne : q.unpublished ≠ [] := by
    have hok := h.ok i
    cases hpc : senders i with
    | spin slot round =>
      rw [hpc] at hok
      exact List.ne_nil_of_mem hok.1
    | _ =>
      rw [hpc] at hw
      exact hw.elim
  obtain ⟨head, slots, hq⟩ := List.exists_cons_of_ne_nil hne
  obtain hset | ⟨j, ho⟩ := h.attended head (hq ▸ List.mem_cons_self)
  · obtain ⟨j, ho | hpub⟩ := h.active head slots hq hset
    · exact ⟨j, h.not_waits_of_owned hs hq ho⟩
    · exact ⟨j, not_waits_of_publishing hpub⟩
  · exact ⟨j, h.not_waits_of_owned hs hq ho⟩

theorem unpublished_nil (h : Senders p q senders) (hidle : ∀ i, senders i = .idle) :
    q.unpublished = [] := by
  by_contra hne
  obtain ⟨head, slots, hq⟩ := List.exists_cons_of_ne_nil hne
  have hno : ∀ i, ¬ (senders i).owned = some head := fun i ho => by
    rw [hidle i] at ho
    exact nomatch ho
  obtain hset | ⟨i, ho⟩ := h.attended head (hq ▸ List.mem_cons_self)
  · obtain ⟨i, ho | hpub⟩ := h.active head slots hq hset
    · exact hno i ho
    · rw [hidle i] at hpub
      exact hpub
  · exact hno i ho

end Senders

theorem SharedPipe.Sound.from_ne {fresh : ℕ → UInt8} {p : SharedPipe} {q : PipeSlots}
    (h : p.Sound fresh q) (hc : q.consuming = []) (hne : q.published ≠ [])
    (hnil : q.unpublished = []) : p.paceFrom.ptr ≠ 0 ∧ p.paceFrom.ptr ≠ q.cleared.ptr := by
  have hfrom : p.paceFrom = q.reached := by
    obtain hfrom | ⟨x, xs, hq, -⟩ := h.front
    · exact hfrom
    · rw [hnil] at hq
      cases hq
  obtain ⟨slot, slots, hq⟩ := List.exists_cons_of_ne_nil hne
  have htaken := h.taken_of_nil hc
  rw [hq] at htaken
  have hend : ∃ x : PipeSlot, q.reached = x.stop := by
    obtain heq | ⟨x, -, heq⟩ := htaken.2.end_eq
    · exact ⟨slot, heq⟩
    · exact ⟨x, heq⟩
  obtain ⟨x, hx⟩ := hend
  constructor
  · rw [hfrom, hx]
    exact x.stop_ptr_ne
  · obtain hstart | ⟨-, hlt⟩ := h.next_published hc hq
    · have hle := htaken.2.le
      have hto := h.from_le
      have hr := h.round
      have hb := h.behindReceiver
      rw [← hfrom] at hle
      rw [← hstart] at hr hb ⊢
      simp only [Pace.le_def, PipeSlot.stop_round, PipeSlot.stop_ptr] at *
      omega
    · exact Nat.ne_of_lt hlt

namespace PipeThreads

open SharedPipe (Sound)

variable {fresh : ℕ → UInt8} {m : MPSCFixedPipe} {s : PipeThreads}

structure Inv (fresh : ℕ → UInt8) (m : MPSCFixedPipe) (s : PipeThreads) : Prop where
  sizePipe : s.shared.m.sizePipe = m.sizePipe
  holds : ∃ q, s.shared.Sound fresh q ∧ Senders s.shared q s.senders ∧ s.receiver.Ok s.shared q

theorem inv_start {sizePipe maxSizeContent threshold : ℕ} {notifier : Bool}
    (hinit : MPSCFixedPipe.init fresh sizePipe maxSizeContent threshold notifier = some m)
    (hmax : maxSizeContent < 2 ^ 31 - 1)
    (hbehind : ∀ i ≤ sizePipe, isReady (sizeAt m.pipe i) = false) : Inv fresh m (start m) := by
  unfold MPSCFixedPipe.init at hinit
  split_ifs at hinit with hbad
  obtain rfl := Option.some.inj hinit
  have hsize : maxSizeContent + 8 < sizePipe := Nat.lt_of_not_le fun hle => hbad (.inl hle)
  refine ⟨rfl, ⟨⟨0, 0⟩, [], [], ⟨0, 0⟩, []⟩, ?_, ?_, rfl, rfl⟩
  · refine ⟨hsize, hmax, fun i hi => if_neg fun hlt => absurd hlt.2 (Nat.not_lt_of_le hi), hbehind,
      rfl, rfl, rfl, rfl, .inl rfl, Nat.zero_le _, fun heq => (nomatch heq), Nat.zero_le _,
      fun _ hmem => (nomatch hmem), fun i hi _ => if_pos ⟨Nat.zero_le _, hi⟩,
      fun _ hmem => (nomatch hmem), rfl⟩
  · exact ⟨fun _ => trivial, fun _ _ _ _ ho => (nomatch ho), fun _ hmem => (nomatch hmem),
      fun _ _ hq => (nomatch hq), fun _ _ _ ho => (nomatch ho)⟩

theorem Inv.next (h : Inv fresh m s) {l : Label} (hl : s.Enabled l) (ht : s.Timely l) :
    Inv fresh m (s.next l) := by
  obtain ⟨hsize, q, hs, hsenders, hr⟩ := h
  cases l with
  | sendMsg i msg => exact ⟨hsize, q, hs, hsenders.sendMsg hs hl msg, hr⟩
  | sender i =>
    exact ⟨(SenderPc.step_sizePipe _ _).trans hsize, hsenders.step hs hr ht⟩
  | receiveMsg =>
    refine ⟨hsize, q, hs, hsenders, ?_⟩
    obtain hidle | hfound := hl
    · rw [hidle] at hr
      exact hr
    · rw [hfound] at hr
      exact ⟨hr.1, hr.2.1⟩
  | receiver => exact ⟨(ReceiverPc.step_sizePipe _ _).trans hsize, hsenders.receiver hs hr⟩
  | msgConsumed =>
    rw [show s.receiver = .found from hl] at hr
    exact ⟨hsize, hsenders.consume hs hr⟩

/-- The threads share the pipe as a queue: nothing outside the buffer is written, and no byte by
two senders; what was received is what space was reserved for first, byte for byte; of the senders
at work one can go on; and when none is at work a message that was not received is found. -/
structure IsShared (fresh : ℕ → UInt8) (m : MPSCFixedPipe) (s : PipeThreads) : Prop where
  inside : ∀ i, m.sizePipe ≤ i → s.shared.m.pipe i = fresh i
  apart : ∀ i j slot slot', i ≠ j → (s.senders i).writes = some slot →
    (s.senders j).writes = some slot' →
    slot.stop.ptr ≤ slot'.start.ptr ∨ slot'.stop.ptr ≤ slot.start.ptr
  fifo : s.shared.received <+: s.shared.reserved
  next : s.receiver = .found → ∃ msgs, s.shared.reserved = s.shared.received ++
    msgAt s.shared.m.pipe s.shared.paceReceiver.ptr :: msgs
  goesOn : ∀ i, s.senders i ≠ .idle →
    ∃ j, s.senders j ≠ .idle ∧ ¬ (s.senders j).Waits s.shared
  finds : (∀ i, s.senders i = .idle) → s.receiver = .idle →
    s.shared.received ≠ s.shared.reserved →
    ∃ n ≤ 2, (machine.exec s (.receiveMsg :: List.replicate n .receiver)).receiver = .found

theorem exec_found {q : PipeSlots} (hs : s.shared.Sound fresh q) (hc : q.consuming = [])
    (hreceiver : s.shared.paceReceiver = q.cleared) (hne : q.published ≠ [])
    (hnil : q.unpublished = []) :
    ∃ n ≤ 2, (machine.exec s (.receiveMsg :: List.replicate n .receiver)).receiver = .found := by
  obtain ⟨hptr, hneq⟩ := hs.from_ne hc hne hnil
  rw [← hreceiver] at hneq
  by_cases hlt : s.shared.paceReceiver.ptr < s.shared.paceFrom.ptr
  · exact ⟨1, by decide, if_pos hlt⟩
  · refine ⟨2, Nat.le_refl _, ?_⟩
    have hstep : (machine.exec s (.receiveMsg :: List.replicate 1 .receiver)).receiver =
        .checkBlank 2 s.shared.paceFrom.ptr := (if_neg hlt).trans (if_neg hneq)
    change (ReceiverPc.step s.shared
      (machine.exec s (.receiveMsg :: List.replicate 1 .receiver)).receiver).2 = .found
    rw [hstep, ReceiverPc.step]
    -- the test of `tmp_sender_pace_from` after a rewind
    split_ifs
    · rfl
    · rfl

theorem Inv.isShared (h : Inv fresh m s) : IsShared fresh m s := by
  obtain ⟨hsize, q, hs, hsenders, hr⟩ := h
  have horder := hs.order
  refine ⟨fun i hi => hs.outside i (hsize ▸ hi), fun i j slot slot' hij hi hj => ?_,
    ⟨_, horder.symm⟩, fun hfound => ?_, fun i hi => hsenders.exists_not_waits hs hi,
    fun hidle hreceiver hne => ?_⟩
  · obtain ⟨hmem, ho⟩ := (hsenders.ok i).writes hi
    obtain ⟨hmem', ho'⟩ := (hsenders.ok j).writes hj
    exact hs.apart (Sound.mem_all hmem) (Sound.mem_all hmem') fun heq =>
      hij (hsenders.distinct i j slot slot' ho ho' heq)
  · rw [hfound] at hr
    obtain ⟨hc, hreceiver, slot, slots, hq, hstart⟩ := hr
    obtain ⟨hmsg, -, -⟩ := hs.consume hc hreceiver hq hstart
    rw [hmsg, horder, hq]
    exact ⟨_, rfl⟩
  · rw [hreceiver] at hr
    have hnil := hsenders.unpublished_nil hidle
    refine exec_found hs hr.1 hr.2 (fun hq => hne ?_) hnil
    rw [horder, hq, hnil]
    exact (List.append_nil _).symm

/-- Threads that share a pipe which `Init` has set up share it as a queue, whatever the order of
their accesses, if the loads and the compare-and-swaps are timely and the memory behind the buffer,
into which `IsReady_` may look, is not like a message. -/
theorem exec_isShared {sizePipe maxSizeContent threshold : ℕ} {notifier : Bool}
    (hinit : MPSCFixedPipe.init fresh sizePipe maxSizeContent threshold notifier = some m)
    (hmax : maxSizeContent < 2 ^ 31 - 1)
    (hbehind : ∀ i ≤ sizePipe, isReady (sizeAt m.pipe i) = false) {ls : List Label}
    (hls : (machine.guarded Timely).Admits (start m) ls) :
    IsShared fresh m (machine.exec (start m) ls) :=
  (machine.guarded Timely).invariant (fun _ _ h hl => Inv.next h hl.1 hl.2)
    (inv_start hinit hmax hbehind) hls |>.isShared

def twoSendersRun : List Label :=
  [.sendMsg 0 ⟨1, [5, 6]⟩, .sendMsg 1 ⟨0, [7]⟩, .sender 0, .sender 1] ++
    List.replicate 2 (.sender 0) ++ List.replicate 10 (.sender 1) ++
    List.replicate 12 (.sender 0) ++
    [.receiveMsg, .receiver, .msgConsumed, .receiver, .receiveMsg, .receiver]

theorem exec_isShared_twoSendersRun :
    (machine.exec (start PipeRun.shortPipe) twoSendersRun).receiver = .found ∧
      (machine.exec (start PipeRun.shortPipe) twoSendersRun).shared.received = [⟨1, [5, 6]⟩] ∧
      IsShared (fun _ => 0) PipeRun.shortPipe
        (machine.exec (start PipeRun.shortPipe) twoSendersRun) := by
  have hinit : MPSCFixedPipe.init (fun _ => 0) 40 16 3 true = some PipeRun.shortPipe := rfl
  exact ⟨by decide +kernel, by decide +kernel,
    exec_isShared hinit (by decide) (by decide +kernel) (by decide +kernel)⟩

/-- The second message is written between the two stores of `MsgConsumed`, which then blanks it. -/
def blankedRun : List Label :=
  [.sendMsg 0 ⟨1, List.replicate 16 1⟩] ++ List.replicate 11 (.sender 0) ++
    [.receiveMsg, .receiver, .msgConsumed, .sendMsg 0 ⟨1, List.replicate 9 2⟩] ++
    List.replicate 7 (.sender 0) ++ [.receiver] ++ List.replicate 4 (.sender 0) ++
    [.receiveMsg, .receiver, .receiver, .receiver]

/-- A load of the receiver's pace that is not timely loses a message. -/
example : machine.Admits (start PipeRun.shortPipe) blankedRun ∧
    (machine.exec (start PipeRun.shortPipe) blankedRun).senders 0 = .idle ∧
    (machine.exec (start PipeRun.shortPipe) blankedRun).receiver = .idle ∧
    (machine.exec (start PipeRun.shortPipe) blankedRun).shared.reserved.length = 2 ∧
    (machine.exec (start PipeRun.shortPipe) blankedRun).shared.received.length = 1 := by
  decide +kernel

end PipeThreads

end Magneto
