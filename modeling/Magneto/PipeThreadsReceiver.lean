import Magneto.PipeThreadsSteps

/-!
# The receiver of a shared pipe

What the receiver knows, and that the senders do not disturb it, nor it them.
-/

namespace Magneto

open Cells (fill Agree)
open PipeSlot (Chain)
open MPSCFixedPipe (sizeAt msgAt kBlank kMsgOffset)
open SharedPipe (Sound)

namespace ReceiverPc

def Ok (p : SharedPipe) (q : PipeSlots) : ReceiverPc → Prop
  | idle | loadFrom _ => q.consuming = [] ∧ p.paceReceiver = q.cleared
  | checkBlank _ senderPace => q.consuming = [] ∧ p.paceReceiver = q.cleared ∧
      q.cleared.round < p.paceFrom.round ∧ (senderPace ≠ 0 → q.published ≠ [])
  | found => q.consuming = [] ∧ p.paceReceiver = q.cleared ∧
      ∃ slot slots, q.published = slot :: slots ∧ slot.start = q.cleared
  | setBlank orig => ∃ slot, q.consuming = [slot] ∧ orig = slot.start.ptr ∧
      slot.start = q.cleared ∧ p.paceReceiver = slot.stop

variable {p p' : SharedPipe} {q q' : PipeSlots} {r : ReceiverPc}

theorem Ok.keep (h : r.Ok p q) (hreceiver : p'.paceReceiver = p.paceReceiver)
    (hfrom : p.paceFrom ≤ p'.paceFrom) (hcleared : q'.cleared = q.cleared)
    (hconsuming : q'.consuming = q.consuming) {slots : List PipeSlot}
    (hpublished : q'.published = q.published ++ slots) : r.Ok p' q' := by
  cases r with
  | idle => exact ⟨hconsuming ▸ h.1, by rw [hreceiver, hcleared, h.2]⟩
  | loadFrom tries => exact ⟨hconsuming ▸ h.1, by rw [hreceiver, hcleared, h.2]⟩
  | checkBlank tries senderPace =>
    obtain ⟨hc, hr, hround, hne⟩ := h
    refine ⟨hconsuming ▸ hc, by rw [hreceiver, hcleared, hr], ?_, fun hs => ?_⟩
    · rw [Pace.le_def] at hfrom
      rw [hcleared]
      omega
    · rw [hpublished]
      exact List.append_ne_nil_of_left_ne_nil (hne hs) _
  | found =>
    obtain ⟨hc, hr, slot, rest, hq, hstart⟩ := h
    exact ⟨hconsuming ▸ hc, by rw [hreceiver, hcleared, hr], slot, rest ++ slots,
      by rw [hpublished, hq]; rfl, hcleared ▸ hstart⟩
  | setBlank orig =>
    obtain ⟨slot, hc, horig, hstart, hr⟩ := h
    exact ⟨slot, hconsuming ▸ hc, horig, hcleared ▸ hstart, hreceiver.trans hr⟩

theorem miss_ok (hc : q.consuming = []) (hr : p.paceReceiver = q.cleared) (tries : ℕ) :
    (miss tries).Ok p q := by
  unfold miss
  split_ifs <;> exact ⟨hc, hr⟩

end ReceiverPc

namespace Senders

variable {fresh : ℕ → UInt8} {p p' : SharedPipe} {q q' : PipeSlots} {senders : ℕ → SenderPc}
  {i : ℕ} {r : ReceiverPc}

theorem step (h : Senders p q senders) (hs : p.Sound fresh q) (hr : r.Ok p q)
    (ht : (senders i).Timely p r) :
    ∃ q', ((senders i).step p).1.Sound fresh q' ∧
      Senders ((senders i).step p).1 q' (Function.update senders i ((senders i).step p).2) ∧
      r.Ok ((senders i).step p).1 q' := by
  have hsame : ∀ p' : SharedPipe, p'.paceReceiver = p.paceReceiver → p.paceFrom ≤ p'.paceFrom →
      r.Ok p' q := fun p' hreceiver hfrom =>
    hr.keep hreceiver hfrom rfl rfl (List.append_nil _).symm
  cases hpc : senders i with
  | idle =>
    refine ⟨q, hs, ?_, hr⟩
    rwa [SenderPc.step, ← hpc, Function.update_eq_self]
  | loadTo msg tries => exact ⟨q, hs, h.loadTo hs hpc, hr⟩
  | loadReceiver msg tries pace =>
    rw [hpc] at ht
    have hreceiver : p.paceReceiver = q.cleared := by
      cases r with
      | idle => exact hr.2
      | loadFrom tries => exact hr.2
      | checkBlank tries senderPace => exact hr.2.1
      | found => exact hr.2.1
      | setBlank orig => exact nomatch ht
    exact ⟨q, hs, h.loadReceiver hs hpc hreceiver, hr⟩
  | casTo msg tries pace slot =>
    have hok := h.ok i
    rw [hpc] at hok ht
    have hnone : (senders i).owned = none := by rw [hpc]; rfl
    have hnot : ∀ pace, ¬ (senders i).Publishing pace := fun _ => by rw [hpc]; exact id
    rw [SenderPc.step]
    split_ifs with hcas
    · have hpace : pace = p.paceTo :=
        Pace.eq_of_packed (hcas.symm.trans hs.versionTo) hok.1 ht
      have hfits := hok.2 hpace
      rw [hpace] at hfits
      exact ⟨q.reserve slot, hs.reserve hfits, h.reserve hs hnone hnot hfits,
        hr.keep rfl le_rfl rfl rfl (List.append_nil _).symm⟩
    · exact ⟨q, hs, h.fail hs hnone hnot, hr⟩
  | storeHeader slot =>
    obtain ⟨hs', h'⟩ := h.storeHeader hs hpc
    exact ⟨q, hs', h', hsame _ rfl le_rfl⟩
  | storeSize slot =>
    obtain ⟨hs', h'⟩ := h.storeSize hs hpc
    exact ⟨q, hs', h', hsame _ rfl le_rfl⟩
  | storeContent slot =>
    obtain ⟨hs', h'⟩ := h.storeContent hs hpc
    exact ⟨q, hs', h', hsame _ rfl le_rfl⟩
  | setReady slot =>
    obtain ⟨hs', h'⟩ := h.setReady hs hpc
    exact ⟨q, hs', h', hsame _ rfl le_rfl⟩
  | loadFrom slot =>
    rw [hpc] at ht
    exact ⟨q, hs, h.loadFrom hs hpc ht, hr⟩
  | spin slot round => exact ⟨q, hs, h.spin hs hpc, hr⟩
  | rewind slot round =>
    obtain ⟨hs', h', hle⟩ := h.rewind hs hpc
    exact ⟨q, hs', h', hsame _ rfl hle⟩
  | measure old => exact ⟨q, hs, h.measure hs hpc, hr⟩
  | casFrom old size =>
    rw [hpc] at ht
    rw [SenderPc.step]
    split_ifs with hcas
    · obtain ⟨slot, slots, -, hs', h', hle⟩ := h.casFrom hs hpc hcas ht
      exact ⟨_, hs', h', hr.keep rfl hle rfl rfl rfl⟩
    · exact ⟨q, hs, h.casFrom_fail hs hpc hcas, hr⟩
  | checkTo pace => exact ⟨q, hs, h.checkTo hs hpc, hr⟩
  | checkReady pace => exact ⟨q, hs, h.checkReady hs hpc, hr⟩

theorem receive (h : Senders p q senders) (hs : p.Sound fresh q)
    (hsize : p'.m.sizePipe = p.m.sizePipe) (hmax : p'.m.maxSizeContent = p.m.maxSizeContent)
    (hto : p'.paceTo = p.paceTo) (hfrom : p'.paceFrom = p.paceFrom)
    (hcleared : q.cleared ≤ q'.cleared) (hq : q'.unpublished = q.unpublished)
    (hag : ∀ slot ∈ q.unpublished, Agree p.m.pipe p'.m.pipe slot.start.ptr slot.stop.ptr) :
    Senders p' q' senders := by
  have hm : p.Moves q p' q' fun _ => True :=
    ⟨hsize, hmax, le_of_eq hto.symm, le_of_eq hfrom.symm, hcleared,
      fun slot hmem _ => .inl ⟨hq ▸ hmem, fun _ hne => hfrom ▸ hne, hag slot hmem⟩,
      fun _ slot slots hq' hready => ⟨⟨slots, hq ▸ hq'⟩, hready.congr (hag slot (hq' ▸
        List.mem_cons_self))⟩,
      fun _ hne => hq ▸ hne, fun _ _ _ _ _ => hfrom⟩
  refine ⟨fun i => (h.ok i).moves hs hm fun _ _ => trivial, h.distinct, fun slot hmem => ?_,
    fun slot slots hq' hset => ?_, h.zero⟩
  · rw [hq] at hmem
    exact (h.attended slot hmem).imp_left fun hset =>
      ⟨hset.1.congr (hag slot hmem), hset.2.imp_right fun heq => hfrom.trans heq⟩
  · rw [hq] at hq'
    refine h.active slot slots hq' ⟨?_, hset.2.imp_right fun heq => hfrom.symm.trans heq⟩
    exact hset.1.congr (hag slot (hq' ▸ List.mem_cons_self)).symm

end Senders

namespace SharedPipe

/-- The round of the receiver's pace has no more messages; the next one begins with a message that
is published, or with one that is first to be. -/
def Ended (p : SharedPipe) (q : PipeSlots) : Prop :=
  (∃ slot slots, q.published = slot :: slots ∧ slot.start = ⟨0, q.cleared.round + 1⟩) ∨
    q.published = [] ∧ p.paceFrom = ⟨0, q.cleared.round + 1⟩ ∧
      ∃ slot slots, q.unpublished = slot :: slots ∧ slot.start = p.paceFrom

namespace Sound

variable {fresh : ℕ → UInt8} {p : SharedPipe} {q : PipeSlots} {slot : PipeSlot}
  {slots : List PipeSlot}

theorem taken_of_nil (h : p.Sound fresh q) (hc : q.consuming = []) :
    Chain q.cleared q.published q.reached := by
  have htaken := h.taken
  rwa [hc] at htaken

theorem next_published (h : p.Sound fresh q) (hc : q.consuming = [])
    (hq : q.published = slot :: slots) :
    slot.start = q.cleared ∨ slot.start = ⟨0, q.cleared.round + 1⟩ ∧
      p.paceFrom.ptr < q.cleared.ptr := by
  have htaken := h.taken_of_nil hc
  rw [hq] at htaken
  refine htaken.1.imp id fun ⟨heq, _⟩ => ⟨heq, ?_⟩
  have hstop := htaken.2.le.trans h.reached_le
  have hto := h.from_le
  have hr := h.round
  have hb := h.behindReceiver
  have hround : slot.start.round = q.cleared.round + 1 := congrArg Pace.round heq
  simp only [Pace.le_def, PipeSlot.stop_round, PipeSlot.stop_ptr] at *
  omega

theorem from_of_published_nil (h : p.Sound fresh q) (hc : q.consuming = [])
    (hq : q.published = []) :
    p.paceFrom = q.cleared ∨ p.paceFrom = ⟨0, q.cleared.round + 1⟩ ∧
      ∃ slot slots, q.unpublished = slot :: slots ∧ slot.start = p.paceFrom := by
  have htaken := h.taken_of_nil hc
  rw [hq] at htaken
  have hreached : q.cleared = q.reached := htaken
  obtain heq | ⟨slot, slots, hq', heq⟩ := h.front
  · exact .inl (heq.trans hreached.symm)
  · have hrest := h.rest
    rw [hq', ← hreached] at hrest
    obtain hstart | ⟨hstart, -⟩ := hrest.1
    · exact .inl (heq.trans hstart)
    · exact .inr ⟨heq.trans hstart, slot, slots, hq', heq.symm⟩

theorem at_message (h : p.Sound fresh q) (hc : q.consuming = [])
    (hround : q.cleared.round < p.paceFrom.round) :
    (∃ slot slots, q.published = slot :: slots ∧ slot.start = q.cleared) ∨
      (∀ slot ∈ q.all, slot.stop.ptr ≤ q.cleared.ptr) ∧ p.Ended q := by
  have hfree : (∀ slot ∈ q.all, q.cleared.round + 1 ≤ slot.start.round) →
      ∀ slot ∈ q.all, slot.stop.ptr ≤ q.cleared.ptr := by
    intro hall slot hmem
    have hge := hall slot hmem
    have hto := (h.chain.bounds hmem).2
    have hr := h.round
    have hb := h.behindReceiver
    simp only [Pace.le_def, PipeSlot.stop_round, PipeSlot.stop_ptr] at *
    omega
  have hle : ∀ {x : PipeSlot}, (x.start.round = q.cleared.round + 1) →
      (∀ slot ∈ q.all, x.start ≤ slot.start) →
      ∀ slot ∈ q.all, q.cleared.round + 1 ≤ slot.start.round := by
    intro x hx hall slot hmem
    have := hall slot hmem
    rw [Pace.le_def] at this
    omega
  have hfirst : ∀ {x : PipeSlot} {xs}, q.all = x :: xs → ∀ slot ∈ q.all,
      x.start ≤ slot.start := by
    intro x xs hall slot hmem
    have hchain := h.chain
    rw [hall] at hchain hmem
    obtain rfl | hmem := List.mem_cons.mp hmem
    · exact le_rfl
    · exact x.start_le_stop.trans (hchain.2.bounds hmem).1
  cases hq : q.published with
  | cons slot slots =>
    have hall : q.all = slot :: (slots ++ q.unpublished) := by rw [PipeSlots.all, hc, hq]; rfl
    obtain hstart | ⟨hstart, -⟩ := h.next_published hc hq
    · exact .inl ⟨slot, slots, rfl, hstart⟩
    · exact .inr ⟨hfree (hle (congrArg Pace.round hstart) (hfirst hall)),
        .inl ⟨slot, slots, hq, hstart⟩⟩
  | nil =>
    obtain heq | ⟨heq, slot, slots, hq', hstart⟩ := h.from_of_published_nil hc hq
    · rw [heq] at hround
      exact absurd hround (Nat.lt_irrefl _)
    · have hall : q.all = slot :: slots := by rw [PipeSlots.all, hc, hq, hq']; rfl
      exact .inr ⟨hfree (hle (congrArg Pace.round (hstart.trans heq)) (hfirst hall)),
        .inr ⟨hq, heq, slot, slots, hq', hstart⟩⟩

end Sound

end SharedPipe

namespace PipeSlots

def rewound (q : PipeSlots) : PipeSlots :=
  { q with
    cleared := ⟨0, q.cleared.round + 1⟩
    reached := if q.published = [] then ⟨0, q.cleared.round + 1⟩ else q.reached }

def taken (q : PipeSlots) (slot : PipeSlot) (slots : List PipeSlot) : PipeSlots :=
  { q with consuming := [slot], published := slots }

def blanked (q : PipeSlots) (slot : PipeSlot) : PipeSlots :=
  { q with cleared := slot.stop, consuming := [] }

end PipeSlots

namespace SharedPipe.Sound

variable {fresh : ℕ → UInt8} {p : SharedPipe} {q : PipeSlots} {slot : PipeSlot}
  {slots : List PipeSlot}

theorem rewound (h : p.Sound fresh q) (hc : q.consuming = []) (hnext : p.Ended q) :
    (p.setPaceReceiver ⟨0, p.roundReceiver + 1⟩).Sound fresh q.rewound where
  size := h.size
  small := h.small
  outside := h.outside
  behind := h.behind
  versionFrom := h.versionFrom
  versionTo := h.versionTo
  taken := by
    have htaken := h.taken_of_nil hc
    unfold PipeSlots.rewound
    simp only [hc, List.nil_append]
    obtain ⟨slot, slots, hq, hstart⟩ | ⟨hq, -, -⟩ := hnext
    · rw [hq] at htaken ⊢
      exact ⟨.inl hstart, htaken.2⟩
    · rw [hq]
      exact (if_pos rfl).symm
  rest := by
    have hrest := h.rest
    unfold PipeSlots.rewound
    dsimp only
    obtain ⟨slot, slots, hq, -⟩ | ⟨hq, hfrom, slot, slots, hq', hstart⟩ := hnext
    · rwa [hq, if_neg (List.cons_ne_nil _ _)]
    · rw [hq, if_pos rfl, hq']
      rw [hq'] at hrest
      exact ⟨.inl (hstart.trans hfrom), hrest.2⟩
  front := by
    unfold PipeSlots.rewound
    dsimp only
    obtain ⟨slot, slots, hq, -⟩ | ⟨hq, hfrom, -⟩ := hnext
    · rw [hq, if_neg (List.cons_ne_nil _ _)]
      exact h.front
    · rw [hq, if_pos rfl]
      exact .inl hfrom
  round := Nat.le_succ_of_le h.round
  behindReceiver heq := absurd heq (Nat.ne_of_lt (Nat.lt_succ_of_le h.round))
  inside := Nat.zero_le _
  fits := h.fits
  blank := h.blank
  holds := h.holds
  order := h.order

theorem consume (h : p.Sound fresh q) (hc : q.consuming = []) (hr : p.paceReceiver = q.cleared)
    (hq : q.published = slot :: slots) (hstart : slot.start = q.cleared) :
    msgAt p.m.pipe p.paceReceiver.ptr = slot.msg ∧
      (ReceiverPc.consume p).1.paceReceiver = slot.stop ∧
      (ReceiverPc.consume p).1.Sound fresh (q.taken slot slots) := by
  have hmem : slot ∈ q.published := hq ▸ List.mem_cons_self
  have hshort := h.short (mem_all' hmem)
  have hholds := h.holds slot hmem
  have hptr : p.paceReceiver.ptr = slot.start.ptr := by rw [hr, hstart]
  have hround : p.roundReceiver = slot.start.round := by
    rw [hstart, ← hr]
    rfl
  have hmsg : msgAt p.m.pipe p.paceReceiver.ptr = slot.msg := by
    rw [hptr]
    exact hholds.msgAt (by omega)
  have hall : (q.taken slot slots).all = q.all := by
    simp only [PipeSlots.all, PipeSlots.taken, hc, hq]
    rfl
  refine ⟨hmsg, ?_, ?_⟩
  · have hsize := hholds.getMsgSize hshort
    rw [ReceiverPc.consume, hptr, hsize, hround]
    rfl
  · have htaken := h.taken_of_nil hc
    rw [hq] at htaken
    have horder := h.order
    refine ⟨h.size, h.small, h.outside, h.behind, h.versionFrom, h.versionTo, htaken, h.rest,
      h.front, h.round, h.behindReceiver, h.inside, hall ▸ h.fits, hall ▸ h.blank,
      fun x hx => h.holds x (hq ▸ List.mem_cons_of_mem _ hx), ?_⟩
    rw [hq] at horder
    change p.reserved = p.received ++ [msgAt p.m.pipe p.paceReceiver.ptr] ++ _
    rw [hmsg, horder]
    simp [PipeSlots.taken]

theorem agree_blank (h : p.Sound fresh q) {x : PipeSlot} (hmem : slot ∈ q.all) (hx : x ∈ q.all)
    (hne : slot.start ≠ x.start) :
    Agree p.m.pipe (fill p.m.pipe slot.start.ptr slot.stop.ptr 255) x.start.ptr x.stop.ptr :=
  (Cells.agree_fill ((h.apart hmem hx hne).symm)).symm

theorem start_ne_of_consuming (h : p.Sound fresh q) (hc : q.consuming = [slot]) {x : PipeSlot}
    (hx : x ∈ q.published ++ q.unpublished) : slot.start ≠ x.start := by
  have hchain := h.chain
  rw [PipeSlots.all, hc, List.append_assoc] at hchain
  have hle := (hchain.2.bounds hx).1
  intro heq
  rw [← heq] at hle
  simp only [Pace.le_def, PipeSlot.stop_round, PipeSlot.stop_ptr] at hle
  omega

theorem blanked (h : p.Sound fresh q) (hc : q.consuming = [slot])
    (hstart : slot.start = q.cleared) :
    (p.setPipe (fill p.m.pipe slot.start.ptr slot.stop.ptr 255)).Sound fresh (q.blanked slot) := by
  have hmem : slot ∈ q.all := by
    rw [PipeSlots.all, hc]
    exact List.mem_cons_self
  have hall : q.all = slot :: (q.blanked slot).all := by
    simp only [PipeSlots.all, PipeSlots.blanked, hc]
    rfl
  have hfits := (h.fits slot hmem).1
  have htaken := h.taken
  rw [hc] at htaken
  have hptr : slot.start.ptr = q.cleared.ptr := congrArg Pace.ptr hstart
  have hround : slot.stop.round = q.cleared.round :=
    slot.stop_round.trans (congrArg Pace.round hstart)
  refine ⟨h.size, h.small, fun i hi => ?_, h.behind, h.versionFrom, h.versionTo, htaken.2, h.rest,
    h.front, ?_, fun heq => ?_, hfits, fun x hx => h.fits x (hall ▸ List.mem_cons_of_mem _ hx),
    fun i hi hfree => ?_, fun x hx => ?_, h.order⟩
  · have hout : ¬ (slot.start.ptr ≤ i ∧ i < slot.stop.ptr) := fun hin =>
      absurd (hfits.trans hi) (Nat.not_le_of_lt hin.2)
    exact (if_neg hout).trans (h.outside i hi)
  · exact hround ▸ h.round
  · have hlt := h.behindReceiver (heq.trans (congrArg (· + 1) hround))
    have hstop := slot.stop_ptr
    change p.paceTo.ptr < slot.stop.ptr
    omega
  · by_cases hin : slot.start.ptr ≤ i ∧ i < slot.stop.ptr
    · exact if_pos hin
    · refine (if_neg hin).trans (h.blank i hi fun x hx => ?_)
      rw [hall] at hx
      obtain rfl | hx := List.mem_cons.mp hx
      · omega
      · exact hfree x hx
  · have hag := h.agree_blank hmem (mem_all' hx)
      (h.start_ne_of_consuming hc (List.mem_append_left _ hx))
    rw [PipeSlot.stop_ptr x, ← Nat.add_assoc] at hag
    exact (h.holds x hx).congr hag

theorem loaded (h : p.Sound fresh q) {tries : ℕ} (hr : (ReceiverPc.loadFrom tries).Ok p q) :
    ((ReceiverPc.loadFrom tries).step p).2.Ok p q := by
  obtain ⟨hc, hreceiver⟩ := hr
  have hle := h.cleared_le
  have hnil := h.from_of_published_nil hc
  rw [ReceiverPc.step]
  dsimp only
  rw [hreceiver]
  split_ifs with hlt heq
  · refine ⟨hc, hreceiver, ?_⟩
    cases hq : q.published with
    | nil =>
      obtain hfrom | ⟨hfrom, -⟩ := hnil hq
      · exact absurd hlt (by rw [hfrom]; exact Nat.lt_irrefl _)
      · exact absurd hlt (by rw [hfrom]; exact Nat.not_lt_zero _)
    | cons slot slots =>
      obtain hstart | ⟨-, hfrom⟩ := h.next_published hc hq
      · exact ⟨slot, slots, rfl, hstart⟩
      · exact absurd hlt (Nat.lt_asymm hfrom)
  · exact ReceiverPc.miss_ok hc hreceiver tries
  · refine ⟨hc, hreceiver, ?_, fun hptr hq => ?_⟩
    · rw [Pace.le_def] at hle
      omega
    · obtain hfrom | ⟨hfrom, -⟩ := hnil hq
      · exact heq (congrArg Pace.ptr hfrom)
      · exact hptr (congrArg Pace.ptr hfrom)

/-- The test for a blank header tells whether the round has ended. -/
theorem ended_or_at_message (h : p.Sound fresh q) (hc : q.consuming = [])
    (hround : q.cleared.round < p.paceFrom.round) :
    (p.m.sizePipe < q.cleared.ptr + kMsgOffset ∨ sizeAt p.m.pipe q.cleared.ptr = kBlank) ∧
        p.Ended q ∨
      ¬ (p.m.sizePipe < q.cleared.ptr + kMsgOffset ∨ sizeAt p.m.pipe q.cleared.ptr = kBlank) ∧
        ∃ slot slots, q.published = slot :: slots ∧ slot.start = q.cleared := by
  obtain ⟨slot, slots, hq, hstart⟩ | ⟨hfree, hnext⟩ := h.at_message hc hround
  · have hmem : slot ∈ q.published := hq ▸ List.mem_cons_self
    have hfits := (h.fits slot (mem_all' hmem)).1
    have hblank := (h.holds slot hmem).ne_blank (h.short (mem_all' hmem))
    rw [PipeSlot.stop_ptr] at hfits
    have hoff : kMsgOffset = 8 := rfl
    rw [← hstart]
    exact .inr ⟨not_or.mpr ⟨by omega, hblank⟩, slot, slots, hq, rfl⟩
  · refine .inl ⟨?_, hnext⟩
    by_cases hlt : p.m.sizePipe < q.cleared.ptr + kMsgOffset
    · exact .inl hlt
    · exact .inr (h.size_blank (Nat.le_of_not_lt hlt) fun x hx => .inl (hfree x hx))

end SharedPipe.Sound

namespace Senders

variable {fresh : ℕ → UInt8} {p : SharedPipe} {q : PipeSlots} {senders : ℕ → SenderPc}
  {r : ReceiverPc}

theorem checkBlank (h : Senders p q senders) (hs : p.Sound fresh q) {tries senderPace : ℕ}
    (hr : (ReceiverPc.checkBlank tries senderPace).Ok p q) :
    ∃ q', ((ReceiverPc.checkBlank tries senderPace).step p).1.Sound fresh q' ∧
      Senders ((ReceiverPc.checkBlank tries senderPace).step p).1 q' senders ∧
      ((ReceiverPc.checkBlank tries senderPace).step p).2.Ok
        ((ReceiverPc.checkBlank tries senderPace).step p).1 q' := by
  obtain ⟨hc, hreceiver, hround, hne⟩ := hr
  have hptr : p.paceReceiver.ptr = q.cleared.ptr := congrArg Pace.ptr hreceiver
  rw [ReceiverPc.step, hptr]
  obtain ⟨hend, hnext⟩ | ⟨hend, hfound⟩ := hs.ended_or_at_message hc hround
  · rw [if_pos hend]
    have hreceiver' : (p.setPaceReceiver ⟨0, p.roundReceiver + 1⟩).paceReceiver =
        q.rewound.cleared := by
      have hr : p.roundReceiver = q.cleared.round := congrArg Pace.round hreceiver
      exact congrArg (Pace.mk 0) (congrArg (· + 1) hr)
    refine ⟨q.rewound, hs.rewound hc hnext,
      h.receive hs rfl rfl rfl rfl (.inl (Nat.lt_succ_self _)) rfl fun _ _ _ _ _ => rfl, ?_⟩
    dsimp only
    split_ifs with hsend
    · refine ⟨hc, hreceiver', ?_⟩
      obtain hfound | ⟨hq, -⟩ := hnext
      · exact hfound
      · exact absurd hq (hne hsend)
    · exact ReceiverPc.miss_ok (q := q.rewound) hc hreceiver' tries
  · rw [if_neg hend]
    exact ⟨q, hs, h, hc, hreceiver, hfound⟩

theorem setBlank (h : Senders p q senders) (hs : p.Sound fresh q) {orig : ℕ}
    (hr : (ReceiverPc.setBlank orig).Ok p q) :
    ∃ q', ((ReceiverPc.setBlank orig).step p).1.Sound fresh q' ∧
      Senders ((ReceiverPc.setBlank orig).step p).1 q' senders ∧
      ((ReceiverPc.setBlank orig).step p).2.Ok ((ReceiverPc.setBlank orig).step p).1 q' := by
  obtain ⟨slot, hc, rfl, hstart, hreceiver⟩ := hr
  have hmem : slot ∈ q.all := by
    rw [PipeSlots.all, hc]
    exact List.mem_cons_self
  rw [ReceiverPc.step, hreceiver]
  refine ⟨q.blanked slot, hs.blanked hc hstart, ?_, rfl, hreceiver⟩
  refine h.receive hs rfl rfl rfl rfl (hstart ▸ slot.start_le_stop) rfl fun x hx => ?_
  exact hs.agree_blank hmem (Sound.mem_all hx)
    (hs.start_ne_of_consuming hc (List.mem_append_right _ hx))

theorem receiver (h : Senders p q senders) (hs : p.Sound fresh q) (hr : r.Ok p q) :
    ∃ q', (r.step p).1.Sound fresh q' ∧ Senders (r.step p).1 q' senders ∧
      (r.step p).2.Ok (r.step p).1 q' := by
  cases r with
  | idle => exact ⟨q, hs, h, hr⟩
  | loadFrom tries => exact ⟨q, hs, h, hs.loaded hr⟩
  | checkBlank tries senderPace => exact h.checkBlank hs hr
  | found => exact ⟨q, hs, h, hr⟩
  | setBlank orig => exact h.setBlank hs hr

theorem consume (h : Senders p q senders) (hs : p.Sound fresh q) (hr : ReceiverPc.found.Ok p q) :
    ∃ q', (ReceiverPc.consume p).1.Sound fresh q' ∧ Senders (ReceiverPc.consume p).1 q' senders ∧
      (ReceiverPc.consume p).2.Ok (ReceiverPc.consume p).1 q' := by
  obtain ⟨hc, hreceiver, slot, slots, hq, hstart⟩ := hr
  obtain ⟨-, hstop, hs'⟩ := hs.consume hc hreceiver hq hstart
  refine ⟨q.taken slot slots, hs', h.receive hs rfl rfl rfl rfl le_rfl rfl fun _ _ _ _ _ => rfl,
    slot, rfl, ?_, hstart, hstop⟩
  rw [hstart, ← hreceiver]

end Senders

end Magneto
