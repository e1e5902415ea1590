import Magneto.PipeThreadsMoves

/-!
# The steps of a sender

From the first load of `SendMsg` to the end of `JustSendMsg_`, one lemma for
each access.
-/

namespace Magneto

open Cells (write Agree)
open PipeSlot (Chain)
open MPSCFixedPipe (sizeAt setSize getMsgSize isReady kBlank kMsgOffset kMaskNotWriting
  kNumVersions Holds)
open SharedPipe (Sound Ready)

namespace SenderPc

theorem retry_ok (p : SharedPipe) (q : PipeSlots) (msg : PipeMsg) (tries : ℕ) :
    (retry msg tries).Ok p q := by
  unfold retry
  split_ifs <;> trivial

theorem owned_retry (msg : PipeMsg) (tries : ℕ) : (retry msg tries).owned = none := by
  unfold retry
  split_ifs <;> rfl

theorem not_publishing_retry (msg : PipeMsg) (tries : ℕ) (pace : Pace) :
    ¬ (retry msg tries).Publishing pace := by
  unfold retry
  split_ifs <;> exact id

variable {fresh : ℕ → UInt8} {p : SharedPipe} {q : PipeSlots} {pc : SenderPc} {slot : PipeSlot}
  {pace : Pace}

theorem Ok.stop_le (h : pc.Ok p q) (hs : p.Sound fresh q) (ho : pc.owned = some slot) :
    slot.stop ≤ p.paceTo := by
  have hmem : slot ∈ q.unpublished → slot.stop ≤ p.paceTo := fun hin => (hs.rest.bounds hin).2
  cases pc <;> cases ho
  case storeHeader => exact hmem h.1
  case storeSize => exact hmem h.1
  case storeContent => exact hmem h.1
  case setReady => exact hmem h.1
  case loadFrom => exact h.elim (fun h => hmem h.1) fun h => h.2.trans hs.from_le
  case spin => exact hmem h.1
  case rewind =>
    obtain ⟨⟨slots, hq⟩, -⟩ := h
    exact hmem (hq ▸ List.mem_cons_self)

end SenderPc

namespace SharedPipe.Sound

variable {fresh : ℕ → UInt8} {p : SharedPipe} {q : PipeSlots} {slot slot' : PipeSlot}
  {slots : List PipeSlot}

theorem to_ne_of_mem (h : p.Sound fresh q) (hmem : slot ∈ q.unpublished) :
    p.paceFrom ≠ p.paceTo := by
  intro heq
  have hle := (h.rest.bounds hmem).2.trans (heq ▸ h.from_le_of_mem hmem)
  simp only [Pace.le_def, PipeSlot.stop_round, PipeSlot.stop_ptr] at hle
  omega

theorem from_of_nil (h : p.Sound fresh q) (hq : q.unpublished = []) : p.paceFrom = p.paceTo := by
  obtain hfrom | ⟨slot, slots, hq', -⟩ := h.front
  · have hrest := h.rest
    rw [hq] at hrest
    exact hfrom.trans hrest
  · rw [hq] at hq'
    exact nomatch hq'

theorem eq_head (h : p.Sound fresh q) (hq : q.unpublished = slot :: slots)
    (hmem : slot' ∈ q.unpublished) (heq : p.paceFrom = slot'.start) : slot' = slot := by
  have hslot : slot ∈ q.unpublished := hq ▸ List.mem_cons_self
  rw [hq] at hmem
  obtain rfl | htail := List.mem_cons.mp hmem
  · rfl
  · have hrest := h.rest
    rw [hq] at hrest
    have hle := ((hrest.2.bounds htail).1.trans (le_of_eq heq.symm)).trans
      (h.from_le_of_mem hslot)
    simp only [Pace.le_def, PipeSlot.stop_round, PipeSlot.stop_ptr] at hle
    omega

theorem notMem_tail (h : p.Sound fresh q) (hq : q.unpublished = slot :: slots) :
    slot ∉ slots := by
  intro hmem
  have hrest := h.rest
  rw [hq] at hrest
  have hle := (hrest.2.bounds hmem).1
  simp only [Pace.le_def, PipeSlot.stop_round, PipeSlot.stop_ptr] at hle
  omega

theorem ptr_ne (h : p.Sound fresh q) (hmem : slot ∈ q.unpublished)
    (heq : slot.start = p.paceFrom) : p.paceFrom.ptr ≠ p.paceTo.ptr := by
  intro hptr
  have hround := h.round
  have hbehind := h.behindReceiver
  have hstop := (h.rest.bounds hmem).2
  have hcleared := h.cleared_le
  rw [← heq] at hptr hcleared
  simp only [Pace.le_def, PipeSlot.stop_round, PipeSlot.stop_ptr] at hstop hcleared
  omega

end SharedPipe.Sound

namespace Senders

variable {fresh mem : ℕ → UInt8} {p : SharedPipe} {q : PipeSlots} {senders : ℕ → SenderPc}
  {i : ℕ} {pc : SenderPc} {slot : PipeSlot} {msg : PipeMsg} {tries : ℕ} {pace : Pace}

theorem loadTo (h : Senders p q senders) (hs : p.Sound fresh q)
    (hpc : senders i = .loadTo msg tries) :
    Senders p q (Function.update senders i (.loadReceiver msg tries p.paceTo)) :=
  h.look_free hs (le_refl p.paceTo) rfl (by rw [hpc]; rfl) (by rw [hpc]; exact fun _ _ _ _ => id)
    fun _ => id

theorem fail (h : Senders p q senders) (hs : p.Sound fresh q) (hnone : (senders i).owned = none)
    (hnot : ∀ pace, ¬ (senders i).Publishing pace) :
    Senders p q (Function.update senders i (.retry msg tries)) :=
  h.look_free hs (SenderPc.retry_ok p q msg tries) (SenderPc.owned_retry msg tries) hnone
    (fun slot _ _ _ => hnot slot.start) (SenderPc.not_publishing_retry msg tries)

theorem loadReceiver (h : Senders p q senders) (hs : p.Sound fresh q)
    (hpc : senders i = .loadReceiver msg tries pace) (hreceiver : p.paceReceiver = q.cleared) :
    Senders p q (Function.update senders i
      ((p.space pace msg).elim (.retry msg tries) (.casTo msg tries pace))) := by
  have hok := h.ok i
  rw [hpc] at hok
  cases hspace : p.space pace msg with
  | none => exact h.fail hs (by rw [hpc]; rfl) fun _ => by rw [hpc]; exact id
  | some slot =>
    have hpc' : (SenderPc.casTo msg tries pace slot).Ok p q := by
      refine ⟨hok, fun heq => ?_⟩
      subst heq
      exact hs.space_fits hreceiver hspace
    exact h.look_free hs hpc' rfl (by rw [hpc]; rfl) (by rw [hpc]; exact fun _ _ _ _ => id)
      fun _ => id

/-- A sender that publishes is not ahead of `sender_pace_from_`, and does not stand at the start
of the buffer when all is published. -/
theorem publishing_ne (h : Senders p q senders) (hs : p.Sound fresh q)
    (hpub : (senders i).Publishing pace) (hptr : pace.ptr = 0) : ¬ p.paceTo ≤ pace := by
  intro hle
  have hok := h.ok i
  have hfrom : pace ≤ p.paceFrom → pace = p.paceFrom := fun hle' =>
    le_antisymm hle' (hs.from_le.trans hle)
  have hmem : ∀ slot ∈ q.unpublished, pace ≤ p.paceFrom → False := fun slot hmem hle' =>
    hs.to_ne_of_mem hmem (le_antisymm hs.from_le (hle.trans hle'))
  cases hpc : senders i <;> rw [hpc] at hpub hok <;> try exact hpub
  case measure =>
    obtain rfl := hpub
    obtain ⟨slot, slots, hq, -⟩ := hok.2 (hfrom hok.1)
    exact hmem slot (hq ▸ List.mem_cons_self) hok.1
  case casFrom =>
    obtain rfl := hpub
    obtain ⟨slot, slots, hq, -⟩ := hok.2 (hfrom hok.1)
    exact hmem slot (hq ▸ List.mem_cons_self) hok.1
  case checkTo =>
    obtain rfl := hpub
    exact hok.1 hptr
  case checkReady =>
    obtain rfl := hpub
    exact hok.1 hptr

theorem reserve (h : Senders p q senders) (hs : p.Sound fresh q)
    (hnone : (senders i).owned = none) (hnot : ∀ pace, ¬ (senders i).Publishing pace)
    (hfits : p.Fits q.cleared p.paceTo slot) :
    Senders (p.reserve slot) (q.reserve slot) (Function.update senders i (.storeHeader slot)) := by
  have hto : p.paceTo ≤ slot.start :=
    PipeSlot.Follows.le (hfits.follows.imp_left And.left)
  refine h.update hs (.reserve hfits)
    ⟨List.mem_append_right _ (List.mem_singleton_self _), hs.blank_of_fits hfits⟩
    (fun slot' ho => .inr ?_) (fun _ hpub => hpub.elim) (fun slot' hmem => ?_)
    fun slot' slots hq hset => ?_
  · cases ho
    refine ⟨fun j slot' ho heq => ?_, fun hptr j hpub => h.publishing_ne hs hpub hptr hto⟩
    have hle := ((h.ok j).stop_le hs ho).trans hto
    rw [← heq] at hle
    simp only [Pace.le_def, PipeSlot.stop_round, PipeSlot.stop_ptr] at hle
    omega
  · obtain hold | hnew := List.mem_append.mp hmem
    · by_cases hset : p.Settled slot'
      · exact .inl hset
      · exact .inr (.inr ⟨hold, hset, by rw [hnone]; exact (Option.some_ne_none _).symm⟩)
    · exact .inr (.inl (congrArg some (List.mem_singleton.mp hnew).symm))
  · cases hunp : q.unpublished with
    | nil =>
      rw [PipeSlots.reserve, hunp] at hq
      cases hq
      exact .inl rfl
    | cons x xs =>
      rw [PipeSlots.reserve, hunp] at hq
      cases hq
      exact .inr (.inr ⟨⟨xs, rfl⟩, hset, by rw [hnone]; exact (Option.some_ne_none _).symm, hnot _⟩)

theorem rewrite (h : Senders p q senders) (hs : p.Sound fresh q)
    (ho : (senders i).owned = some slot) (hmem : slot ∈ q.unpublished) (hnot : ¬ p.Ready slot)
    (hag : ∀ i, i < slot.start.ptr ∨ slot.stop.ptr ≤ i → mem i = p.m.pipe i)
    (hok : pc.Ok (p.setPipe mem) q) (hpc : pc.owned = some slot) :
    Senders (p.setPipe mem) q (Function.update senders i pc) := by
  have hagree : ∀ x ∈ q.unpublished, x ≠ slot →
      Agree p.m.pipe (p.setPipe mem).m.pipe x.start.ptr x.stop.ptr := by
    intro x hx hne j hj hlt
    have hstart : x.start ≠ slot.start := fun heq =>
      hne (hs.eq_of_start (Sound.mem_all hx) (Sound.mem_all hmem) heq)
    have hapart := hs.apart (Sound.mem_all hx) (Sound.mem_all hmem) hstart
    exact (hag j (by omega)).symm
  have hmine : ¬ ∃ j, j ≠ i ∧ (senders j).owned = some slot := fun ⟨j, hj, hjo⟩ =>
    hj (h.distinct j i slot slot hjo ho rfl)
  refine h.update hs (.rewrite hs hmem hnot hmine hag) hok
    (fun x hx => .inl (ho.trans (hpc.symm.trans hx)))
    (fun _ hpub => absurd hpub (SenderPc.not_publishing_of_owned hpc)) (fun x hx => ?_)
    fun x xs hq hset => ?_
  · by_cases hxs : x = slot
    · exact .inr (.inl (hxs ▸ hpc))
    by_cases hset : p.Settled x
    · exact .inl ⟨Ready.congr hset.1 (hagree x hx hxs), hset.2⟩
    · refine .inr (.inr ⟨hx, hset, fun hox => hxs ?_⟩)
      exact (Option.some.inj (ho.symm.trans hox)).symm
  · by_cases hxs : x = slot
    · exact .inl (hxs ▸ hpc)
    · refine .inr (.inr ⟨⟨xs, hq⟩, ⟨?_, hset.2⟩, fun hox => hxs ?_,
        SenderPc.not_publishing_of_owned ho⟩)
      · exact Ready.congr hset.1 (hagree x (hq ▸ List.mem_cons_self) hxs).symm
      · exact (Option.some.inj (ho.symm.trans hox)).symm

end Senders

namespace Senders

variable {fresh mem : ℕ → UInt8} {p : SharedPipe} {q : PipeSlots} {senders : ℕ → SenderPc}
  {i : ℕ} {pc : SenderPc} {slot : PipeSlot} {msg : PipeMsg} {tries : ℕ} {pace : Pace}

theorem agree_of_store (p : SharedPipe) (slot : PipeSlot) {a b : ℕ}
    (ha : slot.start.ptr ≤ a) (hb : b ≤ slot.stop.ptr)
    (hag : ∀ x y, y ≤ a ∨ b ≤ x → Agree mem p.m.pipe x y) :
    ∀ i, i < slot.start.ptr ∨ slot.stop.ptr ≤ i → mem i = p.m.pipe i := by
  intro i hi
  exact hag i (i + 1) (by omega) i (Nat.le_refl i) (Nat.lt_succ_self i)

theorem storeHeader (h : Senders p q senders) (hs : p.Sound fresh q)
    (hpc : senders i = .storeHeader slot) :
    (p.setPipe (write p.m.pipe slot.start.ptr [slot.msg.header])).Sound fresh q ∧
    Senders (p.setPipe (write p.m.pipe slot.start.ptr [slot.msg.header])) q
      (Function.update senders i (.storeSize slot)) := by
  have hok := h.ok i
  rw [hpc] at hok
  obtain ⟨hmem, hblank⟩ := hok
  have hlen : ([slot.msg.header] : List UInt8).length = 1 := rfl
  have hag : ∀ i, i < slot.start.ptr ∨ slot.stop.ptr ≤ i →
      write p.m.pipe slot.start.ptr [slot.msg.header] i = p.m.pipe i :=
    agree_of_store p slot (Nat.le_refl slot.start.ptr) (b := slot.start.ptr + 1)
      (by rw [PipeSlot.stop_ptr]; omega) fun x y hxy => Cells.agree_write (by rwa [hlen])
  have hsize : sizeAt (write p.m.pipe slot.start.ptr [slot.msg.header]) slot.start.ptr =
      sizeAt p.m.pipe slot.start.ptr :=
    MPSCFixedPipe.sizeAt_congr (Cells.agree_write (.inr (by rw [hlen]; omega)))
  exact ⟨hs.rewrite hmem hag, h.rewrite hs (by rw [hpc]; rfl) hmem
    (SharedPipe.not_ready_of_blank hblank (hs.short (Sound.mem_all hmem))) hag
    ⟨hmem, hsize.trans hblank, List.singleton_inj.mp (Cells.read_write p.m.pipe slot.start.ptr
      [slot.msg.header])⟩ rfl⟩

theorem storeSize (h : Senders p q senders) (hs : p.Sound fresh q)
    (hpc : senders i = .storeSize slot) :
    (p.setPipe (setSize p.m.pipe slot.start.ptr slot.msg.content.length)).Sound fresh q ∧
    Senders (p.setPipe (setSize p.m.pipe slot.start.ptr slot.msg.content.length)) q
      (Function.update senders i (.storeContent slot)) := by
  have hok := h.ok i
  rw [hpc] at hok
  obtain ⟨hmem, hblank, hheader⟩ := hok
  have hshort := hs.short (Sound.mem_all hmem)
  have hag : ∀ i, i < slot.start.ptr ∨ slot.stop.ptr ≤ i →
      setSize p.m.pipe slot.start.ptr slot.msg.content.length i = p.m.pipe i :=
    agree_of_store p slot (Nat.le_add_right slot.start.ptr 4) (b := slot.start.ptr + 8)
      (by rw [PipeSlot.stop_ptr]; omega) fun x y hxy => MPSCFixedPipe.agree_setSize hxy
  have hsame : Agree (setSize p.m.pipe slot.start.ptr slot.msg.content.length) p.m.pipe
      slot.start.ptr (slot.start.ptr + 1) := MPSCFixedPipe.agree_setSize (.inl (by omega))
  exact ⟨hs.rewrite hmem hag, h.rewrite hs (by rw [hpc]; rfl) hmem
    (SharedPipe.not_ready_of_blank hblank hshort) hag
    ⟨hmem, MPSCFixedPipe.sizeAt_setSize (by omega),
      (hsame _ (Nat.le_refl _) (Nat.lt_succ_self _)).trans hheader⟩ rfl⟩

theorem storeContent (h : Senders p q senders) (hs : p.Sound fresh q)
    (hpc : senders i = .storeContent slot) :
    (p.setPipe (write p.m.pipe (slot.start.ptr + kMsgOffset) slot.msg.content)).Sound fresh q ∧
    Senders (p.setPipe (write p.m.pipe (slot.start.ptr + kMsgOffset) slot.msg.content)) q
      (Function.update senders i (.setReady slot)) := by
  have hok := h.ok i
  rw [hpc] at hok
  obtain ⟨hmem, hsize, hheader⟩ := hok
  have hoff : kMsgOffset = 8 := rfl
  have hag : ∀ i, i < slot.start.ptr ∨ slot.stop.ptr ≤ i →
      write p.m.pipe (slot.start.ptr + kMsgOffset) slot.msg.content i = p.m.pipe i :=
    agree_of_store p slot (Nat.le_add_right slot.start.ptr 8)
      (b := slot.start.ptr + 8 + slot.msg.content.length) (by rw [PipeSlot.stop_ptr]; omega)
      fun x y hxy => Cells.agree_write hxy
  have hsame : Agree (write p.m.pipe (slot.start.ptr + kMsgOffset) slot.msg.content) p.m.pipe
      slot.start.ptr (slot.start.ptr + 8) := Cells.agree_write (.inl (by omega))
  exact ⟨hs.rewrite hmem hag, h.rewrite hs (by rw [hpc]; rfl) hmem
    (SharedPipe.not_ready_of_size hsize) hag
    ⟨hmem, (MPSCFixedPipe.sizeAt_congr (hsame.mono (by omega) (by omega))).trans hsize,
      (hsame _ (Nat.le_refl _) (by omega)).trans hheader, Cells.read_write _ _ _⟩ rfl⟩

theorem setReady (h : Senders p q senders) (hs : p.Sound fresh q)
    (hpc : senders i = .setReady slot) :
    (p.setPipe (setSize p.m.pipe slot.start.ptr
      (sizeAt p.m.pipe slot.start.ptr ||| kMaskNotWriting))).Sound fresh q ∧
    Senders (p.setPipe (setSize p.m.pipe slot.start.ptr
      (sizeAt p.m.pipe slot.start.ptr ||| kMaskNotWriting))) q
      (Function.update senders i (.loadFrom slot)) := by
  have hok := h.ok i
  rw [hpc] at hok
  obtain ⟨hmem, hsize, hheader, hcontent⟩ := hok
  have hshort := hs.short (Sound.mem_all hmem)
  rw [hsize, MPSCFixedPipe.ready_of_lt (by omega)]
  have hag : ∀ i, i < slot.start.ptr ∨ slot.stop.ptr ≤ i →
      setSize p.m.pipe slot.start.ptr (slot.msg.content.length + 2 ^ 31) i = p.m.pipe i :=
    agree_of_store p slot (Nat.le_add_right slot.start.ptr 4) (b := slot.start.ptr + 8)
      (by rw [PipeSlot.stop_ptr]; omega) fun x y hxy => MPSCFixedPipe.agree_setSize hxy
  have hsame : Agree (setSize p.m.pipe slot.start.ptr (slot.msg.content.length + 2 ^ 31))
      p.m.pipe slot.start.ptr (slot.start.ptr + 1) :=
    MPSCFixedPipe.agree_setSize (.inl (by omega))
  have hready : (p.setPipe (setSize p.m.pipe slot.start.ptr
      (slot.msg.content.length + 2 ^ 31))).Ready slot := by
    refine ⟨(hsame _ (Nat.le_refl _) (Nat.lt_succ_self _)).trans hheader,
      MPSCFixedPipe.sizeAt_setSize (by omega), ?_⟩
    exact (Cells.read_congr (MPSCFixedPipe.agree_setSize (.inr (Nat.le_refl _)))).trans hcontent
  exact ⟨hs.rewrite hmem hag, h.rewrite hs (by rw [hpc]; rfl) hmem
    (SharedPipe.not_ready_of_size hsize) hag (.inl ⟨hmem, hready⟩) rfl⟩

/-- The sender has come to its slot: either it is the first one that is not published, or others
publish it. -/
theorem loadFrom (h : Senders p q senders) (hs : p.Sound fresh q)
    (hpc : senders i = .loadFrom slot) (hround : p.roundFrom ≤ slot.start.round) :
    Senders p q (Function.update senders i
      (if p.paceFrom.ptr = slot.start.ptr then .measure p.paceFrom
        else if slot.start.ptr = 0 then .spin slot p.paceFrom.round else .idle)) := by
  have hok := h.ok i
  rw [hpc] at hok
  have hown : (senders i).owned = some slot := by rw [hpc]; rfl
  have hnot : ∀ pace, ¬ (senders i).Publishing pace := fun _ =>
    SenderPc.not_publishing_of_owned hown
  have hbounds := h.ok i
  have hfrom : p.paceFrom.round ≤ slot.start.round := hround
  have hr := hs.round
  have hb := hs.behindReceiver
  have hcleared := hs.cleared_le
  split_ifs with hptr hzero
  · -- the slot is the first one: a later round would have come back to the same place
    have heq : p.paceFrom = slot.start ∧ slot ∈ q.unpublished ∧ p.Ready slot := by
      obtain ⟨hmem, hready⟩ | ⟨-, hstop⟩ := hok
      · refine ⟨?_, hmem, hready⟩
        have hle := hs.from_le_of_mem hmem
        have hto := (hs.rest.bounds hmem).2
        refine le_antisymm hle ?_
        simp only [Pace.le_def, PipeSlot.stop_round, PipeSlot.stop_ptr] at *
        omega
      · simp only [Pace.le_def, PipeSlot.stop_round, PipeSlot.stop_ptr] at hstop
        omega
    obtain ⟨heq, hmem, hready⟩ := heq
    obtain ⟨x, xs, hq⟩ := List.exists_cons_of_ne_nil (List.ne_nil_of_mem hmem)
    obtain rfl := hs.eq_head hq hmem heq
    refine h.look hs ⟨le_rfl, fun _ => ⟨slot, xs, hq, heq.symm, hready⟩⟩ (fun _ ho => by cases ho)
      (fun x hx ho => .inr ?_) (fun x xs hq' hset _ => .inr (hs.start_of_settled hq' hset).symm)
      fun pace hpub _ => .inr ⟨slot, hown, heq.symm.trans hpub⟩
    obtain rfl := Option.some.inj (hown.symm.trans ho)
    exact ⟨hready, .inr heq⟩
  · obtain ⟨hmem, hready⟩ | ⟨hptr', -⟩ := hok
    · have hne : p.paceFrom ≠ slot.start := fun heq => hptr (congrArg Pace.ptr heq)
      have hnext : slot.start = ⟨0, p.paceFrom.round + 1⟩ := by
        have hle := hs.from_le_of_mem hmem
        have hto := (hs.rest.bounds hmem).2
        have : slot.start.round = p.paceFrom.round + 1 := by
          simp only [Pace.le_def, PipeSlot.stop_round, PipeSlot.stop_ptr] at *
          omega
        rw [← this, ← hzero]
      refine h.look hs ⟨hmem, hready, hne, hnext⟩ (fun _ ho => hown.trans ho)
        (fun x hx ho => .inl (hown.symm.trans ho)) (fun x xs hq hset ha => ?_)
        fun _ hpub => hpub.elim
      exact ha.elim (fun ho => .inl (hown.symm.trans ho)) fun hpub => absurd hpub (hnot _)
    · exact absurd hzero hptr'
  · have hset : slot ∈ q.unpublished → p.Settled slot := by
      intro hmem
      obtain ⟨-, hready⟩ | ⟨-, hstop⟩ := hok
      · exact ⟨hready, .inl hzero⟩
      · have hle := hstop.trans (hs.from_le_of_mem hmem)
        simp only [Pace.le_def, PipeSlot.stop_round, PipeSlot.stop_ptr] at hle
        omega
    refine h.look hs trivial (fun _ ho => by cases ho) (fun x hx ho => .inr ?_)
      (fun x xs hq hsetx ha => ?_) fun _ hpub => hpub.elim
    · obtain rfl := Option.some.inj (hown.symm.trans ho)
      exact hset hx
    · obtain ho | hpub := ha
      · obtain rfl := Option.some.inj (hown.symm.trans ho)
        exact absurd (congrArg Pace.ptr (hs.start_of_settled hq hsetx).symm) hptr
      · exact absurd hpub (hnot _)

end Senders

namespace PipeSlot

variable {a b : Pace} {x slot : PipeSlot} {xs : List PipeSlot}

theorem Chain.previous (h : Chain a (x :: xs) b) (hmem : slot ∈ xs) :
    ∃ y ∈ x :: xs, slot.Follows y.stop := by
  induction xs generalizing a x with
  | nil => exact nomatch hmem
  | cons y ys ih =>
    obtain rfl | hmem := List.mem_cons.mp hmem
    · exact ⟨x, List.mem_cons_self, h.2.1⟩
    · obtain ⟨z, hz, hfollows⟩ := ih h.2 hmem
      exact ⟨z, List.mem_cons_of_mem _ hz, hfollows⟩

theorem Chain.end_eq (h : Chain a xs b) : b = a ∨ ∃ slot ∈ xs, b = slot.stop := by
  induction xs generalizing a with
  | nil => exact .inl (show a = b from h).symm
  | cons x xs ih =>
    obtain rfl | ⟨slot, hmem, heq⟩ := ih h.2
    · exact .inr ⟨x, List.mem_cons_self, rfl⟩
    · exact .inr ⟨slot, List.mem_cons_of_mem _ hmem, heq⟩

end PipeSlot

namespace SharedPipe

variable {fresh : ℕ → UInt8} {p : SharedPipe} {q : PipeSlots} {slot : PipeSlot}
  {slots : List PipeSlot} {round : ℕ}

theorem Ready.getMsgSize (h : p.Ready slot) (hshort : slot.msg.content.length < 2 ^ 31 - 1) :
    getMsgSize p.m.pipe slot.start.ptr = 8 + slot.msg.content.length :=
  Holds.getMsgSize h hshort

theorem Ready.isReady (h : p.Ready slot) (hshort : slot.msg.content.length < 2 ^ 31 - 1) :
    isReady (sizeAt p.m.pipe slot.start.ptr) = true := by
  have hbit : slot.msg.content.length + 2 ^ 31 &&& kMaskNotWriting ≠ 0 := by
    intro hzero
    have htest : (slot.msg.content.length + 2 ^ 31 &&& kMaskNotWriting).testBit 31 =
      (0 : ℕ).testBit 31 := congrArg (Nat.testBit · 31) hzero
    rw [← MPSCFixedPipe.ready_of_lt (by omega), Nat.testBit_and, Nat.testBit_or, kMaskNotWriting,
      Nat.testBit_two_pow_self, Bool.or_true, Bool.and_true, Nat.zero_testBit] at htest
    cases htest
  have hne := Holds.ne_blank h hshort
  rw [MPSCFixedPipe.isReady, Bool.and_eq_true]
  refine ⟨decide_eq_true hne, decide_eq_true ?_⟩
  rw [h.size]
  exact hbit

theorem isReady_of_size {n : ℕ} (h : n < 2 ^ 31) : MPSCFixedPipe.isReady n = false := by
  have hbit : n &&& kMaskNotWriting = 0 := by
    refine Nat.eq_of_testBit_eq fun i => ?_
    rw [Nat.testBit_and, kMaskNotWriting, Nat.testBit_two_pow, Nat.zero_testBit]
    by_cases hi : 31 = i
    · rw [← hi, Nat.testBit_lt_two_pow h, Bool.false_and]
    · rw [decide_eq_false hi, Bool.and_false]
  simp [MPSCFixedPipe.isReady, hbit]

theorem Sound.head_of_before (h : p.Sound fresh q) (hmem : slot ∈ q.unpublished)
    (hstart : slot.start = ⟨0, round + 1⟩)
    (hbefore : some p.paceFrom.ptr = slot.before) : ∃ slots, q.unpublished = slot :: slots := by
  obtain ⟨x, xs, hq⟩ := List.exists_cons_of_ne_nil (List.ne_nil_of_mem hmem)
  have hin := hmem
  rw [hq] at hin
  obtain rfl | htail := List.mem_cons.mp hin
  · exact ⟨xs, hq⟩
  exfalso
  have hrest := h.rest
  rw [hq] at hrest
  obtain ⟨y, hy, hfollows⟩ := hrest.previous htail
  have hymem : y ∈ q.unpublished := hq ▸ hy
  obtain heq | ⟨heq, hsome⟩ := hfollows
  · exact y.stop_ptr_ne ((congrArg Pace.ptr heq).symm.trans (congrArg Pace.ptr hstart))
  · have hptr : p.paceFrom.ptr = y.stop.ptr := Option.some.inj (hbefore.trans hsome)
    have hyround : y.start.round = round := by
      have := congrArg Pace.round (heq.symm.trans hstart)
      simpa using this
    have hle := h.from_le_of_mem hymem
    have hto := (h.rest.bounds hmem).2
    have hr := h.round
    have hcleared := h.cleared_le
    have hslot : slot.start.round = round + 1 := congrArg Pace.round hstart
    simp only [Pace.le_def, PipeSlot.stop_round, PipeSlot.stop_ptr] at *
    omega

/-- Behind the messages of a round that is over nothing looks ready. -/
theorem Sound.not_ready_end (h : p.Sound fresh q) (hq : q.unpublished = slot :: slots)
    (hne : p.paceFrom ≠ slot.start) : isReady (sizeAt p.m.pipe p.paceFrom.ptr) = false := by
  have hrest := h.rest
  rw [hq] at hrest
  have hreached : p.paceFrom = q.reached := by
    obtain heq | ⟨x, xs, hq', heq⟩ := h.front
    · exact heq
    · rw [hq] at hq'
      cases hq'
      exact absurd heq hne
  have hstart : slot.start = ⟨0, q.reached.round + 1⟩ := by
    obtain heq | ⟨heq, -⟩ := hrest.1
    · exact absurd (hreached.trans heq.symm) hne
    · exact heq
  have hslot : slot.stop ≤ p.paceTo := (h.rest.bounds (hq ▸ List.mem_cons_self)).2
  have hr := h.round
  have hb := h.behindReceiver
  have hround : slot.start.round = q.reached.round + 1 := congrArg Pace.round hstart
  have hcleared := h.taken.le
  refine h.not_ready ?_ fun x hx => ?_
  · rw [hreached]
    obtain heq | ⟨x, hx, heq⟩ := h.taken.end_eq
    · exact heq ▸ h.inside
    · exact heq ▸ (h.fits x (List.mem_append_left _ hx)).1
  · rw [hreached]
    have hto := (h.chain.bounds hx).2
    have hfrom := (h.chain.bounds hx).1
    obtain hx | hx := List.mem_append.mp hx
    · have hle := (h.taken.bounds hx).2
      simp only [Pace.le_def, PipeSlot.stop_round, PipeSlot.stop_ptr] at *
      omega
    · have hle : slot.start ≤ x.start := by
        rw [hq] at hx
        obtain rfl | hx := List.mem_cons.mp hx
        · exact le_rfl
        · exact slot.start_le_stop.trans (hrest.2.bounds hx).1
      simp only [Pace.le_def, PipeSlot.stop_round, PipeSlot.stop_ptr] at *
      omega

end SharedPipe

theorem SenderPc.Ok.ready_of_isReady {p : SharedPipe} {q : PipeSlots} {pc : SenderPc}
    {slot : PipeSlot} (h : pc.Ok p q) (ho : pc.owned = some slot)
    (hshort : slot.msg.content.length < 2 ^ 31 - 1) (hfrom : p.paceFrom ≤ slot.start)
    (hready : isReady (sizeAt p.m.pipe slot.start.ptr) = true) : p.Ready slot := by
  have hblank : sizeAt p.m.pipe slot.start.ptr ≠ kBlank := by
    intro heq
    rw [heq] at hready
    exact absurd hready (by decide)
  have hsize : sizeAt p.m.pipe slot.start.ptr ≠ slot.msg.content.length := by
    intro heq
    rw [heq, SharedPipe.isReady_of_size (by omega)] at hready
    exact nomatch hready
  cases pc <;> cases ho
  case storeHeader => exact absurd h.2 hblank
  case storeSize => exact absurd h.2.1 hblank
  case storeContent => exact absurd h.2.1 hsize
  case setReady => exact absurd h.2.1 hsize
  case loadFrom =>
    obtain ⟨-, hready⟩ | ⟨-, hstop⟩ := h
    · exact hready
    · have hle := hstop.trans hfrom
      simp only [Pace.le_def, PipeSlot.stop_round, PipeSlot.stop_ptr] at hle
      omega
  case spin => exact h.2.1
  case rewind => exact h.2.1

namespace Senders

variable {fresh : ℕ → UInt8} {p : SharedPipe} {q : PipeSlots} {senders : ℕ → SenderPc}
  {i : ℕ} {pc : SenderPc} {slot : PipeSlot} {slots : List PipeSlot} {pace old : Pace}
  {round size : ℕ}

theorem spin (h : Senders p q senders) (hs : p.Sound fresh q)
    (hpc : senders i = .spin slot round) :
    Senders p q (Function.update senders i
      (if some p.paceFrom.ptr = slot.before then .rewind slot round else .spin slot round)) := by
  have hok := h.ok i
  have hown : (senders i).owned = some slot := by rw [hpc]; rfl
  have hnot : ∀ pace, ¬ (senders i).Publishing pace := fun _ =>
    SenderPc.not_publishing_of_owned hown
  rw [hpc] at hok
  split_ifs with hbefore
  · obtain ⟨hmem, hready, hne, hstart⟩ := hok
    refine h.look hs ⟨hs.head_of_before hmem hstart hbefore, hready, hne, hstart⟩
      (fun _ ho => hown.trans ho) (fun x hx ho => .inl (hown.symm.trans ho))
      (fun x xs hq hset ha => ?_) fun _ hpub => hpub.elim
    exact ha.elim (fun ho => .inl (hown.symm.trans ho)) fun hpub => absurd hpub (hnot _)
  · rwa [← hpc, Function.update_eq_self]

theorem rewind (h : Senders p q senders) (hs : p.Sound fresh q)
    (hpc : senders i = .rewind slot round) :
    (p.setPaceFrom ⟨0, round + 1⟩).Sound fresh q ∧
    Senders (p.setPaceFrom ⟨0, round + 1⟩) q
      (Function.update senders i (.measure ⟨0, round + 1⟩)) ∧
    p.paceFrom ≤ (p.setPaceFrom ⟨0, round + 1⟩).paceFrom := by
  have hok := h.ok i
  have hown : (senders i).owned = some slot := by rw [hpc]; rfl
  rw [hpc] at hok
  obtain ⟨⟨slots, hq⟩, hready, hne, hstart⟩ := hok
  rw [← hstart]
  have hmine : ¬ ∃ j, j ≠ i ∧ (senders j).owned = some slot := fun ⟨j, hj, hjo⟩ =>
    hj (h.distinct j i slot slot hjo hown rfl)
  have hmoves : p.Moves q (p.setPaceFrom slot.start) q
      fun slot => ∃ j, j ≠ i ∧ (senders j).owned = some slot := .rewind hs hq hne hmine
  refine ⟨hs.rewind hq, ?_, hmoves.from_le⟩
  refine h.update hs hmoves ⟨le_rfl, fun _ => ⟨slot, slots, hq, rfl, hready⟩⟩
    (fun _ ho => by cases ho) (fun pace hpub _ => .inr ⟨slot, hown, hpub⟩) (fun x hx => ?_)
    fun x xs hq' _ => ?_
  · by_cases hxs : x = slot
    · subst hxs
      exact .inl ⟨hready, .inr rfl⟩
    by_cases hset : p.Settled x
    · obtain ⟨hx', hptr | heq⟩ := hset
      · exact .inl ⟨hx', .inl hptr⟩
      · exact absurd (hs.eq_head hq hx heq) hxs
    · refine .inr (.inr ⟨hx, hset, fun ho => hxs ?_⟩)
      exact (Option.some.inj (hown.symm.trans ho)).symm
  · rw [hq] at hq'
    cases hq'
    exact .inr (.inl rfl)

theorem measure (h : Senders p q senders) (hs : p.Sound fresh q)
    (hpc : senders i = .measure old) :
    Senders p q (Function.update senders i
      (if getMsgSize p.m.pipe old.ptr = kBlank then .idle
        else .casFrom old (getMsgSize p.m.pipe old.ptr))) := by
  have hok := h.ok i
  rw [hpc] at hok
  have hsize : ∀ slot slots, q.unpublished = slot :: slots → slot.start = old → p.Ready slot →
      getMsgSize p.m.pipe old.ptr = 8 + slot.msg.content.length := by
    intro slot slots hq hstart hready
    rw [← hstart]
    exact hready.getMsgSize (hs.short (Sound.mem_all (hq ▸ List.mem_cons_self)))
  split_ifs with hblank
  · refine h.look_free hs trivial rfl (by rw [hpc]; rfl) (fun x xs hq hset hpub => ?_) fun _ => id
    rw [hpc] at hpub
    have heq := hsize x xs hq (show old = x.start from hpub).symm hset.1
    have hshort : x.msg.content.length < 2 ^ 31 - 1 :=
      hs.short (Sound.mem_all (hq ▸ List.mem_cons_self))
    rw [hblank, kBlank] at heq
    omega
  · refine h.look hs ⟨hok.1, fun heq => ?_⟩ (fun _ ho => by cases ho)
      (fun x _ ho => by rw [hpc] at ho; cases ho) (fun x xs _ _ ha => ?_)
      fun pace hpub _ => .inl (by rw [hpc]; exact hpub)
    · obtain ⟨slot, slots, hq, hstart, hready⟩ := hok.2 heq
      exact ⟨slot, slots, hq, hstart, hready, hsize slot slots hq hstart hready⟩
    · rw [hpc] at ha
      exact .inr (ha.elim (fun ho => by cases ho) id)

theorem casFrom_fail (h : Senders p q senders) (hs : p.Sound fresh q)
    (hpc : senders i = .casFrom old size) (hne : p.m.senderPaceFrom ≠ old.packed) :
    Senders p q (Function.update senders i .idle) := by
  refine h.look_free hs trivial rfl (by rw [hpc]; rfl) (fun x xs hq hset hpub => ?_) fun _ => id
  rw [hpc] at hpub
  have heq : old = p.paceFrom :=
    (show old = x.start from hpub).trans (hs.start_of_settled hq hset)
  exact hne (heq ▸ hs.versionFrom)

theorem casFrom (h : Senders p q senders) (hs : p.Sound fresh q)
    (hpc : senders i = .casFrom old size) (heq : p.m.senderPaceFrom = old.packed)
    (hround : p.roundFrom < old.round + kNumVersions) :
    ∃ slot slots, q.unpublished = slot :: slots ∧
      (p.setPaceFrom ⟨old.ptr + size, old.round⟩).Sound fresh (q.publish slot slots) ∧
      Senders (p.setPaceFrom ⟨old.ptr + size, old.round⟩) (q.publish slot slots)
        (Function.update senders i (.checkTo ⟨old.ptr + size, old.round⟩)) ∧
      p.paceFrom ≤ (p.setPaceFrom ⟨old.ptr + size, old.round⟩).paceFrom := by
  have hok := h.ok i
  rw [hpc] at hok
  have hold : old = p.paceFrom := by
    refine Pace.eq_of_packed (heq.symm.trans hs.versionFrom) hok.1 hround
  obtain ⟨slot, slots, hq, hstart, hready, rfl⟩ := hok.2 hold
  have hstop : (⟨old.ptr + (8 + slot.msg.content.length), old.round⟩ : Pace) = slot.stop := by
    rw [← hstart]
    rfl
  have hfrom : slot.start = p.paceFrom := hstart.trans hold
  rw [hstop]
  have hmoves : p.Moves q (p.setPaceFrom slot.stop) (q.publish slot slots)
      fun slot => ∃ j, j ≠ i ∧ (senders j).owned = some slot :=
    .publish hq hready hfrom fun ⟨j, hj, hjo⟩ hptr =>
      h.zero i j slot hjo hptr (by rw [hpc]; exact hstart.symm)
  refine ⟨slot, slots, hq, hs.publish hq hready, ?_, hmoves.from_le⟩
  refine h.update hs hmoves ⟨slot.stop_ptr_ne, le_rfl⟩ (fun _ ho => by cases ho)
    (fun pace hpub hptr => ?_) (fun x hx => ?_) fun x xs hq' hset => ?_
  · exact absurd ((congrArg Pace.ptr (show slot.stop = pace from hpub)).trans hptr)
      slot.stop_ptr_ne
  · have hxq : x ∈ q.unpublished := hq ▸ List.mem_cons_of_mem _ hx
    by_cases hset : p.Settled x
    · obtain ⟨hx', hptr | hxfrom⟩ := hset
      · exact .inl ⟨hx', .inl hptr⟩
      · obtain rfl := hs.eq_head hq hxq hxfrom
        exact absurd hx (hs.notMem_tail hq)
    · exact .inr (.inr ⟨hxq, hset, by rw [hpc]; exact nofun⟩)
  · have hxstart := (hs.publish hq hready).start_of_settled hq' hset
    exact .inr (.inl hxstart.symm)

theorem checkTo (h : Senders p q senders) (hs : p.Sound fresh q)
    (hpc : senders i = .checkTo pace) :
    Senders p q (Function.update senders i
      (if pace.ptr ≠ p.paceTo.ptr then .checkReady pace else .idle)) := by
  have hok := h.ok i
  rw [hpc] at hok
  split_ifs with hptr
  · refine h.look hs ⟨hok.1, hok.2, fun heq hnil => hptr ?_⟩ (fun _ ho => by cases ho)
      (fun x _ ho => by rw [hpc] at ho; cases ho) (fun x xs _ _ ha => ?_)
      fun pace hpub _ => .inl (by rw [hpc]; exact hpub)
    · rw [heq, hs.from_of_nil hnil]
    · rw [hpc] at ha
      exact .inr (ha.elim (fun ho => by cases ho) id)
  · refine h.look_free hs trivial rfl (by rw [hpc]; rfl) (fun x xs hq hset hpub => ?_) fun _ => id
    rw [hpc] at hpub
    have hstart := hs.start_of_settled hq hset
    have hpace : pace = p.paceFrom := (show pace = x.start from hpub).trans hstart
    refine hs.ptr_ne (hq ▸ List.mem_cons_self) hstart ?_
    rw [← hpace]
    exact not_not.mp hptr

theorem ready_head (h : Senders p q senders) (hs : p.Sound fresh q) (hne : q.unpublished ≠ [])
    (hready : isReady (sizeAt p.m.pipe p.paceFrom.ptr) = true) :
    ∃ slot slots, q.unpublished = slot :: slots ∧ slot.start = p.paceFrom ∧ p.Ready slot := by
  obtain ⟨slot, slots, hq⟩ := List.exists_cons_of_ne_nil hne
  have hmem : slot ∈ q.unpublished := hq ▸ List.mem_cons_self
  have hshort := hs.short (Sound.mem_all hmem)
  by_cases hstart : p.paceFrom = slot.start
  swap
  · rw [hs.not_ready_end hq hstart] at hready
    exact nomatch hready
  refine ⟨slot, slots, hq, hstart.symm, ?_⟩
  rw [hstart] at hready
  obtain hset | ⟨j, hj⟩ := h.attended slot hmem
  · exact hset.1
  exact (h.ok j).ready_of_isReady hj hshort (le_of_eq hstart) hready

theorem checkReady (h : Senders p q senders) (hs : p.Sound fresh q)
    (hpc : senders i = .checkReady pace) :
    Senders p q (Function.update senders i
      (if isReady (sizeAt p.m.pipe pace.ptr) then .measure pace else .idle)) := by
  have hok := h.ok i
  rw [hpc] at hok
  obtain ⟨hptr, hle, hne⟩ := hok
  split_ifs with hready
  · refine h.look hs ⟨hle, fun heq => ?_⟩ (fun _ ho => by cases ho)
      (fun x _ ho => by rw [hpc] at ho; cases ho) (fun x xs _ _ ha => ?_)
      fun pace hpub _ => .inl (by rw [hpc]; exact hpub)
    · rw [heq] at hready ⊢
      exact h.ready_head hs (hne heq) hready
    · rw [hpc] at ha
      exact .inr (ha.elim (fun ho => by cases ho) id)
  · refine h.look_free hs trivial rfl (by rw [hpc]; rfl) (fun x xs hq hset hpub => ?_) fun _ => id
    rw [hpc] at hpub
    have hstart : pace = x.start := hpub
    rw [hstart] at hready
    exact hready (hset.1.isReady (hs.short (Sound.mem_all (hq ▸ List.mem_cons_self))))

end Senders

end Magneto
