import Magneto.PipeThreadsSpec

/-!
# What the steps of a sender do to the slots

A slot is reserved, written and published, and `sender_pace_from_` is rewound.
Nothing of it disturbs the slots of the other senders.
-/

namespace Magneto

open Cells (Agree)
open PipeSlot (Chain chain_append)
open MPSCFixedPipe (sizeAt kBlank kMsgOffset)
open SharedPipe (Sound Moves)

theorem SenderPc.not_publishing_of_owned {pc : SenderPc} {slot : PipeSlot} {pace : Pace}
    (h : pc.owned = some slot) : ¬ pc.Publishing pace := by
  cases pc <;> first | exact id | exact nomatch h

namespace Senders

variable {fresh : ℕ → UInt8} {p p' : SharedPipe} {q q' : PipeSlots} {senders : ℕ → SenderPc}
  {i : ℕ} {pc : SenderPc} {slot : PipeSlot}

theorem update (h : Senders p q senders) (hs : p.Sound fresh q)
    (hm : p.Moves q p' q' fun slot => ∃ j, j ≠ i ∧ (senders j).owned = some slot)
    (hok : pc.Ok p' q')
    (howned : ∀ slot, pc.owned = some slot → (senders i).owned = some slot ∨
      (∀ j slot', (senders j).owned = some slot' → slot'.start ≠ slot.start) ∧
        (slot.start.ptr = 0 → ∀ j, ¬ (senders j).Publishing slot.start))
    (hpub : ∀ pace, pc.Publishing pace → pace.ptr = 0 → (senders i).Publishing pace ∨
      ∃ slot, (senders i).owned = some slot ∧ slot.start = pace)
    (hattended : ∀ slot ∈ q'.unpublished, p'.Settled slot ∨ pc.owned = some slot ∨
      slot ∈ q.unpublished ∧ ¬ p.Settled slot ∧ (senders i).owned ≠ some slot)
    (hactive : ∀ slot slots, q'.unpublished = slot :: slots → p'.Settled slot →
      pc.owned = some slot ∨ pc.Publishing slot.start ∨
      (∃ slots, q.unpublished = slot :: slots) ∧ p.Settled slot ∧
        (senders i).owned ≠ some slot ∧ ¬ (senders i).Publishing slot.start) :
    Senders p' q' (Function.update senders i pc) where
  ok j := by
    obtain rfl | hj := eq_or_ne j i
    · rwa [Function.update_self]
    · rw [Function.update_of_ne hj]
      exact (h.ok j).moves hs hm fun slot hslot => ⟨j, hj, hslot⟩
  distinct j k slot slot' hjo hko heq := by
    obtain rfl | hj := eq_or_ne j i
    · obtain rfl | hk := eq_or_ne k j
      · rfl
      · rw [Function.update_self] at hjo
        rw [Function.update_of_ne hk] at hko
        obtain hold | hnew := howned slot hjo
        · exact h.distinct j k slot slot' hold hko heq
        · exact absurd heq.symm (hnew.1 k slot' hko)
    · rw [Function.update_of_ne hj] at hjo
      obtain rfl | hk := eq_or_ne k i
      · rw [Function.update_self] at hko
        obtain hold | hnew := howned slot' hko
        · exact h.distinct j k slot slot' hjo hold heq
        · exact absurd heq (hnew.1 j slot hjo)
      · rw [Function.update_of_ne hk] at hko
        exact h.distinct j k slot slot' hjo hko heq
  attended slot hmem := by
    obtain hset | hown | ⟨hold, hnot, hne⟩ := hattended slot hmem
    · exact .inl hset
    · exact .inr ⟨i, by rwa [Function.update_self]⟩
    · obtain hset | ⟨j, hj⟩ := h.attended slot hold
      · exact absurd hset hnot
      · have hji : j ≠ i := fun heq => hne (heq ▸ hj)
        exact .inr ⟨j, by rwa [Function.update_of_ne hji]⟩
  active slot slots hq hset := by
    obtain hown | hpub | ⟨⟨slots', hq'⟩, hset', hne, hnot⟩ := hactive slot slots hq hset
    · exact ⟨i, .inl (by rwa [Function.update_self])⟩
    · exact ⟨i, .inr (by rwa [Function.update_self])⟩
    · obtain ⟨j, hj⟩ := h.active slot slots' hq' hset'
      have hji : j ≠ i := by
        rintro rfl
        exact hj.elim hne hnot
      exact ⟨j, by rwa [Function.update_of_ne hji]⟩
  zero k j slot ho hptr hpubk := by
    obtain rfl | hk := eq_or_ne k i
    · rw [Function.update_self] at hpubk
      obtain rfl | hj := eq_or_ne j k
      · rw [Function.update_self] at ho
        exact SenderPc.not_publishing_of_owned ho hpubk
      · rw [Function.update_of_ne hj] at ho
        obtain hold | ⟨slot', ho', heq⟩ := hpub slot.start hpubk hptr
        · exact h.zero k j slot ho hptr hold
        · exact hj (h.distinct j k slot slot' ho ho' heq.symm)
    · rw [Function.update_of_ne hk] at hpubk
      obtain rfl | hj := eq_or_ne j i
      · rw [Function.update_self] at ho
        obtain hold | hnew := howned slot ho
        · exact h.zero k j slot hold hptr hpubk
        · exact hnew.2 hptr k hpubk
      · rw [Function.update_of_ne hj] at ho
        exact h.zero k j slot ho hptr hpubk

theorem look (h : Senders p q senders) (hs : p.Sound fresh q) (hok : pc.Ok p q)
    (howned : ∀ slot, pc.owned = some slot → (senders i).owned = some slot)
    (hleft : ∀ slot ∈ q.unpublished, (senders i).owned = some slot →
      pc.owned = some slot ∨ p.Settled slot)
    (hactive : ∀ slot slots, q.unpublished = slot :: slots → p.Settled slot →
      (senders i).owned = some slot ∨ (senders i).Publishing slot.start →
      pc.owned = some slot ∨ pc.Publishing slot.start)
    (hpub : ∀ pace, pc.Publishing pace → pace.ptr = 0 → (senders i).Publishing pace ∨
      ∃ slot, (senders i).owned = some slot ∧ slot.start = pace) :
    Senders p q (Function.update senders i pc) := by
  refine h.update hs (Moves.refl p q) hok (fun slot ho => .inl (howned slot ho)) hpub ?_ ?_
  · intro slot hmem
    by_cases hset : p.Settled slot
    · exact .inl hset
    by_cases ho : (senders i).owned = some slot
    · exact .inr ((hleft slot hmem ho).symm.elim (fun hset' => absurd hset' hset) .inl)
    · exact .inr (.inr ⟨hmem, hset, ho⟩)
  · intro slot slots hq hset
    by_cases ha : (senders i).owned = some slot ∨ (senders i).Publishing slot.start
    · exact (hactive slot slots hq hset ha).imp_right .inl
    · rw [not_or] at ha
      exact .inr (.inr ⟨⟨slots, hq⟩, hset, ha⟩)

theorem look_free (h : Senders p q senders) (hs : p.Sound fresh q) (hok : pc.Ok p q)
    (hfree : pc.owned = none) (hnone : (senders i).owned = none)
    (hnot : ∀ slot slots, q.unpublished = slot :: slots → p.Settled slot →
      ¬ (senders i).Publishing slot.start)
    (hquiet : ∀ pace, ¬ pc.Publishing pace) : Senders p q (Function.update senders i pc) := by
  refine h.look hs hok (fun slot ho => ?_) (fun slot _ ho => ?_) (fun slot slots hq hset ha => ?_)
    fun pace hpub => absurd hpub (hquiet pace)
  · rw [hfree] at ho
    exact nomatch ho
  · rw [hnone] at ho
    exact nomatch ho
  · obtain ho | hpub := ha
    · rw [hnone] at ho
      exact nomatch ho
    · exact absurd hpub (hnot slot slots hq hset)

end Senders

namespace SharedPipe.Sound

variable {fresh : ℕ → UInt8} {p : SharedPipe} {q : PipeSlots} {slot : PipeSlot}
  {slots : List PipeSlot} {pace : Pace} {msg : PipeMsg}

theorem start_of_settled (h : p.Sound fresh q) (hq : q.unpublished = slot :: slots)
    (hset : p.Settled slot) : slot.start = p.paceFrom := by
  obtain hptr | heq := hset.2
  · have hrest := h.rest
    rw [hq] at hrest
    have hstart : slot.start = q.reached := by
      obtain heq | ⟨heq, -⟩ := hrest.1
      · exact heq
      · exact absurd (congrArg Pace.ptr heq) hptr
    obtain hfrom | ⟨slot', slots', hq', hfrom⟩ := h.front
    · exact hstart.trans hfrom.symm
    · rw [hq] at hq'
      cases hq'
      exact hfrom.symm
  · exact heq.symm

theorem space_fits (h : p.Sound fresh q) (hreceiver : p.paceReceiver = q.cleared)
    (hspace : p.space p.paceTo msg = some slot) : p.Fits q.cleared p.paceTo slot := by
  have hsize := h.size
  have hinside := h.inside
  have hround := h.round
  have hbehind := h.behindReceiver
  have hle := h.cleared_le.trans h.from_le
  have hptr : p.m.receiverPace = q.cleared.ptr := congrArg Pace.ptr hreceiver
  have hoff : kMsgOffset = 8 := rfl
  rw [Pace.le_def] at hle
  obtain ⟨r, hr, rfl⟩ := Option.map_eq_some_iff.mp hspace
  rw [MPSCFixedPipe.reserveSpaceForSend] at hr
  simp only [Pace.packed, hptr, hoff] at hr
  split_ifs at hr with hlong hpace hend hrewind hfit
  · cases hr
    exact ⟨.inl ⟨rfl, rfl⟩, hend, Nat.le_of_not_lt hlong, hround, fun heq => by
      have := hbehind heq
      omega⟩
  · cases hr
    have hto : p.paceTo.round = q.cleared.round := by omega
    refine ⟨.inr ⟨rfl, rfl⟩, ?_, Nat.le_of_not_lt hlong, Nat.succ_le_succ (Nat.le_of_eq hto),
      fun _ => ?_⟩
    · rw [PipeSlot.stop_ptr]
      dsimp only
      omega
    · rw [PipeSlot.stop_ptr]
      dsimp only
      omega
  · cases hr
    refine ⟨.inl ⟨rfl, rfl⟩, ?_, Nat.le_of_not_lt hlong, hround, fun _ => ?_⟩
    · rw [PipeSlot.stop_ptr]
      dsimp only
      omega
    · rw [PipeSlot.stop_ptr]
      dsimp only
      omega

end SharedPipe.Sound

namespace PipeSlots

def reserve (q : PipeSlots) (slot : PipeSlot) : PipeSlots :=
  { q with unpublished := q.unpublished ++ [slot] }

def publish (q : PipeSlots) (slot : PipeSlot) (slots : List PipeSlot) : PipeSlots :=
  { q with published := q.published ++ [slot], reached := slot.stop, unpublished := slots }

end PipeSlots

namespace SharedPipe

variable {fresh mem : ℕ → UInt8} {p : SharedPipe} {q : PipeSlots} {slot : PipeSlot}
  {slots : List PipeSlot} {pace : Pace} {mine : PipeSlot → Prop}

theorem Sound.reserve (h : p.Sound fresh q) (hfits : p.Fits q.cleared p.paceTo slot) :
    (p.reserve slot).Sound fresh (q.reserve slot) where
  size := h.size
  small := h.small
  outside := h.outside
  behind := h.behind
  versionFrom := h.versionFrom
  versionTo := by
    have hversion := congrArg Prod.snd h.versionTo
    simp only [Pace.packed] at hversion
    simp only [SharedPipe.reserve, MPSCFixedPipe.setSenderPaceTo, Pace.packed, paceTo, hversion]
    obtain ⟨hstart, hbefore⟩ | ⟨hstart, hbefore⟩ := hfits.follows
    · simp only [hbefore, hstart]
      rfl
    · simp only [hbefore, hstart]
      exact congrArg (Prod.mk _) (Nat.mod_add_mod _ _ _)
  taken := h.taken
  rest := chain_append.mpr ⟨p.paceTo, h.rest, hfits.follows.imp_left And.left, rfl⟩
  front := by
    obtain hfrom | ⟨slot', slots', hq, hfrom⟩ := h.front
    · exact .inl hfrom
    · exact .inr ⟨slot', slots' ++ [slot], by rw [PipeSlots.reserve, hq]; rfl, hfrom⟩
  round := hfits.round
  behindReceiver := hfits.behindReceiver
  inside := h.inside
  fits x hx := by
    rw [PipeSlots.all, PipeSlots.reserve, ← List.append_assoc] at hx
    obtain hold | hnew := List.mem_append.mp hx
    · exact h.fits x hold
    · rw [List.mem_singleton.mp hnew]
      exact ⟨hfits.inside, hfits.short⟩
  blank i hi hfree := h.blank i hi fun x hx => hfree x (by
    rw [PipeSlots.all, PipeSlots.reserve, ← List.append_assoc]
    exact List.mem_append_left _ hx)
  holds := h.holds
  order := by
    have horder := h.order
    simp only [SharedPipe.reserve, PipeSlots.reserve, horder]
    simp

theorem Moves.reserve (hfits : p.Fits q.cleared p.paceTo slot) :
    p.Moves q (p.reserve slot) (q.reserve slot) mine where
  sizePipe := rfl
  maxSizeContent := rfl
  to_le := by
    have hle : p.paceTo ≤ slot.start := PipeSlot.Follows.le (hfits.follows.imp_left And.left)
    exact hle.trans slot.start_le_stop
  from_le := le_rfl
  cleared_le := le_rfl
  stays x hx _ := .inl ⟨List.mem_append_left _ hx, fun _ => id, fun _ _ _ => rfl⟩
  head _ x xs hq hready := ⟨⟨xs ++ [slot], by rw [PipeSlots.reserve, hq]; rfl⟩, hready⟩
  nonempty _ hne := List.append_ne_nil_of_left_ne_nil hne _
  still _ _ _ _ _ := rfl

/-- The bytes of a slot are blank when it is reserved. -/
theorem Sound.blank_of_fits (h : p.Sound fresh q) (hfits : p.Fits q.cleared p.paceTo slot) :
    sizeAt p.m.pipe slot.start.ptr = kBlank := by
  have hnew := h.reserve hfits
  have hstop := hfits.inside
  rw [PipeSlot.stop_ptr] at hstop
  refine h.size_blank (by omega) fun x hx => ?_
  have hx' : x ∈ (q.reserve slot).all := by
    rw [PipeSlots.all, PipeSlots.reserve, ← List.append_assoc]
    exact List.mem_append_left _ hx
  have hslot : slot ∈ (q.reserve slot).all :=
    Sound.mem_all (List.mem_append_right _ (List.mem_singleton_self _))
  have hle : x.stop ≤ slot.start := (h.chain.bounds hx).2.trans
    (PipeSlot.Follows.le (hfits.follows.imp_left And.left))
  have hne : x.start ≠ slot.start := by
    intro heq
    rw [← heq] at hle
    simp only [Pace.le_def, PipeSlot.stop_round, PipeSlot.stop_ptr] at hle
    omega
  have hapart := hnew.apart hx' hslot hne
  rw [slot.stop_ptr] at hapart
  omega

theorem Sound.publish (h : p.Sound fresh q) (hq : q.unpublished = slot :: slots)
    (hready : p.Ready slot) :
    (p.setPaceFrom slot.stop).Sound fresh (q.publish slot slots) where
  size := h.size
  small := h.small
  outside := h.outside
  behind := h.behind
  versionFrom := rfl
  versionTo := h.versionTo
  taken := by
    have hrest := h.rest
    rw [hq] at hrest
    have htaken : Chain q.cleared (q.consuming ++ q.published ++ [slot]) slot.stop :=
      chain_append.mpr ⟨q.reached, h.taken, hrest.1, rfl⟩
    rwa [List.append_assoc] at htaken
  rest := by
    have hrest := h.rest
    rw [hq] at hrest
    exact hrest.2
  front := .inl rfl
  round := h.round
  behindReceiver := h.behindReceiver
  inside := h.inside
  fits x hx := h.fits x (by
    rw [PipeSlots.all, hq]
    simpa [PipeSlots.all, PipeSlots.publish] using hx)
  blank i hi hfree := h.blank i hi fun x hx => hfree x (by
    rw [PipeSlots.all, hq] at hx
    simpa [PipeSlots.all, PipeSlots.publish] using hx)
  holds x hx := by
    obtain hold | hnew := List.mem_append.mp hx
    · exact h.holds x hold
    · rw [List.mem_singleton.mp hnew]
      exact hready
  order := by
    have horder := h.order
    rw [hq] at horder
    change p.reserved = p.received ++ _
    simpa [PipeSlots.publish] using horder

theorem Moves.publish (hq : q.unpublished = slot :: slots)
    (hready : p.Ready slot) (hstart : slot.start = p.paceFrom)
    (hzero : mine slot → slot.start.ptr ≠ 0) :
    p.Moves q (p.setPaceFrom slot.stop) (q.publish slot slots) mine where
  sizePipe := rfl
  maxSizeContent := rfl
  to_le := le_rfl
  from_le := hstart ▸ slot.start_le_stop
  cleared_le := le_rfl
  stays x hx hmine := by
    rw [hq] at hx
    obtain rfl | hx := List.mem_cons.mp hx
    · exact .inr ⟨hready, hstart, hzero hmine, le_rfl⟩
    · refine .inl ⟨hx, fun hptr _ heq => ?_, fun _ _ _ => rfl⟩
      exact slot.stop_ptr_ne ((congrArg Pace.ptr heq).trans hptr)
  head heq := absurd (hstart.trans heq.symm) slot.start_ne_stop
  nonempty heq := absurd (hstart.trans heq.symm) slot.start_ne_stop
  still x xs hq' _ hne := by
    rw [hq] at hq'
    cases hq'
    exact absurd hstart.symm hne

theorem Sound.rewind (h : p.Sound fresh q) (hq : q.unpublished = slot :: slots) :
    (p.setPaceFrom slot.start).Sound fresh q where
  size := h.size
  small := h.small
  outside := h.outside
  behind := h.behind
  versionFrom := rfl
  versionTo := h.versionTo
  taken := h.taken
  rest := h.rest
  front := .inr ⟨slot, slots, hq, rfl⟩
  round := h.round
  behindReceiver := h.behindReceiver
  inside := h.inside
  fits := h.fits
  blank := h.blank
  holds := h.holds
  order := h.order

theorem Moves.rewind (h : p.Sound fresh q) (hq : q.unpublished = slot :: slots)
    (hne : p.paceFrom ≠ slot.start) (hmine : ¬ mine slot) :
    p.Moves q (p.setPaceFrom slot.start) q mine where
  sizePipe := rfl
  maxSizeContent := rfl
  to_le := le_rfl
  from_le := h.from_le_of_mem (hq ▸ List.mem_cons_self)
  cleared_le := le_rfl
  stays x hx hx' := .inl ⟨hx, fun _ _ heq => hmine (by
    have hslot : slot ∈ q.unpublished := hq ▸ List.mem_cons_self
    rwa [h.eq_of_start (Sound.mem_all hslot) (Sound.mem_all hx) heq]), fun _ _ _ => rfl⟩
  head heq := absurd heq.symm hne
  nonempty heq := absurd heq.symm hne
  still x xs hq' hx' _ := by
    rw [hq] at hq'
    cases hq'
    exact absurd hx' hmine

theorem Moves.rewrite (h : p.Sound fresh q) (hmem : slot ∈ q.unpublished)
    (hnot : ¬ p.Ready slot) (hmine : ¬ mine slot)
    (hag : ∀ i, i < slot.start.ptr ∨ slot.stop.ptr ≤ i → mem i = p.m.pipe i) :
    p.Moves q (p.setPipe mem) q mine := by
  have hagree : ∀ x ∈ q.unpublished, x ≠ slot →
      Agree p.m.pipe mem x.start.ptr x.stop.ptr := by
    intro x hx hne i hi hlt
    have hstart : x.start ≠ slot.start := fun heq =>
      hne (h.eq_of_start (Sound.mem_all hx) (Sound.mem_all hmem) heq)
    have hapart := h.apart (Sound.mem_all hx) (Sound.mem_all hmem) hstart
    exact (hag i (by omega)).symm
  refine ⟨rfl, rfl, le_rfl, le_rfl, le_rfl, fun x hx hx' => .inl ⟨hx, fun _ => id, hagree x hx ?_⟩,
    fun _ x xs hq hready => ⟨⟨xs, hq⟩, hready.congr (hagree x (hq ▸ List.mem_cons_self) ?_)⟩,
    fun _ => id, fun _ _ _ _ _ => rfl⟩
  · rintro rfl
    exact hmine hx'
  · rintro rfl
    exact hnot hready

end SharedPipe

end Magneto
