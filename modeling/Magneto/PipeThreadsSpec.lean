import Magneto.MPSCFixedPipeSpec
import Magneto.PipeThreads

/-!
# Slots of a shared pipe

Space that senders have reserved, in the order of the paces: what is blanked,
what is published, what is still written. With what each sender knows about its
own slot, and what the others may do to it meanwhile.
-/

namespace Magneto

open Cells (read fill Agree)
open MPSCFixedPipe (sizeAt isReady kBlank kNumVersions Holds)

namespace Pace

variable {a b c : Pace}

instance : LE Pace := ⟨fun a b => a.round < b.round ∨ a.round = b.round ∧ a.ptr ≤ b.ptr⟩

theorem le_def : a ≤ b ↔ a.round < b.round ∨ a.round = b.round ∧ a.ptr ≤ b.ptr := Iff.rfl

instance : PartialOrder Pace where
  le_refl _ := .inr ⟨rfl, Nat.le_refl _⟩
  le_trans a b c h h' := by
    rw [le_def] at *
    omega
  le_antisymm a b h h' := by
    obtain ⟨p, r⟩ := a
    obtain ⟨p', r'⟩ := b
    simp only [le_def] at h h'
    obtain rfl : p = p' := by omega
    obtain rfl : r = r' := by omega
    rfl

/-- A pace that is not too old is the current one if the code takes it for that. -/
theorem eq_of_packed (h : a.packed = b.packed) (hle : a ≤ b)
    (hlt : b.round < a.round + kNumVersions) : a = b := by
  obtain ⟨p, r⟩ := a
  obtain ⟨p', r'⟩ := b
  simp only [packed, Prod.mk.injEq, le_def, kNumVersions] at h hle hlt
  obtain ⟨rfl, hr⟩ := h
  obtain rfl : r = r' := by omega
  rfl

end Pace

namespace PipeSlot

@[simp] theorem stop_ptr (slot : PipeSlot) :
    slot.stop.ptr = slot.start.ptr + (8 + slot.msg.content.length) := rfl

@[simp] theorem stop_round (slot : PipeSlot) : slot.stop.round = slot.start.round := rfl

def Follows (a : Pace) (slot : PipeSlot) : Prop :=
  slot.start = a ∨ slot.start = ⟨0, a.round + 1⟩ ∧ slot.before = some a.ptr

theorem Follows.le {a : Pace} {slot : PipeSlot} (h : slot.Follows a) : a ≤ slot.start := by
  obtain h | ⟨h, -⟩ := h
  · exact h ▸ le_rfl
  · rw [h]
    exact .inl (Nat.lt_succ_self _)

theorem start_le_stop (slot : PipeSlot) : slot.start ≤ slot.stop :=
  .inr ⟨rfl, by simp⟩

theorem stop_ptr_ne (slot : PipeSlot) : slot.stop.ptr ≠ 0 := by
  rw [stop_ptr]
  omega

theorem start_ne_stop (slot : PipeSlot) : slot.start ≠ slot.stop := by
  intro heq
  have := congrArg Pace.ptr heq
  rw [stop_ptr] at this
  omega

def Chain : Pace → List PipeSlot → Pace → Prop
  | a, [], b => a = b
  | a, slot :: slots, b => slot.Follows a ∧ Chain slot.stop slots b

variable {a b c : Pace} {slot slot' : PipeSlot} {xs ys : List PipeSlot}

theorem Chain.le (h : Chain a xs b) : a ≤ b := by
  induction xs generalizing a with
  | nil => exact h ▸ le_rfl
  | cons x xs ih => exact (h.1.le.trans x.start_le_stop).trans (ih h.2)

theorem chain_append : Chain a (xs ++ ys) b ↔ ∃ c, Chain a xs c ∧ Chain c ys b := by
  induction xs generalizing a with
  | nil => exact ⟨fun h => ⟨a, rfl, h⟩, fun ⟨c, hc, h⟩ => (show a = c from hc) ▸ h⟩
  | cons x xs ih =>
    constructor
    · rintro ⟨hx, h⟩
      obtain ⟨c, hc, hy⟩ := ih.mp h
      exact ⟨c, ⟨hx, hc⟩, hy⟩
    · rintro ⟨c, ⟨hx, hc⟩, hy⟩
      exact ⟨hx, ih.mpr ⟨c, hc, hy⟩⟩

theorem Chain.bounds (h : Chain a xs b) (hmem : slot ∈ xs) : a ≤ slot.start ∧ slot.stop ≤ b := by
  induction xs generalizing a with
  | nil => exact nomatch hmem
  | cons x xs ih =>
    obtain rfl | hmem := List.mem_cons.mp hmem
    · exact ⟨h.1.le, h.2.le⟩
    · obtain ⟨hstart, hstop⟩ := ih h.2 hmem
      exact ⟨(h.1.le.trans x.start_le_stop).trans hstart, hstop⟩

theorem Chain.ordered (h : Chain a xs b) (hmem : slot ∈ xs) (hmem' : slot' ∈ xs) :
    slot = slot' ∨ slot.stop ≤ slot'.start ∨ slot'.stop ≤ slot.start := by
  induction xs generalizing a with
  | nil => exact nomatch hmem
  | cons x xs ih =>
    obtain rfl | hin := List.mem_cons.mp hmem
    · obtain rfl | hin' := List.mem_cons.mp hmem'
      · exact .inl rfl
      · exact .inr (.inl (h.2.bounds hin').1)
    · obtain rfl | hin' := List.mem_cons.mp hmem'
      · exact .inr (.inr (h.2.bounds hin).1)
      · exact ih h.2 hin hin'

end PipeSlot

open PipeSlot (Follows Chain chain_append)

/-- The slots of a pipe from the first byte that is not cleared on: the message that is being
blanked, those that are published, up to `reached`, and those of the senders at work. -/
structure PipeSlots where
  cleared : Pace
  consuming : List PipeSlot
  published : List PipeSlot
  reached : Pace
  unpublished : List PipeSlot

def PipeSlots.all (q : PipeSlots) : List PipeSlot := q.consuming ++ q.published ++ q.unpublished

structure SharedPipe.Sound (fresh : ℕ → UInt8) (p : SharedPipe) (q : PipeSlots) : Prop where
  size : p.m.maxSizeContent + 8 < p.m.sizePipe
  small : p.m.maxSizeContent < 2 ^ 31 - 1
  outside : ∀ i, p.m.sizePipe ≤ i → p.m.pipe i = fresh i
  behind : ∀ i ≤ p.m.sizePipe, isReady (sizeAt (fill fresh 0 p.m.sizePipe 255) i) = false
  versionFrom : p.m.senderPaceFrom = p.paceFrom.packed
  versionTo : p.m.senderPaceTo = p.paceTo.packed
  taken : Chain q.cleared (q.consuming ++ q.published) q.reached
  rest : Chain q.reached q.unpublished p.paceTo
  front : p.paceFrom = q.reached ∨
    ∃ slot slots, q.unpublished = slot :: slots ∧ p.paceFrom = slot.start
  round : p.paceTo.round ≤ q.cleared.round + 1
  behindReceiver : p.paceTo.round = q.cleared.round + 1 → p.paceTo.ptr < q.cleared.ptr
  inside : q.cleared.ptr ≤ p.m.sizePipe
  fits : ∀ slot ∈ q.all, slot.stop.ptr ≤ p.m.sizePipe ∧
    slot.msg.content.length ≤ p.m.maxSizeContent
  blank : ∀ i < p.m.sizePipe, (∀ slot ∈ q.all, i < slot.start.ptr ∨ slot.stop.ptr ≤ i) →
    p.m.pipe i = 255
  holds : ∀ slot ∈ q.published, Holds p.m.pipe slot.start.ptr slot.msg
  order : p.reserved = p.received ++ (q.published ++ q.unpublished).map PipeSlot.msg

namespace SharedPipe.Sound

variable {fresh : ℕ → UInt8} {p : SharedPipe} {q : PipeSlots} {slot slot' : PipeSlot}
  {slots : List PipeSlot} {mem : ℕ → UInt8}

theorem chain (h : p.Sound fresh q) : Chain q.cleared q.all p.paceTo :=
  chain_append.mpr ⟨q.reached, h.taken, h.rest⟩

theorem mem_all (hmem : slot ∈ q.unpublished) : slot ∈ q.all := List.mem_append_right _ hmem

theorem mem_all' (hmem : slot ∈ q.published) : slot ∈ q.all :=
  List.mem_append_left _ (List.mem_append_right _ hmem)

theorem short (h : p.Sound fresh q) (hmem : slot ∈ q.all) :
    slot.msg.content.length < 2 ^ 31 - 1 := Nat.lt_of_le_of_lt (h.fits slot hmem).2 h.small

theorem reached_le (h : p.Sound fresh q) : q.reached ≤ p.paceFrom := by
  obtain hfrom | ⟨slot, slots, hq, hfrom⟩ := h.front
  · exact hfrom ▸ le_rfl
  · have hrest := h.rest
    rw [hq] at hrest
    exact hfrom ▸ hrest.1.le

theorem cleared_le (h : p.Sound fresh q) : q.cleared ≤ p.paceFrom := h.taken.le.trans h.reached_le

theorem from_le_of_mem (h : p.Sound fresh q) (hmem : slot ∈ q.unpublished) :
    p.paceFrom ≤ slot.start := by
  obtain hfrom | ⟨slot', slots, hq, hfrom⟩ := h.front
  · exact hfrom ▸ (h.rest.bounds hmem).1
  · have hrest := h.rest
    rw [hq] at hrest hmem
    obtain rfl | hmem := List.mem_cons.mp hmem
    · exact hfrom ▸ le_rfl
    · exact hfrom ▸ slot'.start_le_stop.trans (hrest.2.bounds hmem).1

theorem from_le (h : p.Sound fresh q) : p.paceFrom ≤ p.paceTo := by
  obtain hfrom | ⟨slot', slots, hq, hfrom⟩ := h.front
  · exact hfrom ▸ h.rest.le
  · have hrest := h.rest
    rw [hq] at hrest
    exact hfrom ▸ slot'.start_le_stop.trans hrest.2.le

theorem apart (h : p.Sound fresh q) (hmem : slot ∈ q.all) (hmem' : slot' ∈ q.all)
    (hne : slot.start ≠ slot'.start) :
    slot.stop.ptr ≤ slot'.start.ptr ∨ slot'.stop.ptr ≤ slot.start.ptr := by
  have hround := h.round
  have hbehind := h.behindReceiver
  obtain ⟨h₁, h₂⟩ := h.chain.bounds hmem
  obtain ⟨h₁', h₂'⟩ := h.chain.bounds hmem'
  simp only [Pace.le_def, PipeSlot.stop_round, PipeSlot.stop_ptr] at *
  obtain rfl | hle | hle := h.chain.ordered hmem hmem'
  · exact absurd rfl hne
  · simp only [Pace.le_def, PipeSlot.stop_round, PipeSlot.stop_ptr] at hle
    omega
  · simp only [Pace.le_def, PipeSlot.stop_round, PipeSlot.stop_ptr] at hle
    omega

theorem eq_of_start (h : p.Sound fresh q) (hmem : slot ∈ q.all) (hmem' : slot' ∈ q.all)
    (heq : slot.start = slot'.start) : slot = slot' := by
  obtain heq' | hle | hle := h.chain.ordered hmem hmem'
  · exact heq'
  all_goals
    simp only [Pace.le_def, PipeSlot.stop_round, PipeSlot.stop_ptr, heq] at hle
    omega

/-- The bytes behind the last slot of a round are blank, up to the end of the buffer. -/
theorem not_ready (h : p.Sound fresh q) {i : ℕ} (hi : i ≤ p.m.sizePipe)
    (hfree : ∀ slot ∈ q.all, slot.stop.ptr ≤ i) : isReady (sizeAt p.m.pipe i) = false := by
  have hag : Agree p.m.pipe (fill fresh 0 p.m.sizePipe 255) (i + 4) (i + 8) := by
    intro j hj _
    by_cases hlt : j < p.m.sizePipe
    · rw [h.blank j hlt fun slot hmem => .inr ((hfree slot hmem).trans (by omega))]
      exact (if_pos ⟨Nat.zero_le _, hlt⟩).symm
    · rw [h.outside j (Nat.le_of_not_lt hlt)]
      exact (if_neg fun hlt' => hlt hlt'.2).symm
  rw [MPSCFixedPipe.sizeAt_congr hag]
  exact h.behind i hi

theorem size_blank (h : p.Sound fresh q) {i : ℕ} (hi : i + 8 ≤ p.m.sizePipe)
    (hfree : ∀ slot ∈ q.all, slot.stop.ptr ≤ i ∨ i + 8 ≤ slot.start.ptr) :
    sizeAt p.m.pipe i = kBlank := by
  refine MPSCFixedPipe.sizeAt_blank (q := i + 8) (fun j hj hlt => ?_) (Nat.le_refl _)
  refine h.blank j (by omega) fun slot hmem => ?_
  have := hfree slot hmem
  omega

theorem rewrite (h : p.Sound fresh q) (hmem : slot ∈ q.unpublished)
    (hag : ∀ i, i < slot.start.ptr ∨ slot.stop.ptr ≤ i → mem i = p.m.pipe i) :
    (p.setPipe mem).Sound fresh q where
  size := h.size
  small := h.small
  outside i hi := (hag i (.inr ((h.fits slot (mem_all hmem)).1.trans hi))).trans (h.outside i hi)
  behind := h.behind
  versionFrom := h.versionFrom
  versionTo := h.versionTo
  taken := h.taken
  rest := h.rest
  front := h.front
  round := h.round
  behindReceiver := h.behindReceiver
  inside := h.inside
  fits := h.fits
  blank i hi hfree := (hag i (hfree slot (mem_all hmem))).trans (h.blank i hi hfree)
  holds x hx := by
    have hle := (h.taken.bounds (List.mem_append_right _ hx)).2
    have hge := (h.rest.bounds hmem).1
    have hne : slot.start ≠ x.start := by
      intro heq
      have hcut := hle.trans hge
      rw [heq] at hcut
      simp only [Pace.le_def, PipeSlot.stop_round, PipeSlot.stop_ptr] at hcut
      omega
    have hapart := h.apart (mem_all hmem) (mem_all' hx) hne
    refine (h.holds x hx).congr fun i hi hlt => (hag i ?_).symm
    rw [PipeSlot.stop_ptr, PipeSlot.stop_ptr] at *
    omega
  order := h.order

end SharedPipe.Sound

namespace SharedPipe

structure Fits (p : SharedPipe) (cleared pace : Pace) (slot : PipeSlot) : Prop where
  follows : slot.start = pace ∧ slot.before = none ∨
    slot.start = ⟨0, pace.round + 1⟩ ∧ slot.before = some pace.ptr
  inside : slot.stop.ptr ≤ p.m.sizePipe
  short : slot.msg.content.length ≤ p.m.maxSizeContent
  round : slot.start.round ≤ cleared.round + 1
  behindReceiver : slot.start.round = cleared.round + 1 → slot.stop.ptr < cleared.ptr

theorem Fits.mono {p p' : SharedPipe} {cleared cleared' pace : Pace} {slot : PipeSlot}
    (h : p.Fits cleared pace slot) (hle : cleared ≤ cleared')
    (hsize : p'.m.sizePipe = p.m.sizePipe) (hmax : p'.m.maxSizeContent = p.m.maxSizeContent) :
    p'.Fits cleared' pace slot where
  follows := h.follows
  inside := hsize ▸ h.inside
  short := hmax ▸ h.short
  round := by
    have := h.round
    rw [Pace.le_def] at hle
    omega
  behindReceiver heq := by
    have := h.round
    have hb := h.behindReceiver
    rw [Pace.le_def] at hle
    omega

def Ready (p : SharedPipe) (slot : PipeSlot) : Prop := Holds p.m.pipe slot.start.ptr slot.msg

/-- Ready, and not the first of a round that `sender_pace_from_` has not begun. -/
def Settled (p : SharedPipe) (slot : PipeSlot) : Prop :=
  p.Ready slot ∧ (slot.start.ptr ≠ 0 ∨ p.paceFrom = slot.start)

end SharedPipe

namespace SenderPc

open SharedPipe (Fits)

def owned : SenderPc → Option PipeSlot
  | storeHeader slot | storeSize slot | storeContent slot | setReady slot | loadFrom slot
  | spin slot _ | rewind slot _ => some slot
  | _ => none

def Publishing (pace : Pace) : SenderPc → Prop
  | measure old | casFrom old _ | checkTo old | checkReady old => old = pace
  | _ => False

def Ok (p : SharedPipe) (q : PipeSlots) : SenderPc → Prop
  | idle | loadTo _ _ => True
  | loadReceiver _ _ pace => pace ≤ p.paceTo
  | casTo _ _ pace slot => pace ≤ p.paceTo ∧ (pace = p.paceTo → p.Fits q.cleared pace slot)
  | storeHeader slot => slot ∈ q.unpublished ∧ sizeAt p.m.pipe slot.start.ptr = kBlank
  | storeSize slot => slot ∈ q.unpublished ∧ sizeAt p.m.pipe slot.start.ptr = kBlank ∧
      p.m.pipe slot.start.ptr = slot.msg.header
  | storeContent slot => slot ∈ q.unpublished ∧
      sizeAt p.m.pipe slot.start.ptr = slot.msg.content.length ∧
      p.m.pipe slot.start.ptr = slot.msg.header
  | setReady slot => slot ∈ q.unpublished ∧
      sizeAt p.m.pipe slot.start.ptr = slot.msg.content.length ∧
      p.m.pipe slot.start.ptr = slot.msg.header ∧
      read p.m.pipe (slot.start.ptr + 8) slot.msg.content.length = slot.msg.content
  | loadFrom slot => slot ∈ q.unpublished ∧ p.Ready slot ∨
      slot.start.ptr ≠ 0 ∧ slot.stop ≤ p.paceFrom
  | spin slot round => slot ∈ q.unpublished ∧ p.Ready slot ∧ p.paceFrom ≠ slot.start ∧
      slot.start = ⟨0, round + 1⟩
  | rewind slot round => (∃ slots, q.unpublished = slot :: slots) ∧ p.Ready slot ∧
      p.paceFrom ≠ slot.start ∧ slot.start = ⟨0, round + 1⟩
  | measure old => old ≤ p.paceFrom ∧ (old = p.paceFrom →
      ∃ slot slots, q.unpublished = slot :: slots ∧ slot.start = old ∧ p.Ready slot)
  | casFrom old size => old ≤ p.paceFrom ∧ (old = p.paceFrom →
      ∃ slot slots, q.unpublished = slot :: slots ∧ slot.start = old ∧ p.Ready slot ∧
        size = 8 + slot.msg.content.length)
  | checkTo pace => pace.ptr ≠ 0 ∧ pace ≤ p.paceFrom
  | checkReady pace => pace.ptr ≠ 0 ∧ pace ≤ p.paceFrom ∧ (pace = p.paceFrom → q.unpublished ≠ [])

end SenderPc

structure SharedPipe.Moves (p : SharedPipe) (q : PipeSlots) (p' : SharedPipe) (q' : PipeSlots)
    (mine : PipeSlot → Prop) : Prop where
  sizePipe : p'.m.sizePipe = p.m.sizePipe
  maxSizeContent : p'.m.maxSizeContent = p.m.maxSizeContent
  to_le : p.paceTo ≤ p'.paceTo
  from_le : p.paceFrom ≤ p'.paceFrom
  cleared_le : q.cleared ≤ q'.cleared
  stays : ∀ slot ∈ q.unpublished, mine slot →
    slot ∈ q'.unpublished ∧
      (slot.start.ptr = 0 → p.paceFrom ≠ slot.start → p'.paceFrom ≠ slot.start) ∧
      Agree p.m.pipe p'.m.pipe slot.start.ptr slot.stop.ptr ∨
    p.Ready slot ∧ slot.start = p.paceFrom ∧ slot.start.ptr ≠ 0 ∧ slot.stop ≤ p'.paceFrom
  head : p'.paceFrom = p.paceFrom → ∀ slot slots, q.unpublished = slot :: slots → p.Ready slot →
    (∃ slots', q'.unpublished = slot :: slots') ∧ p'.Ready slot
  nonempty : p'.paceFrom = p.paceFrom → q.unpublished ≠ [] → q'.unpublished ≠ []
  still : ∀ slot slots, q.unpublished = slot :: slots → mine slot → p.paceFrom ≠ slot.start →
    p'.paceFrom = p.paceFrom

namespace SharedPipe

variable {p p' : SharedPipe} {q q' : PipeSlots} {mine : PipeSlot → Prop} {slot : PipeSlot}

theorem Ready.congr (h : p.Ready slot)
    (hag : Agree p.m.pipe p'.m.pipe slot.start.ptr slot.stop.ptr) : p'.Ready slot :=
  Holds.congr h (by rwa [PipeSlot.stop_ptr, ← Nat.add_assoc] at hag)

theorem not_ready_of_size (h : sizeAt p.m.pipe slot.start.ptr = slot.msg.content.length) :
    ¬ p.Ready slot := by
  intro hready
  have := hready.size
  omega

theorem not_ready_of_blank (h : sizeAt p.m.pipe slot.start.ptr = kBlank)
    (hshort : slot.msg.content.length < 2 ^ 31 - 1) : ¬ p.Ready slot :=
  fun hready => hready.ne_blank hshort h

theorem Moves.refl (p : SharedPipe) (q : PipeSlots) : p.Moves q p q mine where
  sizePipe := rfl
  maxSizeContent := rfl
  to_le := le_rfl
  from_le := le_rfl
  cleared_le := le_rfl
  stays _ hmem _ := .inl ⟨hmem, fun _ => id, fun _ _ _ => rfl⟩
  head _ _ slots hq hready := ⟨⟨slots, hq⟩, hready⟩
  nonempty _ := id
  still _ _ _ _ _ := rfl

end SharedPipe

namespace SenderPc

variable {fresh : ℕ → UInt8} {p p' : SharedPipe} {q q' : PipeSlots} {mine : PipeSlot → Prop}
  {pc : SenderPc}

theorem stays_of_not_ready {slot : PipeSlot} (hm : p.Moves q p' q' mine) (hmine : mine slot)
    (hmem : slot ∈ q.unpublished) (hnot : ¬ p.Ready slot) :
    slot ∈ q'.unpublished ∧ Agree p.m.pipe p'.m.pipe slot.start.ptr slot.stop.ptr := by
  obtain ⟨h, -, hag⟩ | ⟨hready, -⟩ := hm.stays slot hmem hmine
  · exact ⟨h, hag⟩
  · exact absurd hready hnot

theorem size_congr {mem mem' : ℕ → UInt8} {slot : PipeSlot}
    (hag : Agree mem mem' slot.start.ptr slot.stop.ptr) :
    sizeAt mem' slot.start.ptr = sizeAt mem slot.start.ptr :=
  MPSCFixedPipe.sizeAt_congr (hag.mono (by omega) (by rw [PipeSlot.stop_ptr]; omega)).symm

theorem header_congr {mem mem' : ℕ → UInt8} {slot : PipeSlot}
    (hag : Agree mem mem' slot.start.ptr slot.stop.ptr) :
    mem' slot.start.ptr = mem slot.start.ptr :=
  (hag _ (Nat.le_refl _) (by rw [PipeSlot.stop_ptr]; omega)).symm

theorem Ok.moves (h : pc.Ok p q) (hs : p.Sound fresh q) (hm : p.Moves q p' q' mine)
    (hmine : ∀ slot, pc.owned = some slot → mine slot) : pc.Ok p' q' := by
  cases pc with
  | idle => trivial
  | loadTo msg tries => trivial
  | loadReceiver msg tries pace => exact le_trans h hm.to_le
  | casTo msg tries pace slot =>
    refine ⟨h.1.trans hm.to_le, fun heq => ?_⟩
    have hto : pace = p.paceTo := le_antisymm h.1 (heq ▸ hm.to_le)
    exact (h.2 hto).mono hm.cleared_le hm.sizePipe hm.maxSizeContent
  | storeHeader slot =>
    obtain ⟨hmem, hag⟩ := stays_of_not_ready hm (hmine slot rfl) h.1
      (SharedPipe.not_ready_of_blank h.2 (hs.short (SharedPipe.Sound.mem_all h.1)))
    exact ⟨hmem, (size_congr hag).trans h.2⟩
  | storeSize slot =>
    obtain ⟨hmem, hag⟩ := stays_of_not_ready hm (hmine slot rfl) h.1
      (SharedPipe.not_ready_of_blank h.2.1 (hs.short (SharedPipe.Sound.mem_all h.1)))
    exact ⟨hmem, (size_congr hag).trans h.2.1, (header_congr hag).trans h.2.2⟩
  | storeContent slot =>
    obtain ⟨hmem, hag⟩ := stays_of_not_ready hm (hmine slot rfl) h.1
      (SharedPipe.not_ready_of_size h.2.1)
    exact ⟨hmem, (size_congr hag).trans h.2.1, (header_congr hag).trans h.2.2⟩
  | setReady slot =>
    obtain ⟨hmem, hsize, hheader, hcontent⟩ := h
    obtain ⟨hmem', hag⟩ := stays_of_not_ready hm (hmine slot rfl) hmem
      (SharedPipe.not_ready_of_size hsize)
    refine ⟨hmem', (size_congr hag).trans hsize, (header_congr hag).trans hheader, ?_⟩
    rw [← Cells.read_congr (hag.mono (by omega) (by rw [PipeSlot.stop_ptr]; omega))]
    exact hcontent
  | loadFrom slot =>
    obtain ⟨hmem, hready⟩ | ⟨hptr, hstop⟩ := h
    · obtain ⟨hmem', -, hag⟩ | ⟨-, -, hptr, hstop⟩ := hm.stays slot hmem (hmine slot rfl)
      · exact .inl ⟨hmem', hready.congr hag⟩
      · exact .inr ⟨hptr, hstop⟩
    · exact .inr ⟨hptr, hstop.trans hm.from_le⟩
  | spin slot round =>
    obtain ⟨hmem, hready, hstart, hround⟩ := h
    obtain ⟨hmem', hne, hag⟩ | ⟨-, heq, -⟩ := hm.stays slot hmem (hmine slot rfl)
    · exact ⟨hmem', hready.congr hag, hne (congrArg Pace.ptr hround) hstart, hround⟩
    · exact absurd heq.symm hstart
  | rewind slot round =>
    obtain ⟨⟨slots, hq⟩, hready, hstart, hround⟩ := h
    have hfrom := hm.still slot slots hq (hmine slot rfl) hstart
    obtain ⟨hq', hready'⟩ := hm.head hfrom slot slots hq hready
    exact ⟨hq', hready', hfrom ▸ hstart, hround⟩
  | measure old =>
    refine ⟨h.1.trans hm.from_le, fun heq => ?_⟩
    have hold : old = p.paceFrom := le_antisymm h.1 (heq ▸ hm.from_le)
    obtain ⟨slot, slots, hq, hstart, hready⟩ := h.2 hold
    obtain ⟨⟨slots', hq'⟩, hready'⟩ := hm.head (heq.symm.trans hold) slot slots hq hready
    exact ⟨slot, slots', hq', hstart, hready'⟩
  | casFrom old size =>
    refine ⟨h.1.trans hm.from_le, fun heq => ?_⟩
    have hold : old = p.paceFrom := le_antisymm h.1 (heq ▸ hm.from_le)
    obtain ⟨slot, slots, hq, hstart, hready, hsize⟩ := h.2 hold
    obtain ⟨⟨slots', hq'⟩, hready'⟩ := hm.head (heq.symm.trans hold) slot slots hq hready
    exact ⟨slot, slots', hq', hstart, hready', hsize⟩
  | checkTo pace => exact ⟨h.1, h.2.trans hm.from_le⟩
  | checkReady pace =>
    obtain ⟨hptr, hle, hne⟩ := h
    refine ⟨hptr, hle.trans hm.from_le, fun heq => ?_⟩
    have hold : pace = p.paceFrom := le_antisymm hle (heq ▸ hm.from_le)
    exact hm.nonempty (heq.symm.trans hold) (hne hold)

end SenderPc

/-- The senders together: each slot that is not published has its sender, until it is settled;
and a sender is at work on the first one. -/
structure Senders (p : SharedPipe) (q : PipeSlots) (senders : ℕ → SenderPc) : Prop where
  ok : ∀ i, (senders i).Ok p q
  distinct : ∀ i j slot slot', (senders i).owned = some slot → (senders j).owned = some slot' →
    slot.start = slot'.start → i = j
  attended : ∀ slot ∈ q.unpublished, p.Settled slot ∨ ∃ i, (senders i).owned = some slot
  active : ∀ slot slots, q.unpublished = slot :: slots → p.Settled slot →
    ∃ i, (senders i).owned = some slot ∨ (senders i).Publishing slot.start
  zero : ∀ i j slot, (senders j).owned = some slot → slot.start.ptr = 0 →
    ¬ (senders i).Publishing slot.start

end Magneto
