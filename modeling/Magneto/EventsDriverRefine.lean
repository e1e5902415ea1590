import Magneto.EventsDriverTimers
import Magneto.AgentSlave

/-!
# The stored driver refines the map of descriptors

The agents are modelled over a driver that maps a descriptor to its context, its
direction and its expiry. Here that map is read off the stored tables, and every
operation of the tables is shown to act on it as the operation of the map does,
provided that only unregistered descriptors are added.
-/

namespace Magneto

namespace EventsDriver

namespace Tables

variable {Context : Type*} {d d' : Tables Context} {fd : ℕ}

def slot (d : Tables Context) (fd : ℕ) : Option (Context × Direction × Option ℤ) :=
  (d.epoll fd).bind fun direction =>
    (d.fdToEventCtx fd).context.map fun context => (context, direction, d.expireOf fd)

structure Sound (d : Tables Context) : Prop where
  owned : d.Owned
  kept : ∀ sign timeo, ¬ d.Stale sign timeo
  registered : ∀ fd, (d.epoll fd).isSome → (d.fdToEventCtx fd).context.isSome
  unregistered : ∀ fd, d.epoll fd = none → d.expireOf fd = none
  vector : ∀ fd, d.sizeCtx ≤ fd → d.epoll fd = none

theorem sound_init (fresh : ℕ → HeapItem EventTimeo) : (init fresh : Tables Context).Sound where
  owned := ⟨HeapBase.sound_init fresh (by decide), fun _ _ hs => nomatch hs⟩
  kept := fun sign timeo hs => by
    have hnone : (HeapBase.init fresh HeapBase.DefaultSizeHeap).contents sign = none :=
      HeapBase.Sound.contents_of_empty rfl sign
    have hsome := hs.1
    rw [show (init fresh : Tables Context).heapTimeo =
      HeapBase.init fresh HeapBase.DefaultSizeHeap from rfl, hnone] at hsome
    cases hsome
  registered := fun _ h => nomatch h
  unregistered := fun _ _ => rfl
  vector := fun _ _ => rfl

theorem heapTimeo_resize (fd : ℕ) : (d.resize fd).heapTimeo = d.heapTimeo := by
  unfold resize
  split_ifs <;> rfl

theorem epoll_resize (fd : ℕ) : (d.resize fd).epoll = d.epoll := by
  unfold resize
  split_ifs <;> rfl

theorem entry_resize (fd fd' : ℕ) : (d.resize fd).fdToEventCtx fd' =
    if d.sizeCtx ≤ fd' ∧ fd' ≤ fd then ⟨none, none⟩ else d.fdToEventCtx fd' := by
  unfold resize
  split_ifs with hle hin hin
  · exact if_pos hin
  · exact if_neg hin
  · omega
  · rfl

theorem epoll_eraseTimer (fd : ℕ) : (d.eraseTimer fd).epoll = d.epoll := by
  unfold eraseTimer
  split <;> rfl

theorem context_eraseTimer (fd fd' : ℕ) :
    ((d.eraseTimer fd).fdToEventCtx fd').context = (d.fdToEventCtx fd').context := by
  unfold eraseTimer
  split
  · exact context_setSign none fd'
  · rfl

theorem regEventDel_fst (fd : ℕ) : (d.regEventDel fd).1 = (d.epoll fd).isSome := by
  simp only [regEventDel, epoll_eraseTimer]
  split_ifs with hreg
  · exact hreg.symm
  · rw [Bool.not_eq_true] at hreg
    exact hreg.symm

theorem epoll_regEventDel (fd : ℕ) :
    (d.regEventDel fd).2.epoll = Function.update d.epoll fd none := by
  simp only [regEventDel, epoll_eraseTimer]
  split_ifs with hreg
  · rfl
  · rw [Bool.not_eq_true, Option.isSome_eq_false_iff, Option.isNone_iff_eq_none] at hreg
    rw [epoll_eraseTimer, ← hreg, Function.update_eq_self]

theorem context_regEventDel {fd' : ℕ} (hne : fd' ≠ fd) :
    ((d.regEventDel fd).2.fdToEventCtx fd').context = (d.fdToEventCtx fd').context := by
  simp only [regEventDel]
  split_ifs
  · rw [fdToEventCtx_setContext, Function.update_of_ne hne]
    exact context_eraseTimer fd fd'
  · exact context_eraseTimer fd fd'

theorem sizeCtx_regEventDel (fd : ℕ) : (d.regEventDel fd).2.sizeCtx = d.sizeCtx := by
  have herase : (d.eraseTimer fd).sizeCtx = d.sizeCtx := by
    unfold eraseTimer
    split <;> rfl
  simp only [regEventDel]
  split_ifs <;> exact herase

namespace Sound

theorem slot_eq_none (h : d.Sound) : d.slot fd = none ↔ d.epoll fd = none := by
  unfold slot
  cases he : d.epoll fd with
  | none => simp
  | some direction =>
    obtain ⟨context, hc⟩ := Option.isSome_iff_exists.mp (h.registered fd (by rw [he]; rfl))
    simp [hc]

theorem slot_eq_some (_h : d.Sound) {e : Option ℤ} {context : Context} {direction : Direction} :
    d.slot fd = some (context, direction, e) ↔ d.epoll fd = some direction ∧
      (d.fdToEventCtx fd).context = some context ∧ d.expireOf fd = e := by
  unfold slot
  cases d.epoll fd with
  | none => simp
  | some direction' =>
    cases (d.fdToEventCtx fd).context with
    | none => simp
    | some context' =>
      simp only [Option.bind_some, Option.map_some, Option.some.injEq, Prod.mk.injEq]
      constructor
      · rintro ⟨hc, hd, he⟩
        exact ⟨hd, hc, he⟩
      · rintro ⟨hd, hc, he⟩
        exact ⟨hc, hd, he⟩

theorem signTimeo_of_unlisted (h : d.Sound) (he : d.epoll fd = none) :
    (d.fdToEventCtx fd).signTimeo = none :=
  h.owned.expireOf_eq_none.mp (h.unregistered fd he)

theorem change (h : d.Sound) (howned : d'.Owned)
    (hstale : ∀ sign timeo, d'.Stale sign timeo → d.Stale sign timeo)
    (hother : ∀ fd', fd' ≠ fd → d'.epoll fd' = d.epoll fd' ∧
      (d'.fdToEventCtx fd').context = (d.fdToEventCtx fd').context ∧
        d'.expireOf fd' = d.expireOf fd')
    (hreg : (d'.epoll fd).isSome → (d'.fdToEventCtx fd).context.isSome)
    (hunreg : d'.epoll fd = none → d'.expireOf fd = none)
    (hsize : d.sizeCtx ≤ d'.sizeCtx) (hvec : d'.sizeCtx ≤ fd → d'.epoll fd = none) :
    d'.Sound ∧ d'.slot = Function.update d.slot fd (d'.slot fd) := by
  refine ⟨⟨howned, fun s t hs => h.kept s t (hstale s t hs), fun fd' => ?_, fun fd' => ?_,
    fun fd' hle => ?_⟩, funext fun fd' => ?_⟩
  · by_cases hfd : fd' = fd
    · exact hfd ▸ hreg
    · obtain ⟨he, hc, -⟩ := hother fd' hfd
      rw [he, hc]
      exact h.registered fd'
  · by_cases hfd : fd' = fd
    · exact hfd ▸ hunreg
    · obtain ⟨he, -, hx⟩ := hother fd' hfd
      rw [he, hx]
      exact h.unregistered fd'
  · by_cases hfd : fd' = fd
    · subst hfd
      exact hvec hle
    · rw [(hother fd' hfd).1]
      exact h.vector fd' (hsize.trans hle)
  · by_cases hfd : fd' = fd
    · rw [hfd, Function.update_self]
    · obtain ⟨he, hc, hx⟩ := hother fd' hfd
      rw [Function.update_of_ne hfd]
      unfold slot
      rw [he, hc, hx]

theorem resize (h : d.Sound) (fd : ℕ) :
    (d.resize fd).Sound ∧ (d.resize fd).slot = d.slot ∧ fd < (d.resize fd).sizeCtx := by
  have hsign : ∀ fd',
      ((d.resize fd).fdToEventCtx fd').signTimeo = (d.fdToEventCtx fd').signTimeo := by
    intro fd'
    rw [entry_resize]
    split_ifs with hin
    · exact (h.signTimeo_of_unlisted (h.vector fd' hin.1)).symm
    · rfl
  have hcontext : ∀ fd', (d.epoll fd').isSome →
      ((d.resize fd).fdToEventCtx fd').context = (d.fdToEventCtx fd').context := by
    intro fd' hreg
    rw [entry_resize]
    split_ifs with hin
    · rw [h.vector fd' hin.1] at hreg
      cases hreg
    · rfl
  have hexp : ∀ fd', (d.resize fd).expireOf fd' = d.expireOf fd' :=
    fun fd' => expireOf_congr (hsign fd') fun s _ => by rw [heapTimeo_resize]
  have hsize : d.sizeCtx ≤ (d.resize fd).sizeCtx ∧ fd < (d.resize fd).sizeCtx := by
    unfold Tables.resize
    split_ifs with hle
    · exact ⟨Nat.le_succ_of_le hle, Nat.lt_succ_self fd⟩
    · exact ⟨le_rfl, Nat.lt_of_not_le hle⟩
  refine ⟨⟨h.owned.congr (heapTimeo_resize fd) hsign, fun s t hs => ?_, fun fd' hreg => ?_,
    fun fd' hnone => ?_, fun fd' hle => ?_⟩, funext fun fd' => ?_, hsize.2⟩
  · exact h.kept s t ((stale_congr (heapTimeo_resize fd) hsign).mp hs)
  · rw [epoll_resize] at hreg
    rw [hcontext fd' hreg]
    exact h.registered fd' hreg
  · rw [epoll_resize] at hnone
    rw [hexp]
    exact h.unregistered fd' hnone
  · rw [epoll_resize]
    exact h.vector fd' (hsize.1.trans hle)
  · unfold slot
    rw [epoll_resize, hexp]
    cases he : d.epoll fd' with
    | none => rfl
    | some direction => rw [Option.bind_some, Option.bind_some, hcontext fd' (by rw [he]; rfl)]

theorem regEventDel_of_change (h : d.Sound) (fd : ℕ) {d₁ : Tables Context} (howned : d₁.Owned)
    (hstale : ∀ sign timeo, d₁.Stale sign timeo → d.Stale sign timeo)
    (hother : ∀ fd', fd' ≠ fd →
      (d₁.fdToEventCtx fd').context = (d.fdToEventCtx fd').context ∧
        d₁.expireOf fd' = d.expireOf fd')
    (hepoll : d₁.epoll = d.epoll) (hsize : d.sizeCtx ≤ d₁.sizeCtx) :
    (d₁.regEventDel fd).2.Sound ∧ (d₁.regEventDel fd).2.slot = Function.update d.slot fd none ∧
      (d₁.regEventDel fd).1 = (d.epoll fd).isSome := by
  have ht := howned.eraseTimer fd
  have hexp : ∀ fd', (d₁.regEventDel fd).2.expireOf fd' = (d₁.eraseTimer fd).expireOf fd' := by
    intro fd'
    refine expireOf_congr (signTimeo_regEventDel fd fd') fun s _ => ?_
    rw [heapTimeo_regEventDel]
  have hnone : (d₁.regEventDel fd).2.epoll fd = none := by
    rw [epoll_regEventDel, Function.update_self]
  have hchange : (d₁.regEventDel fd).2.Sound ∧ (d₁.regEventDel fd).2.slot =
      Function.update d.slot fd ((d₁.regEventDel fd).2.slot fd) := by
    refine h.change (howned.regEventDel fd)
      (fun s t hs => hstale s t (howned.stale_regEventDel.mp hs))
      (fun fd' hne => ⟨?_, ?_, ?_⟩) (fun hs => ?_) (fun _ => ?_) ?_ (fun _ => hnone)
    · rw [epoll_regEventDel, Function.update_of_ne hne, hepoll]
    · rw [context_regEventDel hne]
      exact (hother fd' hne).1
    · rw [hexp, ht.expire, Function.update_of_ne hne]
      exact (hother fd' hne).2
    · rw [hnone] at hs
      cases hs
    · rw [hexp, ht.expire, Function.update_self]
    · rw [sizeCtx_regEventDel]
      exact hsize
  obtain ⟨hsound, hslot⟩ := hchange
  refine ⟨hsound, ?_, ?_⟩
  · rw [hslot, hsound.slot_eq_none.mpr hnone]
  · rw [regEventDel_fst, hepoll]

theorem regEventDel (h : d.Sound) (fd : ℕ) :
    (d.regEventDel fd).2.Sound ∧ (d.regEventDel fd).2.slot = Function.update d.slot fd none ∧
      (d.regEventDel fd).1 = (d.epoll fd).isSome :=
  h.regEventDel_of_change fd h.owned (fun _ _ hs => hs) (fun _ _ => ⟨rfl, rfl⟩) rfl le_rfl

theorem register (h : d.Sound) {d₁ : Tables Context} {o : Option ℤ} (howned : d₁.Owned)
    (hstale : ∀ sign timeo, d₁.Stale sign timeo → d.Stale sign timeo)
    (hother : ∀ fd', fd' ≠ fd →
      (d₁.fdToEventCtx fd').context = (d.fdToEventCtx fd').context ∧
        d₁.expireOf fd' = d.expireOf fd')
    (hepoll : d₁.epoll = d.epoll) (hsize : d.sizeCtx ≤ d₁.sizeCtx) (hfd : fd < d₁.sizeCtx)
    {context : Context} (hcontext : (d₁.fdToEventCtx fd).context = some context)
    (ho : d₁.expireOf fd = o) (direction : Direction) :
    let d' := { d₁ with epoll := Function.update d₁.epoll fd (some direction) }
    d'.Sound ∧ d'.slot = Function.update d.slot fd (some (context, direction, o)) := by
  intro d'
  have hexp : ∀ fd', d'.expireOf fd' = d₁.expireOf fd' := fun _ => rfl
  have hlisted : d'.epoll fd = some direction := Function.update_self _ _ _
  have hchange : d'.Sound ∧ d'.slot = Function.update d.slot fd (d'.slot fd) := by
    refine h.change (howned.congr rfl fun _ => rfl) (fun s t hs => hstale s t hs)
      (fun fd' hne => ⟨?_, hother fd' hne⟩) (fun _ => ?_) (fun hs => ?_) hsize (fun hle => ?_)
    · refine (Function.update_of_ne hne _ _).trans ?_
      rw [hepoll]
    · exact Option.isSome_iff_exists.mpr ⟨context, hcontext⟩
    · rw [hlisted] at hs
      cases hs
    · exact absurd hfd (Nat.not_lt.mpr hle)
  obtain ⟨hsound, hslot⟩ := hchange
  refine ⟨hsound, ?_⟩
  rw [hslot, hsound.slot_eq_some.mpr ⟨hlisted, hcontext, (hexp fd).trans ho⟩]

theorem addTimer (h : d.Sound) (hfree : d.epoll fd = none) (context : Context)
    (timeoMs now : ℤ) :
    let d₁ := d.addTimer fd context timeoMs now
    d₁.Owned ∧ (∀ sign timeo, d₁.Stale sign timeo → d.Stale sign timeo) ∧
      (∀ fd', fd' ≠ fd → (d₁.fdToEventCtx fd').context = (d.fdToEventCtx fd').context ∧
        d₁.expireOf fd' = d.expireOf fd') ∧ d₁.epoll = d.epoll ∧ d₁.sizeCtx = d.sizeCtx ∧
          (d₁.fdToEventCtx fd).context = some context ∧
            d₁.expireOf fd = if 0 ≤ timeoMs then some (now + timeoMs) else none := by
  have hnone := h.signTimeo_of_unlisted hfree
  have hself : (d.setContext fd (some context)).fdToEventCtx fd = ⟨some context, none⟩ := by
    rw [fdToEventCtx_setContext, Function.update_self, hnone]
  have hcontext : ∀ fd', fd' ≠ fd →
      ((d.setContext fd (some context)).fdToEventCtx fd').context =
        (d.fdToEventCtx fd').context := by
    intro fd' hne
    rw [fdToEventCtx_setContext, Function.update_of_ne hne]
  have hexp : ∀ fd', (d.setContext fd (some context)).expireOf fd' = d.expireOf fd' :=
    fun fd' => expireOf_congr (signTimeo_setContext _ fd') fun _ _ => rfl
  have hstale : ∀ s t, (d.setContext fd (some context)).Stale s t → d.Stale s t := by
    intro s t
    have hiff : (d.setContext fd (some context)).Stale s t ↔ d.Stale s t :=
      stale_congr rfl (signTimeo_setContext _)
    exact hiff.mp
  have howned : (d.setContext fd (some context)).Owned :=
    h.owned.congr rfl (signTimeo_setContext _)
  simp only [Tables.addTimer]
  split_ifs with htimeo
  · have ht := howned.insertTimer fd (by rw [hself]) (now + timeoMs)
    refine ⟨ht.owned, fun s t hs => hstale s t (ht.stale s t hs), fun fd' hne => ⟨?_, ?_⟩,
      ht.epoll, ht.size, ?_, ?_⟩
    · rw [ht.context, hcontext fd' hne]
    · rw [ht.expire, Function.update_of_ne hne, hexp]
    · rw [ht.context, hself]
    · rw [ht.expire, Function.update_self]
  · have hsame : (d.setContext fd (some context)).setSign fd none =
        d.setContext fd (some context) := by
      unfold setSign
      rw [hself, ← hself, Function.update_eq_self]
    rw [hsame]
    exact ⟨howned, hstale, fun fd' hne => ⟨hcontext fd' hne, hexp fd'⟩, rfl, rfl, by rw [hself],
      howned.expireOf_eq_none.mpr (by rw [hself])⟩

theorem regEventAdd (h : d.Sound) (hfree : d.slot fd = none) (direction : Direction)
    (context : Context) (timeoMs now : ℤ) (refused : Bool) :
    let r := d.regEvent fd .kAddEvent direction context timeoMs now refused
    r.2.Sound ∧ (r.1 = !refused) ∧ r.2.slot = Function.update d.slot fd
      (if refused then none
        else some (context, direction, if 0 ≤ timeoMs then some (now + timeoMs) else none)) := by
  obtain ⟨hr, hslot, hfd⟩ := h.resize fd
  rw [← hslot] at hfree ⊢
  have hunlisted := hr.slot_eq_none.mp hfree
  obtain ⟨howned, hstale, hother, hepoll, hsize, hcontext, hexp⟩ :=
    hr.addTimer hunlisted context timeoMs now
  simp only [Tables.regEvent, hepoll, hunlisted, Option.isNone_none, Bool.true_and]
  cases refused with
  | true =>
    obtain ⟨hsound, hslot', -⟩ :=
      hr.regEventDel_of_change fd howned hstale hother hepoll hsize.ge
    exact ⟨hsound, rfl, hslot'⟩
  | false =>
    obtain ⟨hsound, hslot'⟩ := hr.register howned hstale hother hepoll hsize.ge (hsize ▸ hfd)
      hcontext hexp direction
    refine ⟨?_, rfl, ?_⟩
    · simpa [hepoll] using hsound
    · simpa [hepoll] using hslot'

theorem regEventMod (h : d.Sound) (fd : ℕ) (direction : Direction) (context : Context)
    (timeoMs now : ℤ) (refused : Bool) :
    let r := d.regEvent fd .kModEvent direction context timeoMs now refused
    r.2.Sound ∧ r.1 = ((d.slot fd).isSome && !refused) ∧ r.2.slot = Function.update d.slot fd
      (if refused then none
        else (d.slot fd).map fun s =>
          (s.1, direction, if 0 ≤ timeoMs then some (now + timeoMs) else s.2.2)) := by
  obtain ⟨hr, hslot, hfd⟩ := h.resize fd
  rw [← hslot]
  have ht := hr.owned.modTimer fd timeoMs now
  have hother : ∀ fd', fd' ≠ fd →
      (((d.resize fd).modTimer fd timeoMs now).fdToEventCtx fd').context =
          ((d.resize fd).fdToEventCtx fd').context ∧
        ((d.resize fd).modTimer fd timeoMs now).expireOf fd' = (d.resize fd).expireOf fd' := by
    intro fd' hne
    rw [ht.expire, Function.update_of_ne hne]
    exact ⟨ht.context fd', rfl⟩
  obtain ⟨hsound, hslot', -⟩ :=
    hr.regEventDel_of_change fd ht.owned ht.stale hother ht.epoll ht.size.ge
  simp only [Tables.regEvent, ht.epoll]
  cases hs : (d.resize fd).slot fd with
  | none =>
    have hunlisted := hr.slot_eq_none.mp hs
    simp only [hunlisted, Option.isSome_none, Bool.false_and, Bool.false_eq_true, if_false,
      Option.map_none, ite_self, true_and]
    exact ⟨hsound, hslot'⟩
  | some s =>
    obtain ⟨context', direction', e⟩ := s
    obtain ⟨hlisted, hctx, hexp⟩ := hr.slot_eq_some.mp hs
    simp only [hlisted, Option.isSome_some, Bool.true_and]
    cases refused with
    | true => exact ⟨hsound, rfl, hslot'⟩
    | false =>
      have hctx' : (((d.resize fd).modTimer fd timeoMs now).fdToEventCtx fd).context =
          some context' := by
        rw [ht.context, hctx]
      have hself : ((d.resize fd).modTimer fd timeoMs now).expireOf fd =
          if 0 ≤ timeoMs then some (now + timeoMs) else e := by
        rw [ht.expire, Function.update_self, hexp]
      obtain ⟨hsound', hreg⟩ := hr.register ht.owned ht.stale hother ht.epoll ht.size.ge
        (ht.size ▸ hfd) hctx' hself direction
      refine ⟨?_, rfl, ?_⟩
      · simpa [ht.epoll] using hsound'
      · simpa [ht.epoll] using hreg

end Sound

end Tables

end EventsDriver

end Magneto
