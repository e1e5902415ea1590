import Magneto.EventsDriverRefine
import Magneto.SessionRun

/-!
# Runs of the events driver

Two kinds of runs. In the first the callers add only descriptors that are not
registered; the stored driver then follows the map of descriptors call by call,
and `RemoveTimeouts` returns the expired contexts in the order of their
expiries. In the second the callers do anything, and a timer may be lost.
-/

namespace Magneto

namespace EventsDriver

def removeExpired (a : EventsDriver) (now : ℤ) : EventsDriver := fun fd =>
  (a fd).filter fun slot => slot.expireTimeMs.all fun e => now ≤ e

def expireMs (a : EventsDriver) (fd : ℤ) : Option ℤ := (a fd).bind (·.expireTimeMs)

namespace Tables

variable {d d' : Tables ℕ} {a : EventsDriver} {fd : ℕ}

def view (slot : Slot) : ℕ × Direction × Option ℤ :=
  (slot.ctx.id, slot.direction, slot.expireTimeMs)

structure Refines (d : Tables ℕ) (a : EventsDriver) : Prop where
  sound : d.Sound
  slot : ∀ fd : ℕ, d.slot fd = (a fd).map view
  negative : ∀ fd : ℤ, fd < 0 → a fd = none

namespace Refines

theorem update (h : d.Refines a) (hs : d'.Sound) {o : Option Slot}
    (hslot : d'.slot = Function.update d.slot fd (o.map view)) :
    d'.Refines (Function.update a fd o) := by
  refine ⟨hs, fun fd' => ?_, fun fd' hneg => ?_⟩
  · rw [hslot]
    by_cases hfd : fd' = fd
    · rw [hfd, Function.update_self, Function.update_self]
    · rw [Function.update_of_ne hfd, Function.update_of_ne (by exact_mod_cast hfd)]
      exact h.slot fd'
  · rw [Function.update_of_ne (by omega)]
    exact h.negative fd' hneg

theorem regEventDel (h : d.Refines a) (fd : ℕ) :
    (d.regEventDel fd).2.Refines (a.regEventDel fd) := by
  obtain ⟨hs, hslot, -⟩ := h.sound.regEventDel fd
  exact h.update (o := none) hs hslot

theorem regEventAdd (h : d.Refines a) (hfree : a fd = none) (direction : Direction)
    (ctx : EventCtx) (timeoMs now : ℤ) (refused : Bool) :
    let r := d.regEvent fd .kAddEvent direction ctx.id (Word.narrow timeoMs) now refused
    let r' := a.regEventAdd (!refused) fd direction ctx timeoMs now
    r.1 = r'.1 ∧ r.2.Refines r'.2 := by
  have hnone : d.slot fd = none := by rw [h.slot, hfree, Option.map_none]
  obtain ⟨hs, hret, hslot⟩ :=
    h.sound.regEventAdd hnone direction ctx.id (Word.narrow timeoMs) now refused
  cases refused with
  | true => exact ⟨hret, h.update (o := none) hs hslot⟩
  | false =>
    exact ⟨hret, h.update (o := some ⟨ctx, direction, _⟩) hs hslot⟩

theorem regEventMod (h : d.Refines a) (direction : Direction) (ctx : EventCtx)
    (hctx : ∀ slot ∈ a fd, slot.ctx.id = ctx.id) (timeoMs now : ℤ) (refused : Bool) :
    let r := d.regEvent fd .kModEvent direction ctx.id (Word.narrow timeoMs) now refused
    let r' := a.regEventMod ((a fd).isSome && !refused) fd direction ctx timeoMs now
    r.1 = r'.1 ∧ r.2.Refines r'.2 := by
  obtain ⟨hs, hret, hslot⟩ :=
    h.sound.regEventMod fd direction ctx.id (Word.narrow timeoMs) now refused
  have hat := h.slot fd
  rw [hat, Option.isSome_map] at hret
  cases ha : a fd with
  | none =>
    rw [ha, Option.map_none] at hat
    rw [hat, Option.map_none, ite_self] at hslot
    rw [ha] at hret
    exact ⟨hret, h.update (o := none) hs hslot⟩
  | some slot =>
    rw [ha, Option.map_some] at hat
    rw [hat, Option.map_some] at hslot
    rw [ha] at hret
    have hid := hctx slot ha
    cases refused with
    | true => exact ⟨hret, h.update (o := none) hs hslot⟩
    | false =>
      refine ⟨hret, h.update (o := some ⟨ctx, direction, _⟩) hs ?_⟩
      rw [hslot, ha]
      simp only [view, Bool.false_eq_true, if_false, Option.map_some, Option.bind_some, hid]

theorem expireOf (h : d.Refines a) (fd : ℕ) : d.expireOf fd = a.expireMs fd := by
  have hslot := h.slot fd
  unfold expireMs
  cases ha : a fd with
  | none =>
    rw [ha, Option.map_none] at hslot
    rw [h.sound.unregistered fd (h.sound.slot_eq_none.mp hslot), Option.bind_none]
  | some slot =>
    rw [ha, Option.map_some] at hslot
    rw [(h.sound.slot_eq_some.mp hslot).2.2, Option.bind_some]

theorem of_top (h : d.Refines a) {timeo : EventTimeo} (htop : d.heapTimeo.top = some timeo) :
    (d.fdToEventCtx timeo.fd).signTimeo = some (d.heapTimeo.heapItems 1) ∧
      a.expireMs timeo.fd = some timeo.expireTimeMs ∧
        ∀ (fd : ℕ) (e : ℤ), a.expireMs fd = some e → timeo.expireTimeMs ≤ e := by
  obtain ⟨hroot, hle⟩ := h.sound.owned.heap.of_top htop
  have hkept := h.sound.owned.root_kept htop (h.sound.kept _ _)
  refine ⟨hkept, ?_, fun fd e he => ?_⟩
  · rw [← h.expireOf]
    exact h.sound.owned.expireOf_eq_some.mpr ⟨_, hkept, hroot⟩
  · rw [← h.expireOf] at he
    obtain ⟨sign, -, hc⟩ := h.sound.owned.expireOf_eq_some.mp he
    exact hle sign _ hc

theorem top_eq_none (h : d.Refines a) (htop : d.heapTimeo.top = none) :
    a.expireMs fd = none := by
  rw [← h.expireOf, Option.eq_none_iff_forall_ne_some]
  intro e he
  obtain ⟨sign, -, hc⟩ := h.sound.owned.expireOf_eq_some.mp he
  rw [h.sound.owned.heap.top_eq_none.mp htop] at hc
  cases hc

theorem context (h : d.Refines a) {slot : Slot} (ha : a fd = some slot) :
    (d.fdToEventCtx fd).context = some slot.ctx.id := by
  have hslot := h.slot fd
  rw [ha, Option.map_some] at hslot
  exact (h.sound.slot_eq_some.mp hslot).2.1

end Refines

/-- A removal of registered descriptors with a timer, one by one in the order of their expiries.
Each had expired at some reading of the clock, and what is left had not at some reading. -/
structure Removal (a : EventsDriver) (nows : List ℤ) (fds : List ℕ) (cs : List ℕ)
    (d' : Tables ℕ) : Prop where
  nodup : fds.Nodup
  expired : ∀ fd ∈ fds, ∃ e, a.expireMs fd = some e ∧ ∃ now ∈ nows, e < now
  sorted : fds.Pairwise fun x y : ℕ => ∀ e ∈ a.expireMs x, ∀ e' ∈ a.expireMs y, e ≤ e'
  contexts : cs = (AgentSlave.removeTimeouts a (fds.map Nat.cast)).1.map EventCtx.id
  refines : d'.Refines (AgentSlave.removeTimeouts a (fds.map Nat.cast)).2
  left : ∀ (fd : ℕ) (e : ℤ),
    (AgentSlave.removeTimeouts a (fds.map Nat.cast)).2.expireMs fd = some e → ∃ now ∈ nows, now ≤ e

theorem Removal.stop (h : d.Refines a) {nows : List ℤ}
    (hleft : ∀ (fd : ℕ) (e : ℤ), a.expireMs fd = some e → ∃ now ∈ nows, now ≤ e) :
    Removal a nows [] [] d :=
  { nodup := .nil, expired := fun _ hfd => (nomatch hfd), sorted := .nil, contexts := rfl,
    refines := h, left := hleft }

theorem Removal.step {now : ℤ} {nows : List ℤ} {fds cs : List ℕ} {e : ℤ}
    (h : Removal (a.regEventDel fd) nows fds cs d') {slot : Slot} (ha : a fd = some slot)
    (hexp : a.expireMs fd = some e) (hlt : e < now)
    (hleast : ∀ (fd' : ℕ) (e' : ℤ), a.expireMs fd' = some e' → e ≤ e') :
    Removal a (now :: nows) (fd :: fds) (slot.ctx.id :: cs) d' := by
  have hgone : (a.regEventDel fd).expireMs fd = none := by
    unfold expireMs
    rw [regEventDel_self, Option.bind_none]
  have hother : ∀ fd' : ℕ, fd' ≠ fd → (a.regEventDel fd).expireMs fd' = a.expireMs fd' := by
    intro fd' hne
    unfold expireMs
    rw [regEventDel_of_ne a (by exact_mod_cast hne)]
  have hne : ∀ fd' ∈ fds, fd' ≠ fd := by
    rintro fd' hmem rfl
    obtain ⟨e', he', -⟩ := h.expired _ hmem
    rw [hgone] at he'
    cases he'
  have hstep : AgentSlave.removeTimeouts a ((fd :: fds).map Nat.cast) =
      (slot.ctx :: (AgentSlave.removeTimeouts (a.regEventDel fd) (fds.map Nat.cast)).1,
        (AgentSlave.removeTimeouts (a.regEventDel fd) (fds.map Nat.cast)).2) := by
    rw [List.map_cons, AgentSlave.removeTimeouts, ha, Option.elim_some]
  constructor
  case nodup => exact List.nodup_cons.mpr ⟨fun hmem => hne _ hmem rfl, h.nodup⟩
  case expired =>
    intro fd' hmem
    obtain rfl | hmem := List.mem_cons.mp hmem
    · exact ⟨e, hexp, now, List.mem_cons_self, hlt⟩
    · obtain ⟨e', he', t, ht, hlt'⟩ := h.expired fd' hmem
      rw [hother fd' (hne fd' hmem)] at he'
      exact ⟨e', he', t, List.mem_cons_of_mem _ ht, hlt'⟩
  case sorted =>
    refine List.pairwise_cons.mpr ⟨fun fd' _ e₁ he₁ e₂ he₂ => ?_, ?_⟩
    · rw [hexp] at he₁
      cases he₁
      exact hleast fd' e₂ he₂
    · refine h.sorted.imp_of_mem fun {x y} hx hy hxy e₁ he₁ e₂ he₂ => hxy e₁ ?_ e₂ ?_
      · rwa [hother x (hne x hx)]
      · rwa [hother y (hne y hy)]
  case contexts => rw [hstep, List.map_cons, ← h.contexts]
  case refines =>
    rw [hstep]
    exact h.refines
  case left =>
    intro fd' e' he'
    rw [hstep] at he'
    obtain ⟨t, ht, hle⟩ := h.left fd' e' he'
    exact ⟨t, List.mem_cons_of_mem _ ht, hle⟩

theorem Refines.removeTimeouts (h : d.Refines a) {nows : List ℤ} {cs : List ℕ}
    (hr : d.removeTimeouts nows = some (cs, d')) : ∃ fds, Removal a nows fds cs d' := by
  induction nows generalizing d a cs with
  | nil =>
    rw [Tables.removeTimeouts] at hr
    split at hr
    · rename_i htop
      cases hr
      exact ⟨[], .stop h fun fd e he => by rw [h.top_eq_none htop] at he; cases he⟩
    · cases hr
  | cons now nows ih =>
    rw [Tables.removeTimeouts] at hr
    split at hr
    · rename_i htop
      cases hr
      exact ⟨[], .stop h fun fd e he => by rw [h.top_eq_none htop] at he; cases he⟩
    · rename_i timeo htop
      obtain ⟨-, hexp, hleast⟩ := h.of_top htop
      split_ifs at hr with hlt
      · rw [Option.map_eq_some_iff] at hr
        obtain ⟨⟨cs', d₂⟩, hrec, hpair⟩ := hr
        obtain ⟨slot, ha, -⟩ := Option.bind_eq_some_iff.mp hexp
        rw [h.context ha] at hpair
        obtain ⟨rfl, rfl⟩ := Prod.mk.inj hpair
        obtain ⟨fds, hrem⟩ := ih (h.regEventDel timeo.fd) hrec
        exact ⟨timeo.fd :: fds, hrem.step ha hexp hlt hleast⟩
      · cases hr
        refine ⟨[], .stop h fun fd e he => ?_⟩
        have hle := hleast fd e he
        exact ⟨now, List.mem_cons_self, by omega⟩

theorem Removal.mem_iff {n : ℕ} {now : ℤ} {fds cs : List ℕ}
    (h : Removal a (List.replicate n now) fds cs d') :
    fd ∈ fds ↔ ∃ e, a.expireMs fd = some e ∧ e < now := by
  constructor
  · intro hmem
    obtain ⟨e, he, t, ht, hlt⟩ := h.expired fd hmem
    rw [List.eq_of_mem_replicate ht] at hlt
    exact ⟨e, he, hlt⟩
  · rintro ⟨e, he, hlt⟩
    by_contra hmem
    obtain ⟨t, ht, hle⟩ := h.left fd e (by
      unfold expireMs
      rw [AgentSlave.removeTimeouts_snd, if_neg (by simpa using hmem)]
      exact he)
    rw [List.eq_of_mem_replicate ht] at hle
    omega

theorem Removal.removeExpired {n : ℕ} {now : ℤ} {fds cs : List ℕ} (ha : d.Refines a)
    (h : Removal a (List.replicate n now) fds cs d') :
    (AgentSlave.removeTimeouts a (fds.map Nat.cast)).2 = a.removeExpired now := by
  funext fd
  rw [AgentSlave.removeTimeouts_snd]
  unfold EventsDriver.removeExpired
  obtain hneg | hpos := lt_or_ge fd 0
  · rw [ha.negative fd hneg, ite_self, Option.filter_none]
  · lift fd to ℕ using hpos
    have hmem : (fd : ℤ) ∈ fds.map Nat.cast ↔ ∃ e, a.expireMs fd = some e ∧ e < now := by
      rw [List.mem_map_of_injective Nat.cast_injective, h.mem_iff]
    unfold expireMs at hmem
    cases hslot : a fd with
    | none => rw [ite_self, Option.filter_none]
    | some slot =>
      rw [hslot, Option.bind_some] at hmem
      cases hexp : slot.expireTimeMs with
      | none =>
        rw [if_neg (by rw [hmem, hexp]; rintro ⟨_, ⟨⟩, _⟩)]
        simp [Option.filter, hexp]
      | some e =>
        by_cases hlt : e < now
        · rw [if_pos (hmem.mpr ⟨e, hexp, hlt⟩)]
          simp [Option.filter, hexp, hlt]
        · rw [if_neg (by rw [hmem, hexp]; rintro ⟨_, ⟨⟩, hlt'⟩; exact hlt hlt')]
          simp [Option.filter, hexp, hlt]

theorem Removal.contexts_eq {nows : List ℤ} {fds cs : List ℕ} (h : Removal a nows fds cs d') :
    cs = fds.filterMap fun fd : ℕ => (a fd).map (·.ctx.id) := by
  have hnodup : (fds.map (Nat.cast : ℕ → ℤ)).Nodup := h.nodup.map Nat.cast_injective
  rw [h.contexts, AgentSlave.removeTimeouts_fst a hnodup, List.map_filterMap,
    List.filterMap_map]
  simp only [Function.comp_def, Option.map_map]

theorem Refines.removeTimeouts_at (h : d.Refines a) (now : ℤ) : ∃ fds cs d',
    d.removeTimeouts (List.replicate d.heapTimeo.numItems now) = some (cs, d') ∧
      Removal a (List.replicate d.heapTimeo.numItems now) fds cs d' ∧
        d'.Refines (a.removeExpired now) := by
  have hlen : d.heapTimeo.numItems ≤ (List.replicate d.heapTimeo.numItems now).length := by
    rw [List.length_replicate]
  have hsome := h.sound.owned.removeTimeouts_isSome hlen
    fun sign timeo hs => absurd hs (h.sound.kept sign timeo)
  obtain ⟨⟨cs, d'⟩, hr⟩ := Option.isSome_iff_exists.mp hsome
  obtain ⟨fds, hrem⟩ := h.removeTimeouts hr
  exact ⟨fds, cs, d', hr, hrem, hrem.removeExpired h ▸ hrem.refines⟩

end Tables

inductive Call
  | add (fd : ℕ) (direction : Direction) (ctx : EventCtx) (timeoMs now : ℤ) (refused : Bool)
  | mod (fd : ℕ) (direction : Direction) (ctx : EventCtx) (timeoMs now : ℤ) (refused : Bool)
  | del (fd : ℕ)
  | removeTimeouts (now : ℤ)
  deriving DecidableEq, Repr

namespace Call

def onMap (a : EventsDriver) : Call → EventsDriver
  | add fd direction ctx timeoMs now refused =>
    (a.regEventAdd (!refused) fd direction ctx timeoMs now).2
  | mod fd direction ctx timeoMs now refused =>
    (a.regEventMod ((a fd).isSome && !refused) fd direction ctx timeoMs now).2
  | del fd => a.regEventDel fd
  | removeTimeouts now => a.removeExpired now

def onTables (d : Tables ℕ) : Call → Tables ℕ
  | add fd direction ctx timeoMs now refused =>
    (d.regEvent fd .kAddEvent direction ctx.id (Word.narrow timeoMs) now refused).2
  | mod fd direction ctx timeoMs now refused =>
    (d.regEvent fd .kModEvent direction ctx.id (Word.narrow timeoMs) now refused).2
  | del fd => (d.regEventDel fd).2
  | removeTimeouts now =>
    (d.removeTimeouts (List.replicate d.heapTimeo.numItems now)).elim d Prod.snd

/-- A descriptor is added only while it is not registered, and keeps its context. -/
def Legal (a : EventsDriver) : Call → Prop
  | add fd _ _ _ _ _ => (a fd).isNone
  | mod fd _ ctx _ _ _ => (a fd).all (fun slot => slot.ctx.id = ctx.id)
  | _ => True

instance (a : EventsDriver) : ∀ c, Decidable (Legal a c)
  | add _ _ _ _ _ _ => inferInstanceAs (Decidable (_ = true))
  | mod _ _ _ _ _ _ => inferInstanceAs (Decidable (_ = true))
  | del _ => inferInstanceAs (Decidable True)
  | removeTimeouts _ => inferInstanceAs (Decidable True)

def machine : Machine EventsDriver Call where
  enabled := Legal
  next := onMap

instance (a : EventsDriver) (c : Call) : Decidable (machine.enabled a c) :=
  inferInstanceAs (Decidable (Legal a c))

end Call

namespace Tables

variable {d : Tables ℕ} {a : EventsDriver}

theorem Refines.call (h : d.Refines a) {c : Call} (hc : c.Legal a) :
    (c.onTables d).Refines (c.onMap a) := by
  cases c with
  | add fd direction ctx timeoMs now refused =>
    exact (h.regEventAdd (Option.isNone_iff_eq_none.mp hc) direction ctx timeoMs now refused).2
  | mod fd direction ctx timeoMs now refused =>
    refine (h.regEventMod direction ctx (fun slot hslot => ?_) timeoMs now refused).2
    have hall : (a fd).all (fun slot => slot.ctx.id = ctx.id) = true := hc
    rw [show a fd = some slot from hslot] at hall
    simpa using hall
  | del fd => exact h.regEventDel fd
  | removeTimeouts now =>
    obtain ⟨fds, cs, d', hr, -, href⟩ := h.removeTimeouts_at now
    rw [Call.onTables, hr]
    exact href

theorem refines_init (fresh : ℕ → HeapItem EventTimeo) : (init fresh).Refines .empty :=
  ⟨sound_init fresh, fun _ => rfl, fun _ _ => rfl⟩

theorem Refines.calls (h : d.Refines a) {calls : List Call} (hc : Call.machine.Admits a calls) :
    (calls.foldl (fun d c => c.onTables d) d).Refines (Call.machine.exec a calls) := by
  induction calls generalizing d a with
  | nil => exact h
  | cons c calls ih => exact ih (h.call hc.1) hc.2

/-- After any legal calls the stored driver answers as the map does, and `RemoveTimeouts` returns:
it removes exactly the descriptors whose timer has expired, each once, and hands out their
contexts in the order of the expiries. -/
theorem calls_removeTimeouts (fresh : ℕ → HeapItem EventTimeo) {calls : List Call}
    (hc : Call.machine.Admits .empty calls) (now : ℤ) :
    let a := Call.machine.exec .empty calls
    let d := calls.foldl (fun d c => c.onTables d) (init fresh)
    d.Refines a ∧ ∃ (fds cs : List ℕ) (d' : Tables ℕ),
      d.removeTimeouts (List.replicate d.heapTimeo.numItems now) = some (cs, d') ∧
        fds.Nodup ∧ (∀ fd, fd ∈ fds ↔ ∃ e, a.expireMs fd = some e ∧ e < now) ∧
          (fds.Pairwise fun x y : ℕ => ∀ e ∈ a.expireMs x, ∀ e' ∈ a.expireMs y, e ≤ e') ∧
            cs = fds.filterMap (fun fd : ℕ => (a fd).map (·.ctx.id)) ∧
              d'.Refines (a.removeExpired now) := by
  intro a d
  have h : d.Refines a := (refines_init fresh).calls hc
  obtain ⟨fds, cs, d', hr, hrem, href⟩ := h.removeTimeouts_at now
  exact ⟨h, fds, cs, d', hr, hrem.nodup, fun fd => hrem.mem_iff, hrem.sorted,
    hrem.contexts_eq, href⟩

theorem calls_removeTimeouts_three :
    let calls : List Call := [.add 7 .kIn ⟨0, 7, 50, 0, 0⟩ 50 0 false,
      .add 8 .kOut ⟨1, 8, 20, 0, 1⟩ 20 0 false, .add 9 .kIn ⟨2, 9, 0, 0, 2⟩ (-1) 0 false,
      .mod 7 .kOut ⟨0, 7, 10, 5, 0⟩ 10 5 false, .add 6 .kIn ⟨3, 6, 5, 5, 3⟩ 5 5 true, .del 9]
    let a := Call.machine.exec .empty calls
    let d := calls.foldl (fun d c => c.onTables d) (init fun _ => ⟨0, ⟨0, 0⟩⟩)
    d.Refines a ∧ ∃ (fds cs : List ℕ) (d' : Tables ℕ),
      d.removeTimeouts (List.replicate d.heapTimeo.numItems 21) = some (cs, d') ∧
        fds.Nodup ∧ (∀ fd, fd ∈ fds ↔ ∃ e, a.expireMs fd = some e ∧ e < 21) ∧
          (fds.Pairwise fun x y : ℕ => ∀ e ∈ a.expireMs x, ∀ e' ∈ a.expireMs y, e ≤ e') ∧
            cs = fds.filterMap (fun fd : ℕ => (a fd).map (·.ctx.id)) ∧
              d'.Refines (a.removeExpired 21) :=
  calls_removeTimeouts _ (by decide) 21

theorem Refines.timeToWait_of_none (h : d.Refines a)
    (hnone : ∀ fd : ℕ, a.expireMs fd = none) (timeoMs now : ℤ) :
    d.timeToWait timeoMs now = timeoMs := by
  unfold timeToWait
  cases htop : d.heapTimeo.top with
  | none => rfl
  | some timeo =>
    obtain ⟨-, hexp, -⟩ := h.of_top htop
    rw [hnone] at hexp
    cases hexp

theorem Refines.timeToWait_of_some (h : d.Refines a) {fd : ℕ} {e : ℤ}
    (he : a.expireMs fd = some e) (timeoMs now : ℤ) :
    ∃ (fd₀ : ℕ) (e₀ : ℤ), a.expireMs fd₀ = some e₀ ∧
      (∀ (fd : ℕ) (e : ℤ), a.expireMs fd = some e → e₀ ≤ e) ∧
        d.timeToWait timeoMs now = max 0 (min (e₀ - now) timeoMs) := by
  unfold timeToWait
  cases htop : d.heapTimeo.top with
  | none =>
    rw [h.top_eq_none htop] at he
    cases he
  | some timeo =>
    obtain ⟨-, hexp, hleast⟩ := h.of_top htop
    exact ⟨timeo.fd, timeo.expireTimeMs, hexp, hleast, rfl⟩

/-- `Wait` sleeps until the next expiry or for its own timeout, whichever comes first, and not at
all when a timer has expired. With a negative timeout it sleeps for ever only when no timer is
registered, and not at all otherwise. -/
theorem calls_epollTimeout (fresh : ℕ → HeapItem EventTimeo) {calls : List Call}
    (hc : Call.machine.Admits .empty calls) (timeoMs now : ℤ) :
    let a := Call.machine.exec .empty calls
    let wait := (calls.foldl (fun d c => c.onTables d) (init fresh)).epollTimeout timeoMs now
    ((∀ fd : ℕ, a.expireMs fd = none) → wait = Word.narrow timeoMs) ∧
      (timeoMs < 0 → ∀ (fd : ℕ) (e : ℤ), a.expireMs fd = some e → wait = 0) ∧
      (0 ≤ timeoMs → timeoMs < 2 ^ 31 → 0 ≤ wait ∧ wait ≤ timeoMs ∧
        (∀ (fd : ℕ) (e : ℤ), a.expireMs fd = some e → wait ≤ max 0 (e - now)) ∧
          (wait = timeoMs ∨
            ∃ (fd : ℕ) (e : ℤ), a.expireMs fd = some e ∧ wait = max 0 (e - now))) := by
  intro a wait
  have h : (calls.foldl (fun d c => c.onTables d) (init fresh)).Refines a :=
    (refines_init fresh).calls hc
  have hwait : wait = Word.narrow ((calls.foldl (fun d c => c.onTables d) (init fresh)).timeToWait
    timeoMs now) := rfl
  refine ⟨fun hnone => ?_, fun hneg fd e he => ?_, fun h0 h31 => ?_⟩
  · rw [hwait, h.timeToWait_of_none hnone]
  · obtain ⟨fd₀, e₀, -, -, hvalue⟩ := h.timeToWait_of_some he timeoMs now
    have hzero : max 0 (min (e₀ - now) timeoMs) = 0 := by omega
    rw [hwait, hvalue, hzero, Word.narrow_of_mem le_rfl (by norm_num)]
  · by_cases hnone : ∀ fd : ℕ, a.expireMs fd = none
    · rw [h.timeToWait_of_none hnone, Word.narrow_of_mem h0 h31] at hwait
      refine ⟨by omega, by omega, fun fd e he => ?_, .inl hwait⟩
      rw [hnone fd] at he
      cases he
    · obtain ⟨fd, hsome⟩ := not_forall.mp hnone
      obtain ⟨e, he⟩ := Option.ne_none_iff_exists'.mp hsome
      obtain ⟨fd₀, e₀, he₀, hleast, hvalue⟩ := h.timeToWait_of_some he timeoMs now
      -- what is handed over is between 0 and the caller's timeout, so the conversion keeps it
      rw [hvalue, Word.narrow_of_mem (by omega) (by omega)] at hwait
      refine ⟨by omega, by omega, fun fd e he => ?_, ?_⟩
      · have hle := hleast fd e he
        omega
      · obtain hle | hlt := le_or_gt timeoMs (e₀ - now)
        · left
          omega
        · right
          exact ⟨fd₀, e₀, he₀, by omega⟩

theorem calls_epollTimeout_two :
    let calls : List Call := [.add 7 .kIn ⟨0, 7, 50, 0, 0⟩ 50 0 false,
      .add 8 .kOut ⟨1, 8, 20, 0, 1⟩ 20 0 false, .add 9 .kIn ⟨2, 9, 0, 0, 2⟩ (-1) 0 false]
    let a := Call.machine.exec .empty calls
    let wait :=
      (calls.foldl (fun d c => c.onTables d) (init fun _ => ⟨0, ⟨0, 0⟩⟩)).epollTimeout 100 30
    wait = 0 ∧ 0 ≤ wait ∧ wait ≤ 100 ∧
      (∀ (fd : ℕ) (e : ℤ), a.expireMs fd = some e → wait ≤ max 0 (e - 30)) ∧
        (wait = 100 ∨ ∃ (fd : ℕ) (e : ℤ), a.expireMs fd = some e ∧ wait = max 0 (e - 30)) := by
  have hlegal : Call.machine.Admits .empty [.add 7 .kIn ⟨0, 7, 50, 0, 0⟩ 50 0 false,
      .add 8 .kOut ⟨1, 8, 20, 0, 1⟩ 20 0 false, .add 9 .kIn ⟨2, 9, 0, 0, 2⟩ (-1) 0 false] := by
    decide
  have hcalls := calls_epollTimeout (fun _ => ⟨0, ⟨0, 0⟩⟩) hlegal 100 30
  have hwait := hcalls.2.2 (by decide) (by norm_num)
  exact ⟨le_antisymm (hwait.2.2.1 8 20 rfl) hwait.1, hwait⟩

variable {Context : Type*}

inductive AnyCall (Context : Type*)
  | regEvent (fd : ℕ) (op : RegOp) (direction : Direction) (context : Context)
      (timeoMs now : ℤ) (refused : Bool)
  | regEventDel (fd : ℕ)
  | removeTimeouts (nows : List ℤ)

/-- `RegEventDel` reads outside the vector when `RegEvent` has not made it long enough; a call of
`RemoveTimeouts` that does not return is the last one. -/
def anyMachine (Context : Type*) : Machine (Tables Context) (AnyCall Context) where
  enabled d
    | .regEvent _ _ _ _ _ _ _ => True
    | .regEventDel fd => fd < d.sizeCtx
    | .removeTimeouts nows => (d.removeTimeouts nows).isSome
  next d
    | .regEvent fd op direction context timeoMs now refused =>
      (d.regEvent fd op direction context timeoMs now refused).2
    | .regEventDel fd => (d.regEventDel fd).2
    | .removeTimeouts nows => (d.removeTimeouts nows).elim d Prod.snd

instance (d : Tables Context) : ∀ c, Decidable ((anyMachine Context).enabled d c)
  | .regEvent _ _ _ _ _ _ _ => inferInstanceAs (Decidable True)
  | .regEventDel fd => inferInstanceAs (Decidable (fd < d.sizeCtx))
  | .removeTimeouts nows => inferInstanceAs (Decidable ((d.removeTimeouts nows).isSome = true))

namespace Owned

variable {d d' : Tables Context}

theorem resize (h : d.Owned) (fd : ℕ) : (d.resize fd).Owned := by
  refine ⟨(heapTimeo_resize fd).symm ▸ h.heap, fun fd' sign hs => ?_⟩
  rw [entry_resize] at hs
  split_ifs at hs
  rw [heapTimeo_resize]
  exact h.own fd' sign hs

theorem regEvent (h : d.Owned) (fd : ℕ) (op : RegOp) (direction : Direction) (context : Context)
    (timeoMs now : ℤ) (refused : Bool) :
    (d.regEvent fd op direction context timeoMs now refused).2.Owned := by
  have hr := h.resize fd
  cases op with
  | kAddEvent =>
    have hadd := hr.addTimer fd context timeoMs now
    simp only [Tables.regEvent]
    split_ifs
    · exact hadd.congr rfl fun _ => rfl
    · exact hadd.regEventDel fd
  | kModEvent =>
    have hmod := (hr.modTimer fd timeoMs now).owned
    simp only [Tables.regEvent]
    split_ifs
    · exact hmod.congr rfl fun _ => rfl
    · exact hmod.regEventDel fd
  | kDelEvent =>
    have hdel := hr.regEventDel fd
    simp only [Tables.regEvent]
    split_ifs
    · exact hdel.regEventDel fd
    · exact hdel.congr rfl (signTimeo_setContext none)

theorem removeTimeouts (h : d.Owned) {nows : List ℤ} {cs : List Context}
    (hr : d.removeTimeouts nows = some (cs, d')) : d'.Owned := by
  induction nows generalizing d cs with
  | nil =>
    rw [Tables.removeTimeouts] at hr
    split at hr
    · cases hr
      exact h
    · cases hr
  | cons now nows ih =>
    rw [Tables.removeTimeouts] at hr
    split at hr
    · cases hr
      exact h
    · split_ifs at hr
      · obtain ⟨⟨cs', d₂⟩, hrec, hpair⟩ := Option.map_eq_some_iff.mp hr
        obtain ⟨-, rfl⟩ := Prod.mk.inj hpair
        exact ih (h.regEventDel _) hrec
      · cases hr
        exact h

theorem next (h : d.Owned) {c : AnyCall Context} (hc : (anyMachine Context).enabled d c) :
    ((anyMachine Context).next d c).Owned := by
  cases c with
  | regEvent fd op direction context timeoMs now refused =>
    exact h.regEvent fd op direction context timeoMs now refused
  | regEventDel fd => exact h.regEventDel fd
  | removeTimeouts nows =>
    obtain ⟨⟨cs, d'⟩, hr⟩ := Option.isSome_iff_exists.mp hc
    have hnext : (anyMachine Context).next d (.removeTimeouts nows) = d' := by
      simp only [anyMachine, hr, Option.elim_some]
    rw [hnext]
    exact h.removeTimeouts hr

end Owned

/-- Whatever was called before, also on descriptors registered already, `RemoveTimeouts` with the
clock at `now` returns exactly when no timer that its descriptor has lost expires before `now`. -/
theorem exec_removeTimeouts_iff (fresh : ℕ → HeapItem EventTimeo) {calls : List (AnyCall Context)}
    (hc : (anyMachine Context).Admits (init fresh) calls) (now : ℤ) :
    let d := (anyMachine Context).exec (init fresh) calls
    (∃ n, (d.removeTimeouts (List.replicate n now)).isSome) ↔
      ∀ sign timeo, d.Stale sign timeo → now ≤ timeo.expireTimeMs := by
  intro d
  have h : d.Owned :=
    (anyMachine Context).invariant (fun _ _ h hc => h.next hc) (sound_init fresh).owned hc
  constructor
  · rintro ⟨n, hn⟩ sign timeo hs
    by_contra hlt
    rw [h.removeTimeouts_eq_none hs fun t ht => ?_] at hn
    · cases hn
    · rw [List.eq_of_mem_replicate ht]
      omega
  · intro hst
    refine ⟨d.heapTimeo.numItems, h.removeTimeouts_isSome ?_ fun sign timeo hs t ht => ?_⟩
    · rw [List.length_replicate]
    · rw [List.eq_of_mem_replicate ht]
      exact hst sign timeo hs

/-- The second registration of descriptor 7 loses the timer of the first one. -/
theorem exec_removeTimeouts_iff_twice :
    let d := (anyMachine ℕ).exec (init fun _ => ⟨0, ⟨0, 0⟩⟩)
      [.regEvent 7 .kAddEvent .kIn 0 50 0 false, .regEvent 7 .kAddEvent .kIn 1 90 0 false];
    (∃ n, (d.removeTimeouts (List.replicate n 60)).isSome) ↔
      ∀ sign timeo, d.Stale sign timeo → 60 ≤ timeo.expireTimeMs :=
  exec_removeTimeouts_iff _ (by decide) 60

end Tables

end EventsDriver

end Magneto
