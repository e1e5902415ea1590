import Magneto.EventsDriverHeap
import Magneto.HeapRun

/-!
# The timers of the events driver

A descriptor keeps the sign of its timer, so the heap is a map from descriptors
to expiry times as long as no sign is lost. A timer whose sign is lost can be
neither erased nor updated any more; `RemoveTimeouts` returns exactly when no
such timer has expired.
-/

namespace Magneto

namespace EventsDriver

namespace Tables

variable {Context : Type*} {d d' : Tables Context} {fd fd' sign : ℕ} {timeo : EventTimeo}

/-- Every sign kept for a descriptor is that of a timer of the descriptor. -/
structure Owned (d : Tables Context) : Prop where
  heap : d.heapTimeo.Sound EventTimeo.expireTimeMs
  own : ∀ fd sign, (d.fdToEventCtx fd).signTimeo = some sign →
    ∃ e, d.heapTimeo.contents sign = some ⟨e, fd⟩

/-- A timer whose descriptor does not keep its sign. -/
def Stale (d : Tables Context) (sign : ℕ) (timeo : EventTimeo) : Prop :=
  d.heapTimeo.contents sign = some timeo ∧ (d.fdToEventCtx timeo.fd).signTimeo ≠ some sign

def expireOf (d : Tables Context) (fd : ℕ) : Option ℤ :=
  (d.fdToEventCtx fd).signTimeo.bind fun sign =>
    (d.heapTimeo.contents sign).map EventTimeo.expireTimeMs

structure Timed (d d' : Tables Context) (fd : ℕ) (o : Option ℤ) : Prop where
  owned : d'.Owned
  stale : ∀ sign timeo, d'.Stale sign timeo → d.Stale sign timeo
  expire : d'.expireOf = Function.update d.expireOf fd o
  epoll : d'.epoll = d.epoll
  context : ∀ fd, (d'.fdToEventCtx fd).context = (d.fdToEventCtx fd).context
  size : d'.sizeCtx = d.sizeCtx

theorem fdToEventCtx_setSign (sign : Option ℕ) : (d.setSign fd sign).fdToEventCtx =
    Function.update d.fdToEventCtx fd ⟨(d.fdToEventCtx fd).context, sign⟩ := rfl

theorem fdToEventCtx_setContext (context : Option Context) :
    (d.setContext fd context).fdToEventCtx =
      Function.update d.fdToEventCtx fd ⟨context, (d.fdToEventCtx fd).signTimeo⟩ := rfl

@[simp] theorem signTimeo_setContext (context : Option Context) (fd' : ℕ) :
    ((d.setContext fd context).fdToEventCtx fd').signTimeo = (d.fdToEventCtx fd').signTimeo := by
  rw [fdToEventCtx_setContext]
  by_cases hfd : fd' = fd
  · rw [hfd, Function.update_self]
  · rw [Function.update_of_ne hfd]

@[simp] theorem context_setSign (sign : Option ℕ) (fd' : ℕ) :
    ((d.setSign fd sign).fdToEventCtx fd').context = (d.fdToEventCtx fd').context := by
  rw [fdToEventCtx_setSign]
  by_cases hfd : fd' = fd
  · rw [hfd, Function.update_self]
  · rw [Function.update_of_ne hfd]

theorem fdToEventCtx_insertTimer (e : ℤ) :
    (d.insertTimer fd e).fdToEventCtx = Function.update d.fdToEventCtx fd
      ⟨(d.fdToEventCtx fd).context,
        some (d.heapTimeo.insert EventTimeo.expireTimeMs ⟨e, fd⟩).2⟩ := rfl

theorem expireOf_congr (hsign : (d'.fdToEventCtx fd).signTimeo = (d.fdToEventCtx fd).signTimeo)
    (hcont : ∀ sign, (d.fdToEventCtx fd).signTimeo = some sign →
      d'.heapTimeo.contents sign = d.heapTimeo.contents sign) : d'.expireOf fd = d.expireOf fd := by
  unfold expireOf
  rw [hsign]
  cases h : (d.fdToEventCtx fd).signTimeo with
  | none => rfl
  | some sign => rw [Option.bind_some, Option.bind_some, hcont sign h]

namespace Owned

theorem inj (h : d.Owned) (hs : (d.fdToEventCtx fd).signTimeo = some sign)
    (hs' : (d.fdToEventCtx fd').signTimeo = some sign) : fd = fd' := by
  obtain ⟨e, he⟩ := h.own fd sign hs
  obtain ⟨e', he'⟩ := h.own fd' sign hs'
  rw [he] at he'
  cases he'
  rfl

theorem congr (h : d.Owned) (hheap : d'.heapTimeo = d.heapTimeo)
    (hsign : ∀ fd, (d'.fdToEventCtx fd).signTimeo = (d.fdToEventCtx fd).signTimeo) :
    d'.Owned := by
  refine ⟨hheap ▸ h.heap, fun fd sign hs => ?_⟩
  rw [hheap]
  exact h.own fd sign (by rw [← hsign, hs])

theorem expireOf_eq_none (h : d.Owned) :
    d.expireOf fd = none ↔ (d.fdToEventCtx fd).signTimeo = none := by
  unfold expireOf
  cases hs : (d.fdToEventCtx fd).signTimeo with
  | none => simp
  | some sign =>
    obtain ⟨e, he⟩ := h.own fd sign hs
    simp [he]

theorem expireOf_eq_some (h : d.Owned) {e : ℤ} : d.expireOf fd = some e ↔
    ∃ sign, (d.fdToEventCtx fd).signTimeo = some sign ∧
      d.heapTimeo.contents sign = some ⟨e, fd⟩ := by
  unfold expireOf
  cases hs : (d.fdToEventCtx fd).signTimeo with
  | none => simp
  | some sign =>
    obtain ⟨e', he'⟩ := h.own fd sign hs
    simp [he']

theorem timed (h : d.Owned) {o : Option EventTimeo}
    (hheap : d'.heapTimeo.Sound EventTimeo.expireTimeMs)
    (hcont : d'.heapTimeo.contents = Function.update d.heapTimeo.contents sign o)
    (hsign : ∀ fd', fd' ≠ fd →
      (d'.fdToEventCtx fd').signTimeo = (d.fdToEventCtx fd').signTimeo)
    (hself : (d'.fdToEventCtx fd).signTimeo = o.map fun _ => sign)
    (ho : ∀ timeo ∈ o, timeo.fd = fd)
    (hkept : (d.fdToEventCtx fd).signTimeo = some sign ∨
      (d.fdToEventCtx fd).signTimeo = none ∧ d.heapTimeo.contents sign = none)
    (hepoll : d'.epoll = d.epoll)
    (hcontext : ∀ fd, (d'.fdToEventCtx fd).context = (d.fdToEventCtx fd).context)
    (hsize : d'.sizeCtx = d.sizeCtx) : Timed d d' fd (o.map EventTimeo.expireTimeMs) := by
  have hother : ∀ fd' s, fd' ≠ fd → (d.fdToEventCtx fd').signTimeo = some s → s ≠ sign := by
    rintro fd' s hne hs rfl
    obtain hk | ⟨-, hk⟩ := hkept
    · exact hne (h.inj hs hk)
    · obtain ⟨e, he⟩ := h.own fd' s hs
      rw [he] at hk
      cases hk
  refine ⟨⟨hheap, fun fd' s hs => ?_⟩, fun s t ht => ?_, funext fun fd' => ?_, hepoll, hcontext,
    hsize⟩
  · by_cases hfd : fd' = fd
    · subst hfd
      rw [hself] at hs
      obtain ⟨t, rfl, rfl⟩ := Option.map_eq_some_iff.mp hs
      rw [hcont, Function.update_self]
      exact ⟨t.expireTimeMs, by rw [← ho t rfl]⟩
    · rw [hsign fd' hfd] at hs
      rw [hcont, Function.update_of_ne (hother fd' s hfd hs)]
      exact h.own fd' s hs
  · obtain ⟨hc, hne⟩ := ht
    rw [hcont] at hc
    by_cases hss : s = sign
    · subst hss
      rw [Function.update_self] at hc
      subst hc
      have hfd : t.fd = fd := ho t rfl
      rw [hfd, hself] at hne
      exact absurd rfl hne
    · rw [Function.update_of_ne hss] at hc
      refine ⟨hc, ?_⟩
      by_cases hfd : t.fd = fd
      · obtain hk | ⟨hk, -⟩ := hkept
        · rw [hfd, hk]
          exact fun he => hss (Option.some.inj he).symm
        · rw [hfd, hk]
          exact (nomatch ·)
      · rwa [hsign t.fd hfd] at hne
  · by_cases hfd : fd' = fd
    · subst hfd
      rw [Function.update_self]
      unfold expireOf
      rw [hself, hcont]
      cases o with
      | none => rfl
      | some t => simp
    · rw [Function.update_of_ne hfd]
      refine expireOf_congr (hsign fd' hfd) fun s hs => ?_
      rw [hcont, Function.update_of_ne (hother fd' s hfd hs)]

theorem eraseTimer (h : d.Owned) (fd : ℕ) : Timed d (d.eraseTimer fd) fd none := by
  unfold Tables.eraseTimer
  split
  · rename_i sign hs
    obtain ⟨e, he⟩ := h.own fd sign hs
    obtain ⟨hsound, hcont, -⟩ := h.heap.erase he
    refine h.timed (o := none) hsound hcont (fun fd' hne => ?_) ?_ (fun _ ht => nomatch ht)
      (.inl hs) rfl (fun fd' => ?_) rfl
    · rw [fdToEventCtx_setSign, Function.update_of_ne hne]
    · rw [fdToEventCtx_setSign, Function.update_self]
      rfl
    · exact context_setSign none fd'
  · rename_i hs
    refine ⟨h, fun _ _ ht => ht, ?_, rfl, fun _ => rfl, rfl⟩
    have hnone := h.expireOf_eq_none.mpr hs
    rw [← hnone, Function.update_eq_self]

theorem insertTimer (h : d.Owned) (fd : ℕ) (hs : (d.fdToEventCtx fd).signTimeo = none) (e : ℤ) :
    Timed d (d.insertTimer fd e) fd (some e) := by
  obtain ⟨hsound, hnone, hcont⟩ := h.heap.insert ⟨e, fd⟩
  refine h.timed (o := some ⟨e, fd⟩) hsound hcont (fun fd' hne => ?_) ?_ ?_
    (.inr ⟨hs, hnone⟩) rfl (fun fd' => ?_) rfl
  · rw [fdToEventCtx_insertTimer, Function.update_of_ne hne]
  · rw [fdToEventCtx_insertTimer, Function.update_self]
    rfl
  · rintro t ⟨⟩
    rfl
  · exact context_setSign _ fd'

theorem modTimer (h : d.Owned) (fd : ℕ) (timeoMs now : ℤ) :
    Timed d (d.modTimer fd timeoMs now) fd
      (if 0 ≤ timeoMs then some (now + timeoMs) else d.expireOf fd) := by
  unfold Tables.modTimer
  split_ifs with htimeo
  · split
    · rename_i sign hs
      obtain ⟨e, he⟩ := h.own fd sign hs
      obtain ⟨hsound, hcont⟩ := h.heap.update he ⟨now + timeoMs, fd⟩
      refine h.timed (o := some ⟨now + timeoMs, fd⟩) hsound hcont (fun _ _ => rfl) hs ?_ (.inl hs)
        rfl (fun _ => rfl) rfl
      rintro t ⟨⟩
      rfl
    · rename_i hs
      exact h.insertTimer fd hs _
  · exact ⟨h, fun _ _ ht => ht, (Function.update_eq_self _ _).symm, rfl, fun _ => rfl, rfl⟩

theorem setTimer (h : d.Owned) (fd : ℕ) (hheap : d'.heapTimeo.Sound EventTimeo.expireTimeMs)
    (hkept : ∀ s t, d.heapTimeo.contents s = some t → d'.heapTimeo.contents s = some t)
    (hsign : ∀ fd', fd' ≠ fd →
      (d'.fdToEventCtx fd').signTimeo = (d.fdToEventCtx fd').signTimeo)
    (hself : ∀ s, (d'.fdToEventCtx fd).signTimeo = some s →
      ∃ e, d'.heapTimeo.contents s = some ⟨e, fd⟩) : d'.Owned := by
  refine ⟨hheap, fun fd' s hs => ?_⟩
  by_cases hfd : fd' = fd
  · subst hfd
    exact hself s hs
  · rw [hsign fd' hfd] at hs
    obtain ⟨e, he⟩ := h.own fd' s hs
    exact ⟨e, hkept s _ he⟩

theorem addTimer (h : d.Owned) (fd : ℕ) (context : Context) (timeoMs now : ℤ) :
    (d.addTimer fd context timeoMs now).Owned := by
  unfold Tables.addTimer
  split_ifs
  · obtain ⟨hsound, hnone, hcont⟩ := h.heap.insert ⟨now + timeoMs, fd⟩
    refine h.setTimer fd hsound (fun s t ht => ?_) (fun fd' hne => ?_) fun s hs => ?_
    · have hne : s ≠ (d.heapTimeo.insert EventTimeo.expireTimeMs ⟨now + timeoMs, fd⟩).2 := by
        rintro rfl
        rw [hnone] at ht
        cases ht
      exact (congrFun hcont s).trans ((Function.update_of_ne hne _ _).trans ht)
    · rw [fdToEventCtx_insertTimer, Function.update_of_ne hne, signTimeo_setContext]
    · rw [fdToEventCtx_insertTimer, Function.update_self] at hs
      cases hs
      exact ⟨now + timeoMs, (congrFun hcont _).trans (Function.update_self _ _ _)⟩
  · refine h.setTimer fd h.heap (fun s t ht => ht) (fun fd' hne => ?_) fun s hs => ?_
    · rw [fdToEventCtx_setSign, Function.update_of_ne hne, signTimeo_setContext]
    · rw [fdToEventCtx_setSign, Function.update_self] at hs
      cases hs

end Owned

theorem heapTimeo_regEventDel (fd : ℕ) :
    (d.regEventDel fd).2.heapTimeo = (d.eraseTimer fd).heapTimeo := by
  simp only [regEventDel]
  split_ifs <;> rfl

theorem signTimeo_regEventDel (fd fd' : ℕ) :
    ((d.regEventDel fd).2.fdToEventCtx fd').signTimeo =
      ((d.eraseTimer fd).fdToEventCtx fd').signTimeo := by
  simp only [regEventDel]
  split_ifs
  · exact signTimeo_setContext none fd'
  · rfl

theorem Owned.regEventDel (h : d.Owned) (fd : ℕ) : (d.regEventDel fd).2.Owned :=
  (h.eraseTimer fd).owned.congr (heapTimeo_regEventDel fd) (signTimeo_regEventDel fd)

theorem stale_congr (hheap : d'.heapTimeo = d.heapTimeo)
    (hsign : ∀ fd, (d'.fdToEventCtx fd).signTimeo = (d.fdToEventCtx fd).signTimeo) :
    d'.Stale sign timeo ↔ d.Stale sign timeo := by
  unfold Stale
  rw [hheap, hsign]

theorem Owned.stale_eraseTimer (h : d.Owned) (hs : d.Stale sign timeo) (fd : ℕ) :
    (d.eraseTimer fd).Stale sign timeo := by
  unfold Tables.eraseTimer
  split
  · rename_i s hsign
    obtain ⟨e, he⟩ := h.own fd s hsign
    obtain ⟨-, hcont, -⟩ := h.heap.erase he
    have hne : sign ≠ s := by
      rintro rfl
      obtain ⟨hc, hlost⟩ := hs
      rw [he] at hc
      cases hc
      exact hlost hsign
    refine ⟨(congrFun hcont sign).trans ((Function.update_of_ne hne _ _).trans hs.1), ?_⟩
    rw [fdToEventCtx_setSign]
    by_cases hfd : timeo.fd = fd
    · rw [hfd, Function.update_self]
      exact (nomatch ·)
    · rw [Function.update_of_ne hfd]
      exact hs.2
  · exact hs

theorem Owned.stale_regEventDel (h : d.Owned) :
    (d.regEventDel fd).2.Stale sign timeo ↔ d.Stale sign timeo := by
  rw [stale_congr (heapTimeo_regEventDel fd) (signTimeo_regEventDel fd)]
  exact ⟨(h.eraseTimer fd).stale sign timeo, fun hs => h.stale_eraseTimer hs fd⟩

theorem Owned.numItems_regEventDel (h : d.Owned)
    (hs : (d.fdToEventCtx fd).signTimeo = some sign) :
    (d.regEventDel fd).2.heapTimeo.numItems = d.heapTimeo.numItems - 1 := by
  obtain ⟨e, he⟩ := h.own fd sign hs
  rw [heapTimeo_regEventDel]
  unfold Tables.eraseTimer
  rw [hs]
  exact (h.heap.erase he).2.2

theorem Owned.root_kept (h : d.Owned) (htop : d.heapTimeo.top = some timeo)
    (hst : ¬ d.Stale (d.heapTimeo.heapItems 1) timeo) :
    (d.fdToEventCtx timeo.fd).signTimeo = some (d.heapTimeo.heapItems 1) := by
  by_contra hne
  exact hst ⟨(h.heap.of_top htop).1, hne⟩

theorem Owned.removeTimeouts_isSome (h : d.Owned) {nows : List ℤ}
    (hlen : d.heapTimeo.numItems ≤ nows.length)
    (hst : ∀ sign timeo, d.Stale sign timeo → ∀ now ∈ nows, now ≤ timeo.expireTimeMs) :
    (d.removeTimeouts nows).isSome := by
  induction nows generalizing d with
  | nil =>
    have hzero : d.heapTimeo.numItems = 0 := Nat.le_zero.mp hlen
    have htop : d.heapTimeo.top = none := if_pos hzero
    rw [removeTimeouts, htop]
    rfl
  | cons now nows ih =>
    rw [removeTimeouts]
    split
    · rfl
    · rename_i timeo htop
      split_ifs with hlt
      · have hkept := h.root_kept htop fun hs => by
          have hle := hst _ _ hs now List.mem_cons_self
          omega
        have hlen' : (d.regEventDel timeo.fd).2.heapTimeo.numItems ≤ nows.length := by
          rw [h.numItems_regEventDel hkept]
          rw [List.length_cons] at hlen
          omega
        have hrec := ih (h.regEventDel timeo.fd) hlen' fun s t ht now hnow =>
          hst s t (h.stale_regEventDel.mp ht) now (List.mem_cons_of_mem _ hnow)
        rwa [Option.isSome_map]
      · rfl

/-- A lost timer that has expired keeps `RemoveTimeouts` running for ever. -/
theorem Owned.removeTimeouts_eq_none (h : d.Owned) {nows : List ℤ} (hs : d.Stale sign timeo)
    (hnow : ∀ now ∈ nows, timeo.expireTimeMs < now) : d.removeTimeouts nows = none := by
  have hsome : ∀ {d : Tables Context}, d.Stale sign timeo → d.heapTimeo.top ≠ none := by
    intro d hs htop
    unfold HeapBase.top at htop
    split_ifs at htop with hnum
    have hc := hs.1
    rw [HeapBase.Sound.contents_of_empty hnum] at hc
    cases hc
  induction nows generalizing d with
  | nil =>
    rw [removeTimeouts]
    split
    · rename_i htop
      exact absurd htop (hsome hs)
    · rfl
  | cons now nows ih =>
    rw [removeTimeouts]
    split
    · rename_i htop
      exact absurd htop (hsome hs)
    · rename_i u htop
      have hle : u.expireTimeMs ≤ timeo.expireTimeMs :=
        (h.heap.of_top htop).2 sign timeo hs.1
      have hlt := hnow now List.mem_cons_self
      rw [if_pos (by omega), ih (h.regEventDel u.fd) (h.stale_regEventDel.mpr hs)
        fun now hmem => hnow now (List.mem_cons_of_mem _ hmem)]
      rfl

end Tables

end EventsDriver

end Magneto
