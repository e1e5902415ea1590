import Magneto.IOBasicRun
import Magneto.Lib.KeyedList
import Mathlib.Data.List.Induction

/-!
# Filing the connections of an operation

The service cache is a map from service numbers. Of the talks an operation is
handed back, those with a descriptor are inserted, where an entry of the same
service is kept, and the others take out the entry of their service. So a talk
with a descriptor keeps it exactly when no later talk has the same service.
-/

namespace Magneto

variable {P : Protocols}

def Talk.no (t : Talk P) : Option ℕ := t.service.map Service.no

namespace ServiceCache

variable {cache : ServiceCache}

structure Ok (cache : ServiceCache) : Prop where
  keyed : KeyedList.Keyed CachedFd.no cache
  sound : cache.Sound

theorem Sound.inj {e e' : CachedFd} (h : cache.Sound) (he : e ∈ cache) (he' : e' ∈ cache)
    (hfd : e.fd = e'.fd) : e = e' :=
  List.inj_on_of_nodup_map h.nodup he he' hfd

abbrev entry (cache : ServiceCache) (no : ℕ) : Option CachedFd := KeyedList.get CachedFd.no cache no

def entryOf (no : ℕ) (t : Talk P) : CachedFd := ⟨no, t.fd, t.remote, t.peer⟩

theorem insertFd_eq (cache : ServiceCache) (e : CachedFd) :
    cache.insertFd e = KeyedList.insertNew CachedFd.no cache e := rfl

theorem invalidFd_eq (cache : ServiceCache) (no : ℕ) :
    cache.invalidFd no = KeyedList.erase CachedFd.no cache no := rfl

theorem fileTalk_keyed (h : KeyedList.Keyed CachedFd.no cache) (t : Talk P) :
    KeyedList.Keyed CachedFd.no (cache.fileTalk t) := by
  unfold fileTalk
  split
  · split_ifs
    · rw [insertFd_eq]
      exact h.insertNew _
    · rw [invalidFd_eq]
      exact h.erase _
  · exact h

theorem fileTalks_keyed (talks : List (Talk P)) (h : KeyedList.Keyed CachedFd.no cache) :
    KeyedList.Keyed CachedFd.no (cache.fileTalks talks) := by
  induction talks generalizing cache with
  | nil => exact h
  | cons t talks ih => exact ih (fileTalk_keyed h t)

theorem entry_fileTalk (h : KeyedList.Keyed CachedFd.no cache) (t : Talk P) (no : ℕ) :
    (cache.fileTalk t).entry no =
      if t.no = some no then
        if 0 < t.fd then (cache.entry no).or (some (entryOf no t)) else none
      else cache.entry no := by
  unfold fileTalk Talk.no
  cases hs : t.service with
  | none => simp
  | some service =>
    simp only [Option.map_some, Option.some.injEq]
    by_cases hno : service.no = no
    · subst hno
      simp only [↓reduceIte]
      split_ifs
      · rw [insertFd_eq, entry, KeyedList.get_insertNew, if_pos rfl]
        rfl
      · rw [invalidFd_eq, entry, KeyedList.get_erase h, if_pos rfl]
    · rw [if_neg hno]
      split_ifs
      · rw [insertFd_eq, entry, KeyedList.get_insertNew, if_neg (Ne.symm hno)]
      · rw [invalidFd_eq, entry, KeyedList.get_erase h, if_neg (Ne.symm hno)]

theorem fileTalks_append (cache : ServiceCache) (talks talks' : List (Talk P)) :
    cache.fileTalks (talks ++ talks') = (cache.fileTalks talks).fileTalks talks' :=
  List.foldl_append

theorem entry_fileTalks_of_ne {no : ℕ} {talks : List (Talk P)}
    (h : KeyedList.Keyed CachedFd.no cache) (hne : ∀ t ∈ talks, t.no ≠ some no) :
    (cache.fileTalks talks).entry no = cache.entry no := by
  induction talks generalizing cache with
  | nil => rfl
  | cons t talks ih =>
    obtain ⟨ht, hne⟩ := List.forall_mem_cons.mp hne
    refine (ih (fileTalk_keyed h t) hne).trans ?_
    rw [entry_fileTalk h, if_neg ht]

theorem entry_fileTalks_cases {no : ℕ} {talks : List (Talk P)} {e : CachedFd}
    (h : KeyedList.Keyed CachedFd.no cache) (he : (cache.fileTalks talks).entry no = some e) :
    cache.entry no = some e ∨ ∃ t ∈ talks, t.no = some no ∧ 0 < t.fd ∧ e = entryOf no t := by
  induction talks generalizing cache with
  | nil => exact .inl he
  | cons t talks ih =>
    rcases ih (fileTalk_keyed h t) he with he | ⟨u, hu, hcase⟩
    · rw [entry_fileTalk h] at he
      split_ifs at he with hno hpos
      · cases hc : cache.entry no with
        | some e' =>
          rw [hc] at he
          exact .inl he
        | none =>
          rw [hc] at he
          exact .inr ⟨t, List.mem_cons_self, hno, hpos, (Option.some.inj he).symm⟩
      · exact .inl he
    · exact .inr ⟨u, List.mem_cons_of_mem t hu, hcase⟩

/-- An entry stays exactly as long as no talk of its service ends without a descriptor. -/
theorem entry_fileTalks_iff {no : ℕ} {e : CachedFd} {talks : List (Talk P)}
    (h : KeyedList.Keyed CachedFd.no cache) (he : cache.entry no = some e)
    (hd : ∀ t ∈ talks, 0 < t.fd → t.fd ≠ e.fd) :
    (cache.fileTalks talks).entry no = some e ↔ ∀ t ∈ talks, t.no = some no → 0 < t.fd := by
  induction talks generalizing cache with
  | nil => exact iff_of_true he (by simp)
  | cons t talks ih =>
    obtain ⟨-, hd⟩ := List.forall_mem_cons.mp hd
    rw [List.forall_mem_cons]
    have hk := fileTalk_keyed h t
    have hstep := entry_fileTalk h t no
    rw [he] at hstep
    by_cases hlost : t.no = some no ∧ ¬ 0 < t.fd
    · rw [if_pos hlost.1, if_neg hlost.2] at hstep
      refine iff_of_false (fun hmem => ?_) fun hpos => hlost.2 (hpos.1 hlost.1)
      -- the entry would be of a second talk with the same descriptor
      rcases entry_fileTalks_cases hk hmem with hsome | ⟨w, hw, -, hwpos, hwe⟩
      · rw [hstep] at hsome
        cases hsome
      · exact hd w hw hwpos (congrArg CachedFd.fd hwe).symm
    · have hpos : t.no = some no → 0 < t.fd := fun hno => by_contra fun hle => hlost ⟨hno, hle⟩
      have hkept : (cache.fileTalk t).entry no = some e := by
        rw [hstep]
        split_ifs with hno hfd
        · rfl
        · exact absurd (hpos hno) hfd
        · rfl
      exact (ih hk hkept hd).trans (and_iff_right hpos).symm

theorem entry_fileTalks_first {no : ℕ} {talks : List (Talk P)} {u : Talk P}
    (h : KeyedList.Keyed CachedFd.no cache) (hnone : cache.entry no = none)
    (hne : ∀ t ∈ talks, t.no ≠ some no) (hno : u.no = some no) (hpos : 0 < u.fd) :
    ((cache.fileTalks talks).fileTalk u).entry no = some (entryOf no u) := by
  rw [entry_fileTalk (fileTalks_keyed talks h), if_pos hno, if_pos hpos,
    entry_fileTalks_of_ne h hne, hnone]
  rfl

def Keeps (cache : ServiceCache) (t : Talk P) : Prop :=
  ∃ no, t.no = some no ∧ cache.entry no = some (entryOf no t)

instance (cache : ServiceCache) (t : Talk P) : Decidable (cache.Keeps t) :=
  match h : t.no with
  | none => isFalse fun ⟨no, hno, _⟩ => by rw [h] at hno; cases hno
  | some no => decidable_of_iff (cache.entry no = some (entryOf no t))
      ⟨fun he => ⟨no, h, he⟩, fun ⟨m, hm, he⟩ => by
        obtain rfl : no = m := Option.some.inj (h.symm.trans hm)
        exact he⟩

/-- No talk that has a descriptor is followed by a talk of the same service. -/
def Unrepeated (talks : List (Talk P)) : Prop :=
  talks.Pairwise fun t u => 0 < t.fd → t.no ≠ u.no

theorem fileTalks_keeps_iff {talks : List (Talk P)} (h : KeyedList.Keyed CachedFd.no cache)
    (hservice : ∀ t ∈ talks, ∃ no, t.no = some no ∧ cache.entry no = none)
    (hd : talks.Pairwise fun t u => 0 < t.fd → t.fd ≠ u.fd) :
    (∀ t ∈ talks, 0 < t.fd → (cache.fileTalks talks).Keeps t) ↔ Unrepeated talks := by
  induction talks using List.reverseRecOn with
  | nil => simp [Unrepeated]
  | append_singleton talks z ih =>
    obtain ⟨hd, -, hdz⟩ := List.pairwise_append.mp hd
    have hservice' := fun t ht => hservice t (List.mem_append_left _ ht)
    obtain ⟨no, hz, hnone⟩ := hservice z (by simp)
    have hk := fileTalks_keyed talks h
    have hstep : ∀ m, (cache.fileTalks (talks ++ [z])).entry m =
        if some no = some m then
          if 0 < z.fd then ((cache.fileTalks talks).entry m).or (some (entryOf m z)) else none
        else (cache.fileTalks talks).entry m := by
      intro m
      rw [fileTalks_append, ← hz]
      exact entry_fileTalk hk z m
    have hlast : ∀ t ∈ talks, 0 < t.fd → t.no ≠ z.no →
        ((cache.fileTalks (talks ++ [z])).Keeps t ↔ (cache.fileTalks talks).Keeps t) := by
      intro t ht hpos hne
      unfold Keeps
      refine exists_congr fun m => and_congr_right fun hm => ?_
      rw [hstep m, if_neg (hm ▸ hz ▸ Ne.symm hne)]
    have hpair : Unrepeated (talks ++ [z]) ↔
        Unrepeated talks ∧ ∀ t ∈ talks, 0 < t.fd → t.no ≠ z.no := by
      simp [Unrepeated, List.pairwise_append]
    rw [hpair]
    constructor
    · intro hkeep
      have hne : ∀ t ∈ talks, 0 < t.fd → t.no ≠ z.no := by
        -- the entry of a service repeated at the end is the last talk's, or none
        intro t ht hpos heq
        obtain ⟨m, hm, hentry⟩ := hkeep t (List.mem_append_left _ ht) hpos
        obtain rfl : no = m := Option.some.inj (hz.symm.trans (heq.symm.trans hm))
        by_cases hzpos : 0 < z.fd
        · obtain ⟨m', hm', hentry'⟩ := hkeep z (by simp) hzpos
          obtain rfl : no = m' := Option.some.inj (hz.symm.trans hm')
          have hfd := congrArg CachedFd.fd (Option.some.inj (hentry.symm.trans hentry'))
          exact hdz t ht z (by simp) hpos hfd
        · rw [hstep no, if_pos rfl, if_neg hzpos] at hentry
          cases hentry
      refine ⟨(ih hservice' hd).mp fun t ht hpos => ?_, hne⟩
      exact (hlast t ht hpos (hne t ht hpos)).mp (hkeep t (List.mem_append_left _ ht) hpos)
    · rintro ⟨hpairs, hne⟩ t ht hpos
      rcases List.mem_append.mp ht with ht | ht
      · exact (hlast t ht hpos (hne t ht hpos)).mpr ((ih hservice' hd).mpr hpairs t ht hpos)
      · obtain rfl := List.mem_singleton.mp ht
        refine ⟨no, hz, ?_⟩
        have hempty : (cache.fileTalks talks).entry no = none := by
          by_contra hsome
          obtain ⟨e, he⟩ := Option.ne_none_iff_exists'.mp hsome
          rcases entry_fileTalks_cases h he with he | ⟨u, hu, huno, hupos, -⟩
          · rw [hnone] at he
            cases he
          · exact hne u hu hupos (huno.trans hz.symm)
        rw [hstep no, if_pos rfl, if_pos hpos, hempty]
        rfl

end ServiceCache

end Magneto
