import Magneto.IOHelper

/-!
# What `WriteVecNonBlock` puts on the wire

It sends its vector in order as long as every `writev` ends in the first slot or
at the end of a slot. Of two slots it otherwise sends the second one again, and of
three it may also leave out bytes of the last one, or get stuck.
-/

namespace Magneto.IOHelper

section vector

variable {n : ℕ} {put : List UInt8} {iovs : List (List UInt8)} {out : SockOut}

theorem advance_eq_drop (n : ℕ) (iovs : List (List UInt8)) :
    advance n iovs = (iovs.drop (slotAt n iovs).1).modifyHead (List.drop (slotAt n iovs).2) := by
  induction iovs generalizing n with
  | nil => rfl
  | cons iov iovs ih =>
    simp only [advance, slotAt]
    split_ifs with h
    · rw [ih, List.drop_succ_cons]
    · rfl

/-- The first `n` bytes of a vector end in its first slot, or at the end of a slot. -/
def EndsInOrder (n : ℕ) (iovs : List (List UInt8)) : Prop :=
  (slotAt n iovs).1 = 0 ∨ (slotAt n iovs).2 = 0

instance (n : ℕ) (iovs : List (List UInt8)) : Decidable (EndsInOrder n iovs) :=
  inferInstanceAs (Decidable (_ ∨ _))

theorem shift_eq_advance (h : EndsInOrder n iovs) : shift n iovs = some (advance n iovs) := by
  simp only [shift, advance_eq_drop]
  rcases h with hslot | hrest
  · -- the bytes end in the first slot, which stays where it is
    rw [hslot, List.drop_zero]
    cases iovs with
    | nil => rfl
    | cons iov iovs =>
      simp only [slotAt] at hslot ⊢
      split_ifs at hslot ⊢ with hle
      simp [show n ≤ iov.length by omega]
  · rw [hrest]
    generalize iovs.drop (slotAt n iovs).1 = left
    have hhead : left.modifyHead (List.drop 0) = left := by cases left <;> rfl
    split
    · rw [hhead]
    · rename_i iov hiov
      obtain ⟨hlt, rfl⟩ := List.getElem?_eq_some_iff.mp hiov
      rw [if_pos (Nat.zero_le _), List.drop_zero, hhead, List.set_getElem_self]

def Aligned (iovs : List (List UInt8)) : SockOut → Prop
  | [] => True
  | .fail :: _ => True
  | .took n :: out =>
    let k := min n iovs.flatten.length
    k = 0 ∨ EndsInOrder k iovs ∧ Aligned (advance k iovs) out

def AlignedAll (iovs : List (List UInt8)) : List SockOut → Prop
  | [] => True
  | out :: outs => Aligned iovs out ∧ AlignedAll (writeVecInOrder iovs out).iovs outs

instance decidableAligned : ∀ (iovs : List (List UInt8)) (out : SockOut),
    Decidable (Aligned iovs out)
  | _, [] => inferInstanceAs (Decidable True)
  | _, .fail :: _ => inferInstanceAs (Decidable True)
  | iovs, .took n :: out =>
    have := decidableAligned (advance (min n iovs.flatten.length) iovs) out
    inferInstanceAs (Decidable (_ ∨ _ ∧ _))

instance decidableAlignedAll : ∀ (iovs : List (List UInt8)) (outs : List SockOut),
    Decidable (AlignedAll iovs outs)
  | _, [] => inferInstanceAs (Decidable True)
  | iovs, out :: outs =>
    have := decidableAlignedAll (writeVecInOrder iovs out).iovs outs
    inferInstanceAs (Decidable (_ ∧ _))

theorem aligned_nil (out : SockOut) : Aligned [] out := by
  cases out with
  | nil => trivial
  | cons answer out => cases answer <;> simp [Aligned]

theorem writeVec_aligned (h : Aligned iovs out) (put : List UInt8) :
    writeVec shift put iovs out = writeVec (fun n iovs => some (advance n iovs)) put iovs out := by
  induction out generalizing iovs put with
  | nil => rfl
  | cons answer out ih =>
    cases answer with
    | fail => rfl
    | took n =>
      simp only [writeVec]
      by_cases hk : min n iovs.flatten.length = 0
      · simp only [hk, ↓reduceIte]
      · obtain ⟨hends, hrest⟩ := h.resolve_left hk
        simp only [if_neg hk, shift_eq_advance hends]
        cases hnext : advance (min n iovs.flatten.length) iovs with
        | nil => rfl
        | cons iov iovs => exact ih (hnext ▸ hrest) _

theorem writeVecNonBlock_aligned (h : Aligned iovs out) :
    writeVecNonBlock iovs out = writeVecInOrder iovs out := writeVec_aligned h []

theorem writeVec_put_prefix (next : ℕ → List (List UInt8) → Option (List (List UInt8)))
    (put : List UInt8) (iovs : List (List UInt8)) (out : SockOut) :
    put <+: (writeVec next put iovs out).put := by
  induction out generalizing put iovs with
  | nil => exact List.prefix_rfl
  | cons answer out ih =>
    cases answer with
    | fail => exact List.prefix_rfl
    | took n =>
      simp only [writeVec]
      split_ifs with hk
      · exact List.prefix_rfl
      have hstep := List.prefix_append put (iovs.flatten.take (min n iovs.flatten.length))
      split
      · exact hstep
      · exact hstep
      · exact hstep.trans (ih _ _)

theorem writeVec_inOrder (put : List UInt8) (iovs : List (List UInt8)) (out : SockOut) :
    let r := writeVec (fun n iovs => some (advance n iovs)) put iovs out
    r.put ++ r.iovs.flatten = put ++ iovs.flatten ∧ r.iovs.length ≤ iovs.length := by
  induction out generalizing put iovs with
  | nil => exact ⟨rfl, le_rfl⟩
  | cons answer out ih =>
    cases answer with
    | fail => exact ⟨rfl, le_rfl⟩
    | took n =>
      simp only [writeVec]
      split_ifs with hk
      · exact ⟨rfl, le_rfl⟩
      generalize min n iovs.flatten.length = k
      have hflat := flatten_advance k iovs
      have hlen := advance_length_le k iovs
      have hput : put ++ iovs.flatten.take k ++ (advance k iovs).flatten = put ++ iovs.flatten := by
        rw [hflat, List.append_assoc, List.take_append_drop]
      cases hnext : advance k iovs with
      | nil =>
        rw [hnext] at hput
        exact ⟨hput, Nat.zero_le _⟩
      | cons iov left =>
        rw [hnext] at hput hlen
        obtain ⟨hall, hslots⟩ := ih (put ++ iovs.flatten.take k) (iov :: left)
        exact ⟨hall.trans hput, hslots.trans hlen⟩

theorem writeVec_ret (hout : .fail ∉ out) (put : List UInt8) (iovs : List (List UInt8)) :
    let r := writeVec (fun n iovs => some (advance n iovs)) put iovs out
    r.ret = Word.narrow r.put.length ∧ r.refused = false := by
  induction out generalizing put iovs with
  | nil => simp only [writeVec, and_self]
  | cons answer out ih =>
    cases answer with
    | fail => exact absurd List.mem_cons_self hout
    | took n =>
      have hrest : .fail ∉ out := fun h => hout (List.mem_cons_of_mem _ h)
      simp only [writeVec]
      split_ifs
      · simp only [and_self]
      cases advance (min n iovs.flatten.length) iovs with
      | nil => simp only [and_self]
      | cons iov left => exact ih hrest _ _

def iovsAfter (iovs : List (List UInt8)) (outs : List SockOut) : List (List UInt8) :=
  outs.foldl (fun iovs out => (writeVecInOrder iovs out).iovs) iovs

theorem alignedAll_concat (iovs : List (List UInt8)) (outs : List SockOut) (out : SockOut) :
    AlignedAll iovs (outs ++ [out]) ↔ AlignedAll iovs outs ∧ Aligned (iovsAfter iovs outs) out := by
  induction outs generalizing iovs with
  | nil => simp [AlignedAll, iovsAfter]
  | cons o outs ih =>
    simp only [List.cons_append, AlignedAll, ih, iovsAfter, List.foldl_cons, and_assoc]

theorem iovsAfter_concat (iovs : List (List UInt8)) (outs : List SockOut) (out : SockOut) :
    iovsAfter iovs (outs ++ [out]) = (writeVecInOrder (iovsAfter iovs outs) out).iovs := by
  simp only [iovsAfter, List.foldl_append, List.foldl_cons, List.foldl_nil]

end vector

section pair

variable {n : ℕ} {iovs : List (List UInt8)}

/-- Of two slots, the second one is sent again when a `writev` ends inside it. -/
theorem shift_pair (hs : iovs.length ≤ 2) (hn : n ≤ iovs.flatten.length)
    (h : ¬ EndsInOrder n iovs) :
    ∃ a b, iovs = [a, b] ∧ shift n iovs = some [b] ∧ a.length < n ∧ n < a.length + b.length := by
  match iovs, hs with
  | [], _ => exact absurd (.inl rfl) h
  | [a], _ =>
    simp only [EndsInOrder, slotAt] at h
    simp only [List.flatten_cons, List.flatten_nil, List.append_nil] at hn
    split_ifs at h
    · simp only [not_or] at h
      omega
    · simp at h
  | [a, b], _ =>
    simp only [List.flatten_cons, List.flatten_nil, List.append_nil, List.length_append] at hn
    simp only [EndsInOrder, slotAt] at h
    split_ifs at h with ha hb
    · simp only [not_or] at h
      omega
    · refine ⟨a, b, rfl, ?_, ?_, ?_⟩
      · simp [shift, slotAt, ha, hb]
      · simp only [not_or] at h
        omega
      · omega
    · simp at h

theorem aligned_single (iov : List UInt8) (out : SockOut) : Aligned [iov] out := by
  induction out generalizing iov with
  | nil => trivial
  | cons answer out ih =>
    cases answer with
    | fail => trivial
    | took n =>
      refine .inr ⟨?_, ?_⟩
      · simp only [EndsInOrder, slotAt, List.flatten_cons, List.flatten_nil, List.append_nil]
        split_ifs
        · right
          simp only
          omega
        · exact .inl rfl
      · simp only [advance]
        split_ifs
        · exact aligned_nil out
        · exact ih _

/-- A call that ends a `writev` inside the second of two slots puts more bytes on the wire than
the slots have. -/
theorem writeVec_pair {out : SockOut} (hs : iovs.length ≤ 2) (h : ¬ Aligned iovs out)
    (put : List UInt8) :
    let r := writeVec shift put iovs out
    r.iovs.length ≤ 1 ∧ r.iovs.flatten.length ≤ iovs.flatten.length ∧
      put.length + iovs.flatten.length < r.put.length + r.iovs.flatten.length := by
  induction out generalizing iovs put with
  | nil => exact absurd trivial h
  | cons answer out ih =>
    cases answer with
    | fail => exact absurd trivial h
    | took n =>
      obtain ⟨hk, hrest⟩ := not_or.mp h
      have hle : min n iovs.flatten.length ≤ iovs.flatten.length := min_le_right _ _
      simp only [writeVec, if_neg hk]
      generalize min n iovs.flatten.length = k at hk hrest hle ⊢
      by_cases hends : EndsInOrder k iovs
      · have halign : ¬ Aligned (advance k iovs) out := fun ha => hrest ⟨hends, ha⟩
        have hflat := congrArg List.length (flatten_advance k iovs)
        rw [List.length_drop] at hflat
        rw [shift_eq_advance hends]
        cases hnext : advance k iovs with
        | nil =>
          rw [hnext] at halign
          exact absurd (aligned_nil out) halign
        | cons iov left =>
          have hlen := (advance_length_le k iovs).trans hs
          rw [hnext] at halign hflat hlen
          obtain ⟨h1, h2, h3⟩ := ih hlen halign (put ++ iovs.flatten.take k)
          rw [List.length_append, List.length_take_of_le hle] at h3
          dsimp only
          exact ⟨h1, by omega, by omega⟩
      · -- from here on the second slot is sent alone, and whole
        obtain ⟨a, b, rfl, hshift, hak, hkb⟩ := shift_pair hs hle hends
        simp only [List.flatten_cons, List.flatten_nil, List.append_nil,
          List.length_append] at hle ⊢
        rw [hshift]
        simp only
        rw [writeVec_aligned (aligned_single b out)]
        obtain ⟨hall, hslots⟩ := writeVec_inOrder (put ++ (a ++ b).take k) [b] out
        have hlen := congrArg List.length hall
        simp only [List.length_append, List.length_take, List.flatten_cons, List.flatten_nil,
          List.append_nil] at hlen
        have hpre := List.IsPrefix.length_le <|
          writeVec_put_prefix (fun n iovs => some (advance n iovs)) (put ++ (a ++ b).take k) [b] out
        simp only [List.length_append, List.length_take] at hpre
        refine ⟨hslots, by omega, by omega⟩

end pair

/-- Every `writev` of a call leaves the bytes in the vector that did not go out: it ended in order,
or the bytes that go out twice are the ones that are cut. -/
def keeps (iovs : List (List UInt8)) : SockOut → Bool
  | [] => true
  | .fail :: _ => true
  | .took n :: out =>
    let k := min n iovs.flatten.length
    k = 0 || match shift k iovs with
      | some left => left.flatten = iovs.flatten.drop k && keeps left out
      | none => false

section keeps

variable {n : ℕ} {iovs left : List (List UInt8)} {out : SockOut} {all sent put : List UInt8}

theorem keeps_of_flatten_nil (h : iovs.flatten = []) (out : SockOut) : keeps iovs out = true := by
  cases out with
  | nil => rfl
  | cons answer out =>
    cases answer with
    | fail => rfl
    | took n => simp only [keeps, h, List.length_nil, Nat.min_zero, decide_true, Bool.true_or]

theorem shift_length_le (h : shift n iovs = some left) : left.length ≤ iovs.length := by
  have hdrop : (iovs.drop (slotAt n iovs).1).length ≤ iovs.length := by
    rw [List.length_drop]
    exact Nat.sub_le _ _
  simp only [shift] at h
  split at h
  · exact Option.some.inj h ▸ hdrop
  · split_ifs at h
    rw [← Option.some.inj h, List.length_set]
    exact hdrop

theorem writeVec_keeps (h : keeps iovs out = true) (put : List UInt8) :
    let r := writeVec shift put iovs out
    r.put ++ r.iovs.flatten = put ++ iovs.flatten ∧ r.iovs.length ≤ iovs.length ∧
      r.refused = false ∧ (.fail ∉ out → r.ret = Word.narrow r.put.length) := by
  induction out generalizing iovs put with
  | nil => exact ⟨rfl, le_rfl, rfl, fun _ => by simp only [writeVec]⟩
  | cons answer out ih =>
    cases answer with
    | fail => exact ⟨rfl, le_rfl, rfl, fun hmem => absurd List.mem_cons_self hmem⟩
    | took n =>
      simp only [keeps, Bool.or_eq_true, decide_eq_true_eq] at h
      simp only [writeVec]
      split_ifs with hk
      · exact ⟨rfl, le_rfl, rfl, fun _ => by simp only⟩
      have h := h.resolve_left hk
      cases hshift : shift (min n iovs.flatten.length) iovs with
      | none =>
        rw [hshift] at h
        cases h
      | some left =>
        simp only [hshift, Bool.and_eq_true, decide_eq_true_eq] at h
        have hput : put ++ iovs.flatten.take (min n iovs.flatten.length) ++ left.flatten =
            put ++ iovs.flatten := by
          rw [h.1, List.append_assoc, List.take_append_drop]
        have hlen := shift_length_le hshift
        cases left with
        | nil => exact ⟨hput, Nat.zero_le _, rfl, fun _ => by simp only⟩
        | cons iov left =>
          obtain ⟨hall, hslots, href, hret⟩ :=
            ih h.2 (put ++ iovs.flatten.take (min n iovs.flatten.length))
          exact ⟨hall.trans hput, hslots.trans hlen, href,
            fun hmem => hret fun hin => hmem (List.mem_cons_of_mem _ hin)⟩

/-- What went out and what is left are no longer the bytes the vector began with. -/
structure Astray (all sent : List UInt8) (iovs : List (List UInt8)) : Prop where
  small : iovs.flatten.length ≤ all.length
  differs : iovs.length ≤ 1 ∧ all.length < sent.length + iovs.flatten.length ∨
    iovs.length ≤ 2 ∧ all.length = sent.length + iovs.flatten.length ∧
      sent ++ iovs.flatten ≠ all

theorem endsInOrder_single (hn : n ≤ iovs.flatten.length) (hs : iovs.length ≤ 1) :
    EndsInOrder n iovs := by
  by_contra h
  obtain ⟨a, b, rfl, -⟩ := shift_pair (hs.trans one_le_two) hn h
  exact absurd hs (by simp)

theorem Astray.shift (h : Astray all sent iovs) (hn : n ≤ iovs.flatten.length) :
    ∃ left, shift n iovs = some left ∧ Astray all (sent ++ iovs.flatten.take n) left := by
  have hsmall := h.small
  have htake : (sent ++ iovs.flatten.take n).length = sent.length + n := by
    rw [List.length_append, List.length_take_of_le hn]
  have hslots := advance_length_le n iovs
  have hflat := flatten_advance n iovs
  have hleft := congrArg List.length hflat
  rw [List.length_drop] at hleft
  rcases h.differs with ⟨hs, hlong⟩ | ⟨hs, hlen, hne⟩
  · exact ⟨_, shift_eq_advance (endsInOrder_single hn hs), by omega,
      .inl ⟨hslots.trans hs, by omega⟩⟩
  · by_cases hends : EndsInOrder n iovs
    · refine ⟨_, shift_eq_advance hends, by omega, .inr ⟨hslots.trans hs, by omega, ?_⟩⟩
      rwa [hflat, List.append_assoc, List.take_append_drop]
    · obtain ⟨a, b, rfl, hshift, ha, -⟩ := shift_pair hs hn hends
      simp only [List.flatten_cons, List.flatten_nil, List.append_nil, List.length_append]
        at hlen hsmall
      have hb : [b].flatten.length = b.length := by simp
      exact ⟨[b], hshift, by omega, .inl ⟨le_rfl, by omega⟩⟩

/-- The first `writev` that does not end in order leads astray, or leaves a vector that is
refused, unless what is left is what did not go out. -/
theorem shift_astray (hs : iovs.length ≤ 3) (hall : sent ++ iovs.flatten = all)
    (hn : n ≤ iovs.flatten.length) (hleft : shift n iovs = some left)
    (hne : left.flatten ≠ iovs.flatten.drop n) : Astray all (sent ++ iovs.flatten.take n) left := by
  have hends : ¬ EndsInOrder n iovs := by
    intro hends
    rw [shift_eq_advance hends] at hleft
    exact hne (Option.some.inj hleft ▸ flatten_advance n iovs)
  have htake : (sent ++ iovs.flatten.take n).length = sent.length + n := by
    rw [List.length_append, List.length_take_of_le hn]
  have hlen := congrArg List.length hall
  rw [List.length_append] at hlen
  have hne' : sent ++ iovs.flatten.take n ++ left.flatten ≠ all := by
    intro heq
    rw [← hall, List.append_assoc] at heq
    have hsame := List.append_cancel_left heq
    conv at hsame => rhs; rw [← List.take_append_drop n iovs.flatten]
    exact hne (List.append_cancel_left hsame)
  match iovs, hs with
  | [], _ => exact absurd (.inl rfl) hends
  | [a], _ => exact absurd (endsInOrder_single hn le_rfl) hends
  | [a, b], _ =>
    obtain ⟨a', b', heq, hshift, ha, -⟩ := shift_pair le_rfl hn hends
    obtain ⟨rfl, rfl⟩ : a = a' ∧ b = b' := by simpa using heq
    obtain rfl : left = [b] := Option.some.inj (hleft.symm.trans hshift)
    simp only [List.flatten_cons, List.flatten_nil, List.append_nil, List.length_append] at hlen
    have hb : [b].flatten.length = b.length := by simp
    exact ⟨by omega, .inl ⟨le_rfl, by omega⟩⟩
  | [a, b, c], _ =>
    simp only [List.flatten_cons, List.flatten_nil, List.append_nil, List.length_append] at hn hlen
    simp only [EndsInOrder, slotAt] at hends
    simp only [IOHelper.shift, slotAt] at hleft
    split_ifs at hends hleft with ha hb hc
    · simp only [not_or] at hends
      omega
    · -- the last slot is sent again
      simp at hleft
      subst hleft
      simp only [not_or] at hends
      have hc : [c].flatten.length = c.length := by simp
      exact ⟨by omega, .inl ⟨le_rfl, by omega⟩⟩
    · -- the middle slot is sent again, and the last one is cut
      simp at hleft
      obtain ⟨hk, rfl⟩ := hleft
      have hbc : [b, c.drop (n - a.length)].flatten.length =
          b.length + (c.length - (n - a.length)) := by
        simp
      exact ⟨by omega, .inr ⟨le_rfl, by omega, hne'⟩⟩
    · simp at hends

theorem Astray.slots_le (h : Astray all sent iovs) : iovs.length ≤ 3 := by
  rcases h.differs with ⟨hs, -⟩ | ⟨hs, -⟩
  · exact hs.trans (by decide)
  · exact hs.trans (by decide)

theorem Astray.not_all_of_done (h : Astray all sent iovs) (hdone : iovs.flatten = []) :
    sent ≠ all := by
  rcases h.differs with ⟨-, hlong⟩ | ⟨-, -, hne⟩
  · rintro rfl
    rw [hdone, List.length_nil] at hlong
    omega
  · rwa [hdone, List.append_nil] at hne

theorem Astray.writeVec (h : Astray all (sent ++ put) iovs) (out : SockOut) :
    let r := writeVec IOHelper.shift put iovs out
    Astray all (sent ++ r.put) r.iovs ∧ r.refused = false := by
  induction out generalizing iovs put with
  | nil => exact ⟨h, rfl⟩
  | cons answer out ih =>
    cases answer with
    | fail => exact ⟨h, rfl⟩
    | took n =>
      simp only [IOHelper.writeVec]
      split_ifs with hk
      · exact ⟨h, rfl⟩
      obtain ⟨left, hleft, hastray⟩ := h.shift (n := min n iovs.flatten.length) (min_le_right _ _)
      rw [List.append_assoc] at hastray
      rw [hleft]
      cases left with
      | nil => exact ⟨hastray, rfl⟩
      | cons iov left => exact ih hastray

theorem writeVec_not_keeps (hs : iovs.length ≤ 3) (hall : sent ++ (put ++ iovs.flatten) = all)
    (h : keeps iovs out = false) :
    let r := writeVec shift put iovs out
    r.refused = true ∧ r.ret = -2 ∨ Astray all (sent ++ r.put) r.iovs ∧ r.refused = false := by
  induction out generalizing iovs put with
  | nil => simp [keeps] at h
  | cons answer out ih =>
    cases answer with
    | fail => simp [keeps] at h
    | took n =>
      simp only [keeps, Bool.or_eq_false_iff, decide_eq_false_iff_not] at h
      obtain ⟨hk, h⟩ := h
      simp only [writeVec, if_neg hk]
      cases hshift : shift (min n iovs.flatten.length) iovs with
      | none => exact .inl ⟨rfl, rfl⟩
      | some left =>
        rw [← List.append_assoc] at hall
        simp only [hshift, Bool.and_eq_false_iff, decide_eq_false_iff_not] at h
        by_cases hflat : left.flatten = iovs.flatten.drop (min n iovs.flatten.length)
        · have hrest := h.resolve_left (not_not.mpr hflat)
          have hall' : sent ++ (put ++ iovs.flatten.take (min n iovs.flatten.length) ++
              left.flatten) = all := by
            rw [hflat, List.append_assoc, List.take_append_drop, ← List.append_assoc, hall]
          have hslots := (shift_length_le hshift).trans hs
          cases left with
          | nil =>
            -- nothing is left to send, and the answers that follow are not asked for
            rw [keeps_of_flatten_nil rfl] at hrest
            cases hrest
          | cons iov left => exact ih hslots hall' hrest
        · right
          have hastray := shift_astray hs hall (min_le_right _ _) hshift hflat
          rw [List.append_assoc] at hastray
          cases left with
          | nil => exact ⟨hastray, rfl⟩
          | cons iov left => exact hastray.writeVec out

def keepsAll (iovs : List (List UInt8)) : List SockOut → Bool
  | [] => true
  | out :: outs => keeps iovs out && keepsAll (writeVecNonBlock iovs out).iovs outs

theorem keepsAll_of_flatten_nil (h : iovs.flatten = []) (outs : List SockOut) :
    keepsAll iovs outs = true := by
  induction outs generalizing iovs with
  | nil => rfl
  | cons out outs ih =>
    have hkeeps := keeps_of_flatten_nil h out
    obtain ⟨hput, -⟩ := writeVec_keeps hkeeps []
    rw [h, List.append_nil, List.append_eq_nil_iff] at hput
    rw [keepsAll, hkeeps, Bool.true_and]
    exact ih hput.2

end keeps

end Magneto.IOHelper
