import Magneto.MPSCFixedPipeSpec

/-!
# The calls of the pipe

What each call does to the messages in the buffer.
-/

namespace Magneto

namespace MPSCFixedPipe

open Cells (write read fill Agree Filled)

variable {fresh : ℕ → UInt8} {m : MPSCFixedPipe} {p n v : ℕ} {msg : PipeMsg}
  {front back rest : List PipeMsg}

theorem sound_init {sizePipe maxSizeContent threshold : ℕ} {notifier : Bool}
    (hinit : init fresh sizePipe maxSizeContent threshold notifier = some m)
    (hmax : maxSizeContent < 2 ^ 31 - 1) : m.Sound fresh [] [] := by
  unfold init at hinit
  split_ifs at hinit with hbad
  cases hinit
  have hoff : kMsgOffset = 8 := rfl
  rw [not_or, hoff] at hbad
  refine ⟨Nat.lt_of_not_le hbad.1, hmax, rfl, (fun _ hmem => nomatch hmem), fun i hi => ?_, ?_⟩
  · exact if_neg fun h => Nat.not_lt.mpr hi h.2
  · exact .straight rfl (Nat.zero_le _) (fun _ _ hlt => absurd hlt (Nat.not_lt_zero _))
      Cells.filled_fill

theorem advance_last (hn : 0 < n) (hmsg : Holds m.pipe p msg)
    (hlen : msg.content.length < 2 ^ 31 - 1) (hfrom : m.senderPaceFrom = (p, v))
    (hto : m.senderPaceTo.1 = p + (8 + msg.content.length)) :
    advance n m (p, v) = { m with senderPaceFrom := (p + (8 + msg.content.length), v) } := by
  obtain ⟨n, rfl⟩ := Nat.exists_eq_add_one_of_ne_zero hn.ne'
  have hsize := hmsg.getMsgSize hlen
  have hblank : getMsgSize m.pipe p ≠ kBlank := by
    rw [hsize, kBlank]
    omega
  rw [advance]
  dsimp only
  rw [if_neg hblank, if_neg (not_not.mpr hfrom), hsize, hto]
  simp

theorem justSendMsg_last (msg : PipeMsg) (pos : Option ℕ) (hpos : 0 < m.sizePipe)
    (hmsg : Holds (stored m.pipe p msg) p msg) (hlen : msg.content.length < 2 ^ 31 - 1)
    (hfrom : m.senderPaceFrom = (p, v))
    (hto : m.senderPaceTo.1 = p + (8 + msg.content.length)) :
    justSendMsg { m with pipe := store m.pipe p msg } p pos =
      some { m with
        pipe := stored m.pipe p msg
        senderPaceFrom := (p + (8 + msg.content.length), v) } := by
  unfold justSendMsg
  dsimp only
  rw [hfrom, if_pos rfl]
  exact congrArg some (advance_last (m := { m with
    pipe := stored m.pipe p msg
    senderPaceFrom := (p, v) }) hpos hmsg hlen rfl hto)

theorem justSendMsg_rewound (msg : PipeMsg) (hpos : 0 < m.sizePipe) (hp : p ≠ 0)
    (hmsg : Holds (stored m.pipe 0 msg) 0 msg) (hlen : msg.content.length < 2 ^ 31 - 1)
    (hfrom : m.senderPaceFrom = (p, v)) (hto : m.senderPaceTo.1 = 8 + msg.content.length) :
    justSendMsg { m with pipe := store m.pipe 0 msg } 0 (some p) =
      some { m with
        pipe := stored m.pipe 0 msg
        senderPaceFrom := (8 + msg.content.length, (v + 1) % kNumVersions) } := by
  unfold justSendMsg
  dsimp only
  rw [hfrom, if_neg hp, if_pos rfl, if_neg (not_not.mpr rfl)]
  have hadv := advance_last (v := (v + 1) % kNumVersions)
    (m := { m with
      pipe := stored m.pipe 0 msg
      senderPaceFrom := (0, (v + 1) % kNumVersions) }) hpos hmsg hlen rfl
    (hto.trans (Nat.zero_add _).symm)
  rw [Nat.zero_add] at hadv
  exact congrArg some hadv

def pushed (m : MPSCFixedPipe) (p v : ℕ) (msg : PipeMsg) : MPSCFixedPipe :=
  { m with
    pipe := stored m.pipe p msg
    senderPaceFrom := (p + (8 + msg.content.length), v)
    senderPaceTo := (p + (8 + msg.content.length), v) }

namespace Layout

theorem append_straight (front_tiles : Tiles m.pipe m.receiverPace front m.senderPaceTo.1)
    (before : Filled m.pipe 0 m.receiverPace 255)
    (after : Filled m.pipe m.senderPaceTo.1 m.sizePipe 255) (hlen : msg.content.length < 2 ^ 31)
    (hend : m.senderPaceTo.1 + (8 + msg.content.length) ≤ m.sizePipe) :
    Layout (m.pushed m.senderPaceTo.1 v msg) (front ++ [msg]) [] := by
  have hle := front_tiles.le
  have htiles := (front_tiles.congr (agree_stored (.inl (Nat.le_refl _))).symm).append
    (holds_stored hlen)
  rw [Nat.add_assoc] at htiles
  have hafter : Filled (stored m.pipe m.senderPaceTo.1 msg)
      (m.senderPaceTo.1 + (8 + msg.content.length)) m.sizePipe 255 :=
    (after.mono (by omega) (Nat.le_refl _)).congr (agree_stored (.inr (by omega)))
  exact .straight htiles hend (before.congr (agree_stored (.inl hle))) hafter

theorem append_rewind (front_tiles : Tiles m.pipe m.receiverPace front m.senderPaceTo.1)
    (inside : m.senderPaceTo.1 ≤ m.sizePipe) (before : Filled m.pipe 0 m.receiverPace 255)
    (after : Filled m.pipe m.senderPaceTo.1 m.sizePipe 255) (hlen : msg.content.length < 2 ^ 31)
    (hfit : 8 + msg.content.length < m.receiverPace) :
    Layout (m.pushed 0 v msg) front [msg] := by
  have hle := front_tiles.le
  have hto : (m.pushed 0 v msg).senderPaceTo.1 = 8 + msg.content.length := Nat.zero_add _
  have hbetween : Filled (stored m.pipe 0 msg) (8 + msg.content.length) m.receiverPace 255 :=
    (before.mono (Nat.zero_le _) (Nat.le_refl _)).congr (agree_stored (.inr (by omega)))
  have hback : Tiles (stored m.pipe 0 msg) 0 [msg] (8 + msg.content.length) :=
    ⟨holds_stored hlen, (Nat.add_assoc _ _ _).trans (Nat.zero_add _)⟩
  refine .rewound (hto ▸ hfit) (List.cons_ne_nil _ _)
    (front_tiles.congr (agree_stored (.inr (by omega))).symm) inside (hto ▸ hback)
    (hto ▸ hbetween) (after.congr (agree_stored (.inr (by omega))))

theorem append_rewound {e : ℕ} (front_tiles : Tiles m.pipe m.receiverPace front e)
    (inside : e ≤ m.sizePipe) (back_tiles : Tiles m.pipe 0 back m.senderPaceTo.1)
    (between : Filled m.pipe m.senderPaceTo.1 m.receiverPace 255)
    (after : Filled m.pipe e m.sizePipe 255) (hlen : msg.content.length < 2 ^ 31)
    (hfit : m.senderPaceTo.1 + (8 + msg.content.length) < m.receiverPace) :
    Layout (m.pushed m.senderPaceTo.1 v msg) front (back ++ [msg]) := by
  have hle := front_tiles.le
  have htiles := (back_tiles.congr (agree_stored (.inl (Nat.le_refl _))).symm).append
    (holds_stored hlen)
  rw [Nat.add_assoc] at htiles
  have hbetween : Filled (stored m.pipe m.senderPaceTo.1 msg)
      (m.senderPaceTo.1 + (8 + msg.content.length)) m.receiverPace 255 :=
    (between.mono (by omega) (Nat.le_refl _)).congr (agree_stored (.inr (by omega)))
  exact .rewound hfit (by simp) (front_tiles.congr (agree_stored (.inr (by omega))).symm) inside
    htiles hbetween (after.congr (agree_stored (.inr (by omega))))

end Layout

namespace Sound

theorem push (h : m.Sound fresh front back) (hn : msg.content.length ≤ m.maxSizeContent)
    (hfit : p + (8 + msg.content.length) ≤ m.sizePipe) {front' back' : List PipeMsg}
    (happ : front' ++ back' = front ++ back ++ [msg])
    (hlayout : Layout (m.pushed p v msg) front' back') :
    (m.pushed p v msg).Sound fresh front' back' := by
  refine ⟨h.size, h.small, rfl, fun x hx => ?_, fun i hi => ?_, hlayout⟩
  · rw [happ] at hx
    obtain hold | hnew := List.mem_append.mp hx
    · exact h.short x hold
    · rw [List.mem_singleton.mp hnew]
      exact hn
  · have hsize : m.sizePipe ≤ i := hi
    have hag : Agree (stored m.pipe p msg) m.pipe i (i + 1) := agree_stored (.inr (by omega))
    exact (hag i (Nat.le_refl i) (Nat.lt_succ_self i)).trans (h.outside i hi)

theorem sendOnce_append (h : m.Sound fresh front back) (hn : msg.content.length ≤ m.maxSizeContent)
    (hpace : m.receiverPace ≤ m.senderPaceTo.1 ∧
        m.senderPaceTo.1 + (8 + msg.content.length) ≤ m.sizePipe ∨
      m.senderPaceTo.1 < m.receiverPace ∧
        m.senderPaceTo.1 + (8 + msg.content.length) < m.receiverPace) :
    m.sendOnce msg = some (true, m.pushed m.senderPaceTo.1 m.senderPaceTo.2 msg) := by
  have hsmall := h.small
  have hsize := h.size
  have hres : m.reserveSpaceForSend msg.content.length =
      some (m.senderPaceTo.1, none, { m with senderPaceTo :=
        (m.senderPaceTo.1 + (8 + msg.content.length), m.senderPaceTo.2) }) := by
    unfold reserveSpaceForSend
    dsimp only
    rw [if_neg (Nat.not_lt.mpr hn)]
    obtain ⟨hle, hfit⟩ | ⟨hlt, hfit⟩ := hpace
    · exact (if_pos hle).trans (if_pos hfit)
    · exact (if_neg (Nat.not_le.mpr hlt)).trans (if_pos hfit)
  unfold sendOnce
  rw [hres]
  dsimp only
  have hjust := justSendMsg_last msg none (v := m.senderPaceTo.2)
    (m := { m with senderPaceTo :=
      (m.senderPaceTo.1 + (8 + msg.content.length), m.senderPaceTo.2) })
    (by omega : 0 < m.sizePipe) (holds_stored (by omega)) (by omega) h.published rfl
  exact congrArg (Option.map (true, ·)) hjust

theorem sendOnce_rewind (h : m.Sound fresh front back) (hn : msg.content.length ≤ m.maxSizeContent)
    (hle : m.receiverPace ≤ m.senderPaceTo.1)
    (hend : m.sizePipe < m.senderPaceTo.1 + (8 + msg.content.length))
    (hfit : 8 + msg.content.length < m.receiverPace) :
    m.sendOnce msg = some (true, m.pushed 0 ((m.senderPaceTo.2 + 1) % kNumVersions) msg) := by
  have hsmall := h.small
  have hsize := h.size
  have hres : m.reserveSpaceForSend msg.content.length =
      some (0, some m.senderPaceTo.1, { m with senderPaceTo :=
        (8 + msg.content.length, (m.senderPaceTo.2 + 1) % kNumVersions) }) := by
    unfold reserveSpaceForSend
    dsimp only
    rw [if_neg (Nat.not_lt.mpr hn), if_pos hle]
    exact (if_neg (Nat.not_le.mpr hend)).trans (if_pos hfit)
  unfold sendOnce
  rw [hres]
  dsimp only
  have hjust := justSendMsg_rewound msg (v := m.senderPaceTo.2) (p := m.senderPaceTo.1)
    (m := { m with senderPaceTo :=
      (8 + msg.content.length, (m.senderPaceTo.2 + 1) % kNumVersions) })
    (by omega : 0 < m.sizePipe) (by omega) (holds_stored (by omega)) (by omega) h.published rfl
  refine (congrArg (Option.map (true, ·)) hjust).trans ?_
  rw [pushed, Nat.zero_add]
  rfl

theorem sendOnce_none (hres : m.reserveSpaceForSend msg.content.length = none) :
    m.sendOnce msg = some (false, m) := by
  unfold MPSCFixedPipe.sendOnce
  rw [hres]

/-- What `SendMsg_` does: it puts the message behind all others, or it finds that the message is
too long or that less than twice its size is free. -/
theorem sendOnce (h : m.Sound fresh front back) (msg : PipeMsg) :
    (m.sendOnce msg = some (false, m) ∧ (m.maxSizeContent < msg.content.length ∨
      m.sizeSpace < 2 * (8 + msg.content.length))) ∨
    msg.content.length ≤ m.maxSizeContent ∧ ∃ p v front' back',
      m.sendOnce msg = some (true, m.pushed p v msg) ∧
      (m.pushed p v msg).Sound fresh front' back' ∧
      front' ++ back' = front ++ back ++ [msg] ∧ (front ≠ [] → front' ≠ []) := by
  have hsmall := h.small
  have hsize := h.size
  by_cases hn : msg.content.length ≤ m.maxSizeContent
  swap
  · have hlt := Nat.lt_of_not_le hn
    exact .inl ⟨sendOnce_none (if_pos hlt), .inl hlt⟩
  have hlen : msg.content.length < 2 ^ 31 := by omega
  cases h.layout with
  | straight front_tiles inside before after =>
    have hle := front_tiles.le
    by_cases hend : m.senderPaceTo.1 + (8 + msg.content.length) ≤ m.sizePipe
    · have happ : (front ++ [msg]) ++ [] = front ++ [] ++ [msg] := by simp
      exact .inr ⟨hn, _, _, _, _, h.sendOnce_append hn (.inl ⟨hle, hend⟩),
        h.push hn hend happ (.append_straight front_tiles before after hlen hend), happ, by simp⟩
    · by_cases hfit : 8 + msg.content.length < m.receiverPace
      · have happ : front ++ [msg] = front ++ [] ++ [msg] := by simp
        exact .inr ⟨hn, _, _, _, _, h.sendOnce_rewind hn hle (Nat.lt_of_not_le hend) hfit,
          h.push hn (by omega) happ (.append_rewind front_tiles inside before after hlen hfit),
          happ, id⟩
      · refine .inl ⟨sendOnce_none ?_, .inr ?_⟩
        · unfold reserveSpaceForSend
          dsimp only
          rw [if_neg (Nat.not_lt.mpr hn), if_pos hle]
          exact (if_neg hend).trans (if_neg hfit)
        · rw [sizeSpace, if_neg (Nat.not_lt.mpr hle)]
          omega
  | rewound lt ne front_tiles inside back_tiles between after =>
    have hle := front_tiles.le
    by_cases hfit : m.senderPaceTo.1 + (8 + msg.content.length) < m.receiverPace
    · have happ : front ++ (back ++ [msg]) = front ++ back ++ [msg] := by simp
      exact .inr ⟨hn, _, _, _, _, h.sendOnce_append hn (.inr ⟨lt, hfit⟩),
        h.push hn (by omega) happ
          (.append_rewound front_tiles inside back_tiles between after hlen hfit), happ, id⟩
    · refine .inl ⟨sendOnce_none ?_, .inr ?_⟩
      · unfold reserveSpaceForSend
        dsimp only
        rw [if_neg (Nat.not_lt.mpr hn), if_neg (Nat.not_le.mpr lt)]
        exact if_neg hfit
      · rw [sizeSpace, if_pos lt]
        omega

theorem sendMsg (h : m.Sound fresh front back) (msg : PipeMsg) :
    (m.sendMsg msg = some (false, false, m) ∧ (m.maxSizeContent < msg.content.length ∨
      m.sizeSpace < 2 * (8 + msg.content.length))) ∨
    msg.content.length ≤ m.maxSizeContent ∧ ∃ notify p v front' back',
      m.sendMsg msg = some (true, notify, m.pushed p v msg) ∧
      (front ++ back = [] → m.thresholdSenderNotify ≠ 0 → notify = true) ∧
      (m.pushed p v msg).Sound fresh front' back' ∧
      front' ++ back' = front ++ back ++ [msg] ∧ (front ≠ [] → front' ≠ []) := by
  unfold MPSCFixedPipe.sendMsg
  obtain ⟨hno, hwhy⟩ | ⟨hn, p, v, front', back', hyes, hsound, happ, hfront⟩ := h.sendOnce msg
  · refine .inl ⟨?_, hwhy⟩
    dsimp only
    rw [hno]
    dsimp only
    rw [hno]
    rfl
  · refine .inr ⟨hn, _, p, v, front', back', by dsimp only; rw [hyes], fun hempty hthr => ?_,
      hsound, happ, hfront⟩
    obtain ⟨rfl, rfl⟩ := List.append_eq_nil_iff.mp hempty
    have hpaces : m.receiverPace = m.senderPaceTo.1 := by
      cases h.layout with
      | straight front_tiles inside before after => exact front_tiles
      | rewound lt ne => exact absurd rfl ne
    have hspace : m.sizePipe - m.sizeSpace = 0 := by
      rw [sizeSpace, if_neg (by omega)]
      omega
    rw [hspace, Bool.and_eq_true]
    exact ⟨decide_eq_true hthr, decide_eq_true (Nat.zero_le _)⟩

/-- The receiver stands at a message, unless all messages were consumed; it may have to rewind
to find it. -/
theorem receiveMsg (h : m.Sound fresh front back) :
    (front ++ back = [] ∧ m.receiveMsg = (none, m)) ∨
      ∃ m' msg rest back', m.receiveMsg = (some m'.receiverPace, m') ∧
        m'.Sound fresh (msg :: rest) back' ∧ msg :: rest ++ back' = front ++ back ∧
        m' = { m with receiverPace := m'.receiverPace } := by
  have hoff : kMsgOffset = 8 := rfl
  have hsmall := h.small
  unfold MPSCFixedPipe.receiveMsg
  cases h.layout with
  | straight front_tiles inside before after =>
    cases front with
    | nil =>
      have hpace : m.receiverPace = m.senderPaceTo.1 := front_tiles
      have hno : m.hasTodo = (false, m) := by
        unfold hasTodo
        dsimp only
        rw [h.published, ← hpace, if_neg (Nat.lt_irrefl _), if_pos rfl]
      refine .inl ⟨rfl, ?_⟩
      rw [hno]
      exact congrArg (fun r : Bool × MPSCFixedPipe =>
        (if r.1 then some r.2.receiverPace else none, r.2)) hno
    | cons msg rest =>
      have hlt := front_tiles.2.le
      have hyes : m.hasTodo = (true, m) := by
        unfold hasTodo
        dsimp only
        rw [h.published, if_pos (by omega)]
      rw [hyes]
      exact .inr ⟨m, msg, rest, [], rfl, h, rfl, rfl⟩
  | rewound lt ne front_tiles inside back_tiles between after =>
    cases front with
    | cons msg rest =>
      have hle := front_tiles.2.le
      have hlen := h.short msg (List.mem_append_left _ List.mem_cons_self)
      have hyes : m.hasTodo = (true, m) := by
        unfold hasTodo
        dsimp only
        rw [h.published, if_neg (by omega), if_neg (by omega), if_neg]
        rintro (hend | hblank)
        · omega
        · exact front_tiles.1.ne_blank (by omega) hblank
      rw [hyes]
      exact .inr ⟨m, msg, rest, back, rfl, h, rfl, rfl⟩
    | nil =>
      obtain ⟨msg, rest, rfl⟩ := List.exists_cons_of_ne_nil ne
      obtain rfl : m.receiverPace = _ := front_tiles
      have hle := back_tiles.2.le
      have hyes : m.hasTodo = (true, { m with receiverPace := 0 }) := by
        unfold hasTodo
        dsimp only
        rw [h.published, if_neg (by omega), if_neg (by omega), if_pos]
        · exact Prod.ext (decide_eq_true (by omega)) rfl
        · by_cases hend : m.sizePipe < m.receiverPace + 8
          · exact .inl hend
          · exact .inr (sizeAt_blank after (by omega))
      rw [hyes]
      refine .inr ⟨{ m with receiverPace := 0 }, msg, rest, [], rfl,
        ⟨h.size, h.small, h.published, fun x hx => h.short x ?_, h.outside, ?_⟩, by simp, rfl⟩
      · simpa using hx
      · exact .straight back_tiles (by
          have : m.senderPaceTo.1 < m.receiverPace := lt
          exact Nat.le_trans (Nat.le_of_lt this) inside)
          (fun _ _ hlt => absurd hlt (Nat.not_lt_zero _)) (between.append after)

theorem msgConsumed_eq (h : m.Sound fresh (msg :: rest) back)
    (hmsg : Holds m.pipe m.receiverPace msg) :
    m.msgConsumed = { m with
      receiverPace := m.receiverPace + (8 + msg.content.length)
      pipe := fill m.pipe m.receiverPace (m.receiverPace + (8 + msg.content.length)) 255 } := by
  have hsmall := h.small
  have hlen := h.short msg (List.mem_append_left _ List.mem_cons_self)
  unfold MPSCFixedPipe.msgConsumed
  rw [hmsg.getMsgSize (by omega)]

theorem msgConsumed (h : m.Sound fresh (msg :: rest) back) :
    m.msgConsumed.Sound fresh rest back ∧ msgAt m.pipe m.receiverPace = msg := by
  have hsmall := h.small
  have hlen := h.short msg (List.mem_append_left _ List.mem_cons_self)
  have hshort : ∀ x ∈ rest ++ back, x.content.length ≤ m.maxSizeContent := by
    intro x hx
    refine h.short x ?_
    rw [List.cons_append]
    exact List.mem_cons_of_mem _ hx
  have hblank : Filled (fill m.pipe m.receiverPace
      (m.receiverPace + (8 + msg.content.length)) 255) m.receiverPace
      (m.receiverPace + (8 + msg.content.length)) 255 := Cells.filled_fill
  cases h.layout with
  | straight front_tiles inside before after =>
    have hle := front_tiles.2.le
    refine ⟨?_, front_tiles.1.msgAt (by omega)⟩
    rw [h.msgConsumed_eq front_tiles.1]
    refine ⟨h.size, h.small, h.published, hshort, fun i hi => ?_, ?_⟩
    · have hi' : m.sizePipe ≤ i := hi
      exact (if_neg (by omega)).trans (h.outside i hi)
    · refine .straight ?_ inside ?_ (after.congr (Cells.agree_fill (.inr (by omega))))
      · have hrest := front_tiles.2
        rw [Nat.add_assoc] at hrest
        exact hrest.congr (Cells.agree_fill (.inr (Nat.le_refl _))).symm
      · exact (before.congr (Cells.agree_fill (.inl (Nat.le_refl _)))).append hblank
  | rewound lt ne front_tiles inside back_tiles between after =>
    have hle := front_tiles.2.le
    refine ⟨?_, front_tiles.1.msgAt (by omega)⟩
    rw [h.msgConsumed_eq front_tiles.1]
    refine ⟨h.size, h.small, h.published, hshort, fun i hi => ?_, ?_⟩
    · have hi' : m.sizePipe ≤ i := hi
      exact (if_neg (by omega)).trans (h.outside i hi)
    · refine .rewound (Nat.lt_of_lt_of_le lt (Nat.le_add_right _ _)) ne ?_ inside ?_ ?_
        (after.congr (Cells.agree_fill (.inr (by omega))))
      · have hrest := front_tiles.2
        rw [Nat.add_assoc] at hrest
        exact hrest.congr (Cells.agree_fill (.inr (Nat.le_refl _))).symm
      · exact back_tiles.congr (Cells.agree_fill (.inl (Nat.le_of_lt lt))).symm
      · exact (between.congr (Cells.agree_fill (.inl (Nat.le_refl _)))).append hblank

end Sound

end MPSCFixedPipe

end Magneto
