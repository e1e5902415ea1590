import Magneto.MPSCFixedPipe

/-!
# What the buffer of the pipe holds

The messages that are not consumed lie one behind the other from the receiver's
pace on; if the last ones did not fit, they lie at the start of the buffer. All
other bytes are blank, which is how the receiver finds where the first part ends.
-/

namespace Magneto

namespace MPSCFixedPipe

open Cells (write read fill Agree Filled)

variable {m : MPSCFixedPipe} {mem mem' : ℕ → UInt8} {p q e n a b : ℕ} {msg : PipeMsg}
  {msgs front back : List PipeMsg}

theorem ready_of_lt (h : n < 2 ^ 31) : n ||| kMaskNotWriting = n + 2 ^ 31 := by
  have hor := Nat.two_pow_add_eq_or_of_lt h 1
  rw [Nat.mul_one] at hor
  rw [kMaskNotWriting, Nat.or_comm, ← hor, Nat.add_comm]

theorem low_of_lt (h : n < 2 ^ 31) : (n + 2 ^ 31) &&& (kMaskNotWriting - 1) = n := by
  rw [kMaskNotWriting, Nat.and_two_pow_sub_one_eq_mod]
  omega

theorem sizeAt_congr (h : Agree mem mem' (p + 4) (p + 8)) : sizeAt mem p = sizeAt mem' p := by
  rw [sizeAt, sizeAt, Cells.read_congr h]

theorem sizeAt_setSize (h : n < 2 ^ 32) : sizeAt (setSize mem p n) p = n := by
  have hread : read (setSize mem p n) (p + 4) 4 = Word.leBytes 4 n := by
    have hlen := Word.leBytes_length 4 n
    have := Cells.read_write mem (p + 4) (Word.leBytes 4 n)
    rwa [hlen] at this
  rw [sizeAt, hread, Word.leNat_leBytes (by omega)]

theorem agree_setSize (h : b ≤ p + 4 ∨ p + 8 ≤ a) : Agree (setSize mem p n) mem a b := by
  refine Cells.agree_write ?_
  rw [Word.leBytes_length]
  omega

theorem sizeAt_blank (h : Filled mem p q 255) (hq : p + 8 ≤ q) : sizeAt mem p = kBlank := by
  have hread : read mem (p + 4) 4 = List.replicate 4 255 :=
    Cells.read_eq_replicate (h.mono (by omega) (by omega))
  rw [sizeAt, hread]
  decide

structure Holds (mem : ℕ → UInt8) (p : ℕ) (msg : PipeMsg) : Prop where
  header : mem p = msg.header
  size : sizeAt mem p = msg.content.length + 2 ^ 31
  content : read mem (p + 8) msg.content.length = msg.content

theorem Holds.congr (h : Holds mem p msg)
    (hag : Agree mem mem' p (p + 8 + msg.content.length)) : Holds mem' p msg where
  header := (hag p (Nat.le_refl p) (by omega)).symm.trans h.header
  size := (sizeAt_congr (hag.mono (by omega) (by omega))).symm.trans h.size
  content := (Cells.read_congr (hag.mono (by omega) (Nat.le_refl _))).symm.trans h.content

theorem Holds.ne_blank (h : Holds mem p msg) (hn : msg.content.length < 2 ^ 31 - 1) :
    sizeAt mem p ≠ kBlank := by
  rw [h.size, kBlank]
  omega

theorem Holds.getMsgSize (h : Holds mem p msg) (hn : msg.content.length < 2 ^ 31 - 1) :
    getMsgSize mem p = 8 + msg.content.length := by
  rw [MPSCFixedPipe.getMsgSize, if_pos (h.ne_blank hn), h.size, low_of_lt (by omega)]
  rfl

theorem Holds.msgAt (h : Holds mem p msg) (hn : msg.content.length < 2 ^ 31) :
    msgAt mem p = msg := by
  rw [MPSCFixedPipe.msgAt, h.size, low_of_lt hn, h.header]
  exact congrArg (PipeMsg.mk msg.header) h.content

def stored (mem : ℕ → UInt8) (p : ℕ) (msg : PipeMsg) : ℕ → UInt8 :=
  setSize (store mem p msg) p (sizeAt (store mem p msg) p ||| kMaskNotWriting)

theorem agree_stored (h : b ≤ p ∨ p + 8 + msg.content.length ≤ a) :
    Agree (stored mem p msg) mem a b := by
  have hhead : ([msg.header] : List UInt8).length = 1 := rfl
  have hoff : kMsgOffset = 8 := rfl
  refine (agree_setSize (by omega)).trans ((Cells.agree_write ?_).trans
    ((agree_setSize (by omega)).trans (Cells.agree_write ?_)))
  · rw [hoff]
    omega
  · rw [hhead]
    omega

theorem holds_stored (hn : msg.content.length < 2 ^ 31) : Holds (stored mem p msg) p msg := by
  have hsize : sizeAt (store mem p msg) p = msg.content.length := by
    have hag : Agree (store mem p msg) (setSize (write mem p [msg.header]) p msg.content.length)
        (p + 4) (p + 8) := Cells.agree_write (.inl (Nat.le_refl _))
    rw [sizeAt_congr hag, sizeAt_setSize (by omega)]
  have hstored : stored mem p msg = setSize (store mem p msg) p (msg.content.length + 2 ^ 31) := by
    rw [stored, hsize, ready_of_lt hn]
  refine ⟨?_, ?_, ?_⟩
  · have hag : Agree (stored mem p msg) (write mem p [msg.header]) p (p + 1) :=
      (agree_setSize (.inl (by omega))).trans
        ((Cells.agree_write (.inl (Nat.add_le_add_left (by decide) p))).trans
          (agree_setSize (.inl (by omega))))
    rw [hag p (Nat.le_refl p) (Nat.lt_succ_self p)]
    exact List.singleton_inj.mp (Cells.read_write mem p [msg.header])
  · rw [hstored, sizeAt_setSize (by omega)]
  · have hag : Agree (stored mem p msg) (store mem p msg) (p + 8) (p + 8 + msg.content.length) :=
      agree_setSize (.inr (Nat.le_refl _))
    rw [Cells.read_congr hag]
    exact Cells.read_write _ _ _

def Tiles (mem : ℕ → UInt8) : ℕ → List PipeMsg → ℕ → Prop
  | p, [], q => p = q
  | p, msg :: msgs, q => Holds mem p msg ∧ Tiles mem (p + 8 + msg.content.length) msgs q

theorem Tiles.le (h : Tiles mem p msgs q) : p ≤ q := by
  induction msgs generalizing p with
  | nil => exact Nat.le_of_eq h
  | cons msg msgs ih =>
    have := ih h.2
    omega

theorem Tiles.congr (h : Tiles mem p msgs q) (hag : Agree mem mem' p q) :
    Tiles mem' p msgs q := by
  induction msgs generalizing p with
  | nil => exact h
  | cons msg msgs ih =>
    have hle := Tiles.le h.2
    exact ⟨h.1.congr (hag.mono (Nat.le_refl p) hle),
      ih h.2 (hag.mono (by omega) (Nat.le_refl q))⟩

theorem Tiles.append (h : Tiles mem p msgs q) (hmsg : Holds mem q msg) :
    Tiles mem p (msgs ++ [msg]) (q + 8 + msg.content.length) := by
  induction msgs generalizing p with
  | nil =>
    obtain rfl : p = q := h
    exact ⟨hmsg, rfl⟩
  | cons m msgs ih => exact ⟨h.1, ih h.2⟩

inductive Layout (m : MPSCFixedPipe) : List PipeMsg → List PipeMsg → Prop
  | straight {front : List PipeMsg} (front_tiles : Tiles m.pipe m.receiverPace front
      m.senderPaceTo.1) (inside : m.senderPaceTo.1 ≤ m.sizePipe)
      (before : Filled m.pipe 0 m.receiverPace 255)
      (after : Filled m.pipe m.senderPaceTo.1 m.sizePipe 255) : Layout m front []
  | rewound {front back : List PipeMsg} {e : ℕ} (lt : m.senderPaceTo.1 < m.receiverPace)
      (ne : back ≠ []) (front_tiles : Tiles m.pipe m.receiverPace front e)
      (inside : e ≤ m.sizePipe) (back_tiles : Tiles m.pipe 0 back m.senderPaceTo.1)
      (between : Filled m.pipe m.senderPaceTo.1 m.receiverPace 255)
      (after : Filled m.pipe e m.sizePipe 255) : Layout m front back

structure Sound (fresh : ℕ → UInt8) (m : MPSCFixedPipe) (front back : List PipeMsg) : Prop where
  size : m.maxSizeContent + 8 < m.sizePipe
  small : m.maxSizeContent < 2 ^ 31 - 1
  published : m.senderPaceFrom = m.senderPaceTo
  short : ∀ msg ∈ front ++ back, msg.content.length ≤ m.maxSizeContent
  outside : ∀ i, m.sizePipe ≤ i → m.pipe i = fresh i
  layout : Layout m front back

end MPSCFixedPipe

end Magneto
