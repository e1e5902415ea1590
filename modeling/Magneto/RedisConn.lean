import Magneto.Lib.Machine
import Magneto.RedisStream

/-!
# Messages one after another over a connection

A receiver repeats `Read` until 0, takes the message and resets the reader. `Read` takes
what it finds in steps of 100 bytes and keeps all of it until `Reset`, which drops also
the bytes that follow the message.
-/

namespace Magneto.Redis

open RedisParser (parseReply Reply)
open IOHelper (readNonBlock)

/-- The bytes that `Read` takes of the portions it finds: a portion that does not fill the
last step ends the call. -/
def taken : List (List UInt8) → List UInt8
  | [] => []
  | piece :: found =>
    if piece ≠ [] ∧ piece.length % kTmpBufSize = 0 then piece ++ taken found else piece

theorem taken_long {piece : List UInt8} (h : kTmpBufSize < piece.length)
    (found : List (List UInt8)) :
    taken (piece :: found) =
      piece.take kTmpBufSize ++ taken (piece.drop kTmpBufSize :: found) := by
  have hlen : (piece.drop kTmpBufSize).length = piece.length - kTmpBufSize := List.length_drop
  have hne : piece ≠ [] ∧ piece.drop kTmpBufSize ≠ [] := by
    simp only [← List.length_pos_iff, hlen]
    omega
  have hmod : (piece.drop kTmpBufSize).length % kTmpBufSize = piece.length % kTmpBufSize := by
    rw [hlen, ← Nat.mod_eq_sub_mod h.le]
  simp only [taken, hne.1, hne.2, hmod, ne_eq, not_false_eq_true, true_and]
  split_ifs
  · rw [← List.append_assoc, List.take_append_drop]
  · rw [List.take_append_drop]

theorem taken_isPrefix (found : List (List UInt8)) : taken found <+: found.flatten := by
  induction found with
  | nil => exact List.nil_prefix
  | cons piece found ih =>
    rw [taken, List.flatten_cons]
    split_ifs
    · exact (List.prefix_append_right_inj piece).mpr ih
    · exact List.prefix_append _ _

theorem taken_ne_nil {found : List (List UInt8)} (h : found.head?.getD [] ≠ []) :
    taken found ≠ [] := by
  cases found with
  | nil => exact absurd rfl h
  | cons piece found =>
    have hpiece : piece ≠ [] := h
    rw [taken]
    split_ifs
    · simp [hpiece]
    · exact hpiece

theorem readChunks_found {k : ℕ} {found : List (List UInt8)} (h0 : 0 ∉ found.flatten)
    (hk : found.flatten.length < k) (reply got : List UInt8) :
    readChunks k reply got (found.map .data) =
      (true, reply ++ taken found, got ++ taken found) := by
  induction k generalizing found reply got with
  | zero => omega
  | succ k ih =>
    cases found with
    | nil => simpa [taken] using readChunks_nil k reply got
    | cons piece found =>
      have hmin : min kTmpBufSize Word.intMax = kTmpBufSize := by decide
      rw [List.flatten_cons, List.length_append] at hk
      rw [List.flatten_cons, List.mem_append, not_or] at h0
      have htake : 0 ∉ piece.take kTmpBufSize := fun hmem => h0.1 (List.mem_of_mem_take hmem)
      simp only [List.map_cons, readChunks, readNonBlock, hmin, cString_eq htake]
      rw [if_pos (Int.natCast_nonneg _), List.length_take]
      rcases Nat.lt_trichotomy piece.length kTmpBufSize with hlt | heq | hgt
      · have hall : piece.take kTmpBufSize = piece := List.take_of_length_le hlt.le
        have hshort : ¬ (piece ≠ [] ∧ piece.length % kTmpBufSize = 0) := by
          rw [← List.length_pos_iff, Nat.mod_eq_of_lt hlt]
          omega
        rw [if_pos (by omega), hall, taken, if_neg hshort]
      · have hall : piece.take kTmpBufSize = piece := List.take_of_length_le heq.le
        have hfull : piece ≠ [] ∧ piece.length % kTmpBufSize = 0 := by
          rw [← List.length_pos_iff, heq]
          decide
        rw [if_neg (by omega), if_pos heq.le, hall, taken, if_pos hfull,
          ih h0.2 (by have := List.length_pos_iff.mpr hfull.1; omega), List.append_assoc,
          List.append_assoc]
      · have h0' : 0 ∉ (piece.drop kTmpBufSize :: found).flatten := by
          rw [List.flatten_cons, List.mem_append, not_or]
          exact ⟨fun hmem => h0.1 (List.mem_of_mem_drop hmem), h0.2⟩
        have hk' : (piece.drop kTmpBufSize :: found).flatten.length < k := by
          have : 0 < kTmpBufSize := by decide
          rw [List.flatten_cons, List.length_append, List.length_drop]
          omega
        have hrest := ih h0' hk' (reply ++ piece.take kTmpBufSize)
          (got ++ piece.take kTmpBufSize)
        rw [List.map_cons] at hrest
        rw [if_neg (by omega), if_neg (by omega), hrest, taken_long hgt, List.append_assoc,
          List.append_assoc]

theorem pendingBytes_data (found : List (List UInt8)) :
    pendingBytes (found.map .data) = found.flatten.length := by
  induction found with
  | nil => rfl
  | cons piece found ih => simp [pendingBytes, ih]

theorem read_found {r : Reader} {found : List (List UInt8)} (h0 : 0 ∉ found.flatten) :
    r.read (found.map .data) =
      let p := (parseReply (r.reply ++ taken found) []).1
      ⟨p.ret, ⟨r.reply ++ taken found, r.out ++ p.out⟩, taken found⟩ := by
  have hchunks := readChunks_found h0 (Nat.lt_succ_self _) r.reply []
  unfold Reader.read
  rw [pendingBytes_data, hchunks]
  dsimp only
  rw [RedisParser.parseReply_after, List.nil_append]
  rfl

structure Receiver where
  reader : Reader
  wire : List UInt8
  replies : List (List UInt8)
  deriving DecidableEq, Repr

def Receiver.Finds (r : Receiver) (found : List (List UInt8)) : Prop :=
  found.head?.getD [] ≠ [] ∧ found.flatten <+: r.wire

def Receiver.round (r : Receiver) (found : List (List UInt8)) : Receiver :=
  let c := r.reader.read (found.map .data)
  let wire := r.wire.drop c.got.length
  if c.ret = 0 then ⟨c.reader.reset, wire, r.replies ++ [c.reader.data]⟩
  else ⟨c.reader, wire, r.replies⟩

def receiver : Machine Receiver (List (List UInt8)) where
  enabled := Receiver.Finds
  next := Receiver.round

/-- A call of `Read` takes nothing of the message after the one it reads, and a multi-bulk
message that it does not take to its end is still on its first line. -/
def Receiver.Within (messages : List Reply) (r : Receiver) (found : List (List UInt8)) : Prop :=
  ∀ m, messages[r.replies.length]? = some m →
    (r.reader.reply ++ taken found).length ≤ m.encode.length ∧
      ((r.reader.reply ++ taken found).length < m.encode.length → m.HasAnswers →
        (r.reader.reply ++ taken found).length < m.line.length + 2)

structure Receiving (done todo : List Reply) (r : Receiver) : Prop where
  replies : r.replies = done.map Reply.decoded
  out : r.reader.out = []
  bytes : r.reader.reply ++ r.wire = todo.flatMap Reply.encode
  amid : ∀ m, todo.head? = some m → r.reader.reply.length < m.encode.length

theorem length_encode_pos (m : Reply) : 0 < m.encode.length := by
  simp [Reply.encode, RedisParser.crlf]

theorem receiving_start (messages : List Reply) (r₀ : Reader) :
    Receiving [] messages ⟨r₀.reset, messages.flatMap Reply.encode, []⟩ where
  replies := rfl
  out := rfl
  bytes := rfl
  amid m _ := length_encode_pos m

theorem round_eq {r : Receiver} {found : List (List UInt8)} (h0 : 0 ∉ found.flatten)
    (hout : r.reader.out = []) :
    r.round found =
      let p := (parseReply (r.reader.reply ++ taken found) []).1
      let wire := r.wire.drop (taken found).length
      if p.ret = 0 then ⟨⟨[], []⟩, wire, r.replies ++ [p.out]⟩
      else ⟨⟨r.reader.reply ++ taken found, p.out⟩, wire, r.replies⟩ := by
  rw [Receiver.round, read_found h0, hout]
  rfl

theorem receiving_round {done todo : List Reply} {r : Receiver} {found : List (List UInt8)}
    (hw : ∀ m ∈ done ++ todo, m.WellFormed) (hfits : ∀ m ∈ done ++ todo, m.Fits)
    (h : Receiving done todo r) (hfinds : r.Finds found)
    (hwithin : r.Within (done ++ todo) found) :
    (∃ done' todo', done' ++ todo' = done ++ todo ∧ Receiving done' todo' (r.round found)) ∧
      (r.round found).wire.length < r.wire.length := by
  obtain ⟨hsome, hfound⟩ := hfinds
  have hne := taken_ne_nil hsome
  have htaken : taken found <+: r.wire := (taken_isPrefix found).trans hfound
  cases todo with
  | nil =>
    obtain ⟨-, hwire⟩ := List.append_eq_nil_iff.mp h.bytes
    rw [hwire, List.prefix_nil] at htaken
    exact absurd htaken hne
  | cons m next =>
    obtain ⟨rest, hrest⟩ := htaken
    have hm : m ∈ done ++ m :: next := List.mem_append_right _ List.mem_cons_self
    have hat : (done ++ m :: next)[r.replies.length]? = some m := by
      rw [h.replies, List.length_map, List.getElem?_append_right le_rfl, Nat.sub_self]
      rfl
    obtain ⟨hle, hline⟩ := hwithin m hat
    have h0 : 0 ∉ found.flatten := by
      intro hmem
      have hstream : 0 ∈ (m :: next).flatMap Reply.encode :=
        h.bytes ▸ List.mem_append_right _ (hfound.subset hmem)
      obtain ⟨m', hm', hnul⟩ := List.mem_flatMap.mp hstream
      exact Reply.nul_not_mem_encode (hw m' (List.mem_append_right _ hm')) hnul
    have hbytes : (r.reader.reply ++ taken found) ++ rest =
        m.encode ++ next.flatMap Reply.encode := by
      rw [List.append_assoc, hrest, h.bytes, List.flatMap_cons]
    have hp : r.reader.reply ++ taken found <+: m.encode :=
      List.prefix_of_prefix_length_le ⟨rest, hbytes⟩ (List.prefix_append _ _) hle
    have hdrop : r.wire.drop (taken found).length = rest := by rw [← hrest, List.drop_left]
    have hless : rest.length < r.wire.length := by
      have hpos := List.length_pos_iff.mpr hne
      rw [← hrest, List.length_append]
      omega
    rw [round_eq h0 h.out, hdrop]
    dsimp only
    rcases hle.eq_or_lt with heq | hlt
    · have hwhole : r.reader.reply ++ taken found = m.encode := hp.eq_of_length heq
      rw [hwhole, Reply.parseReply_encode (hw m hm) (hfits m hm), if_pos rfl]
      rw [hwhole] at hbytes
      refine ⟨⟨done ++ [m], next, by simp, ?_, rfl, List.append_cancel_left hbytes,
        fun m' _ => length_encode_pos m'⟩, hless⟩
      simp [h.replies]
    · obtain ⟨hpos, hquiet⟩ := (Reply.parseReply_prefix_iff (hw m hm) (hfits m hm) (by simp [hne])
        hp hlt).mpr (hline hlt)
      rw [if_neg (by omega), hquiet]
      refine ⟨⟨done, m :: next, rfl, h.replies, rfl, hbytes, fun m' hm' => ?_⟩, hless⟩
      obtain rfl := Option.some.inj hm'
      exact hlt

theorem receiving_exec {messages done todo : List Reply} {r : Receiver}
    {rounds : List (List (List UInt8))} (hw : ∀ m ∈ messages, m.WellFormed)
    (hfits : ∀ m ∈ messages, m.Fits) (hall : done ++ todo = messages) (h : Receiving done todo r)
    (hadm : (receiver.guarded (Receiver.Within messages)).Admits r rounds) :
    (∃ done' todo', done' ++ todo' = messages ∧
        Receiving done' todo' (receiver.exec r rounds)) ∧
      rounds.length + (receiver.exec r rounds).wire.length ≤ r.wire.length := by
  induction rounds generalizing done todo r with
  | nil => exact ⟨⟨done, todo, hall, h⟩, by simp [Machine.exec]⟩
  | cons found rounds ih =>
    subst hall
    obtain ⟨⟨hfinds, hwithin⟩, hrest⟩ := hadm
    obtain ⟨⟨done', todo', hall, hround⟩, hless⟩ := receiving_round hw hfits h hfinds hwithin
    obtain ⟨hexec, hlen⟩ := ih hall hround hrest
    refine ⟨hexec, ?_⟩
    have hlen' : rounds.length + (receiver.exec r (found :: rounds)).wire.length ≤
        (r.round found).wire.length := hlen
    rw [List.length_cons]
    omega

/-- Every message is obtained, in order, by calls of `Read` that each stay within a message; each
call takes a byte at least. -/
theorem receiver_messages (messages : List Reply) (hw : ∀ m ∈ messages, m.WellFormed)
    (hfits : ∀ m ∈ messages, m.Fits) (r₀ : Reader) (rounds : List (List (List UInt8)))
    (hadm : (receiver.guarded (Receiver.Within messages)).Admits
      ⟨r₀.reset, messages.flatMap Reply.encode, []⟩ rounds) :
    let r := receiver.exec ⟨r₀.reset, messages.flatMap Reply.encode, []⟩ rounds
    rounds.length + r.wire.length ≤ (messages.flatMap Reply.encode).length ∧
      r.replies <+: messages.map Reply.decoded ∧
      (r.wire = [] → r.replies = messages.map Reply.decoded) := by
  obtain ⟨⟨done, todo, hall, hr⟩, hlen⟩ := receiving_exec hw hfits (List.nil_append messages)
    (receiving_start messages r₀) hadm
  subst hall
  dsimp only
  refine ⟨hlen, ?_⟩
  rw [hr.replies, List.map_append]
  refine ⟨List.prefix_append _ _, fun hwire => ?_⟩
  cases todo with
  | nil => simp
  | cons m next =>
    -- what is left of the message is still on the wire
    have hbytes := congrArg List.length hr.bytes
    rw [hwire, List.append_nil, List.flatMap_cons, List.length_append] at hbytes
    have hlt := hr.amid m rfl
    omega

instance (r : Receiver) (found : List (List UInt8)) : Decidable (r.Finds found) :=
  inferInstanceAs (Decidable (_ ∧ _))

instance (r : Receiver) (found : List (List UInt8)) : Decidable (receiver.enabled r found) :=
  inferInstanceAs (Decidable (r.Finds found))

def twoIntegers : List Reply :=
  [.integer (RedisParser.ascii "1"), .integer (RedisParser.ascii "2")]

theorem twoIntegers_ok : (∀ m ∈ twoIntegers, m.WellFormed) ∧ ∀ m ∈ twoIntegers, m.Fits := by
  simp only [twoIntegers, List.forall_mem_cons]
  refine ⟨⟨?_, ?_, by simp⟩, trivial, trivial, by simp⟩
  · intro b hb
    obtain rfl : b = 49 := List.mem_singleton.mp hb
    decide
  · intro b hb
    obtain rfl : b = 50 := List.mem_singleton.mp hb
    decide

theorem receiver_messages_apart :
    (receiver.exec ⟨⟨[], []⟩, twoIntegers.flatMap Reply.encode, []⟩
      [[RedisParser.ascii ":1\r\n"], [RedisParser.ascii ":2"],
        [RedisParser.ascii "\r\n"]]).replies =
      twoIntegers.map Reply.decoded := by
  refine (receiver_messages twoIntegers twoIntegers_ok.1 twoIntegers_ok.2 ⟨[], []⟩ _ ?_).2.2
    (by decide)
  refine ⟨⟨by decide, ?_⟩, ⟨by decide, ?_⟩, ⟨by decide, ?_⟩, trivial⟩
  all_goals
    intro m hm
    obtain rfl := Option.some.inj hm
    exact ⟨by decide, fun _ h => h.elim⟩

/-- Two messages in one arrival: the second one is dropped with the first. -/
theorem receiver_messages_together :
    ¬ ∀ messages : List Reply, (∀ m ∈ messages, m.WellFormed) → ∀ r₀ : Reader,
      ∀ rounds, receiver.Admits ⟨r₀.reset, messages.flatMap Reply.encode, []⟩ rounds →
        (receiver.exec ⟨r₀.reset, messages.flatMap Reply.encode, []⟩ rounds).wire = [] →
        (receiver.exec ⟨r₀.reset, messages.flatMap Reply.encode, []⟩ rounds).replies =
          messages.map Reply.decoded := by
  intro h
  exact absurd (h twoIntegers twoIntegers_ok.1 ⟨[], []⟩ [[RedisParser.ascii ":1\r\n:2\r\n"]]
    (by decide) (by decide)) (by decide)

end Magneto.Redis
