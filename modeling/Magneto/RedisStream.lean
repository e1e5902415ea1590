import Magneto.Redis
import Magneto.RedisReply
import Mathlib.Data.List.TakeWhile

/-!
# Replies in pieces

`Read` parses everything that has arrived since `Reset` again at each call, and
the parser appends to the output of the calls before. A call that ends without a
reply must therefore append nothing.
-/

namespace Magneto.RedisParser.Reply

variable {r : Reply} {p : List UInt8}

def HasAnswers : Reply → Prop
  | multiBulk (some _) => True
  | _ => False

theorem exists_of_line_le (hp : p <+: r.encode) (hlen : r.line.length + 2 ≤ p.length) :
    ∃ q, p = r.line ++ (crlf ++ q) ∧ q <+: r.body := by
  have hline : r.line ++ crlf <+: r.encode := ⟨r.body, by rw [encode, List.append_assoc]⟩
  obtain ⟨q, rfl⟩ := List.prefix_of_prefix_length_le hline hp (by simpa [crlf] using hlen)
  rw [encode, List.append_assoc, List.prefix_append_right_inj, List.prefix_append_right_inj] at hp
  exact ⟨q, List.append_assoc _ _ _, hp⟩

/-- The parser asks for more and appends nothing, at a proper beginning of a reply, unless
the line of a multi-bulk reply is there. -/
theorem parseReply_prefix_iff (hw : r.WellFormed) (hfits : r.Fits) (hne : p ≠ [])
    (hp : p <+: r.encode) (hlt : p.length < r.encode.length) :
    0 < (parseReply p []).1.ret ∧ (parseReply p []).1.out = [] ↔
      (r.HasAnswers → p.length < r.line.length + 2) := by
  by_cases hshort : p.length < r.line.length + 2
  · rw [parseReply_short hw hne hp hshort]
    exact iff_of_true ⟨by decide, rfl⟩ fun _ => hshort
  · obtain ⟨q, rfl, hq⟩ := exists_of_line_le hp (by omega)
    have hbody : q.length < r.body.length := by
      simp only [encode, List.length_append] at hlt
      omega
    cases r with
    | multiBulk answers =>
      cases answers with
      | none => simp [body] at hbody
      | some answers =>
        refine iff_of_false (fun h => ?_) fun h => hshort (h trivial)
        exact parseReply_multiBulk_out hfits q h.2
    | bulk value =>
      cases value with
      | none => simp [body, valueBody] at hbody
      | some v =>
        have hvalue : q.length < v.length + 2 := by simpa [body, valueBody, crlf] using hbody
        rw [parseReply_bulk_short hw hfits hq hvalue]
        exact iff_of_true ⟨by decide, rfl⟩ fun h => h.elim
    | integer text => simp [body] at hbody
    | status text => simp [body] at hbody
    | error text => simp [body] at hbody

theorem nul_not_mem_value {a : Value} (ha : ∀ v, a = some v → Plain v) : 0 ∉ encodeValue a := by
  cases a with
  | none => decide
  | some v =>
    have hv := Plain.not_mem_nul (ha v rfl)
    have hn := Plain.not_mem_nul (plain_decimal v.length)
    simp [encodeValue, valueLine, valueBody, crlf, hv, hn]

theorem nul_not_mem_encode (hw : r.WellFormed) : 0 ∉ r.encode := by
  cases r with
  | multiBulk answers =>
    cases answers with
    | none => decide
    | some answers =>
      have hn := Plain.not_mem_nul (plain_decimal answers.length)
      have hall : ∀ a ∈ answers, 0 ∉ encodeValue a := fun a ha =>
        nul_not_mem_value fun v hv => (hw answers rfl a ha v hv).2
      simpa [encode, line, body, crlf, hn] using hall
  | bulk value => exact nul_not_mem_value hw
  | integer text => simpa [encode, line, body, crlf] using Plain.not_mem_nul hw
  | status text => simpa [encode, line, body, crlf] using Plain.not_mem_nul hw
  | error text => simpa [encode, line, body, crlf] using Plain.not_mem_nul hw

end Magneto.RedisParser.Reply

namespace Magneto.Redis

open RedisParser (parseReply Reply)
open IOHelper (readNonBlock)

theorem cString_eq {bs : List UInt8} (h : 0 ∉ bs) : cString bs = bs := by
  apply List.takeWhile_eq_self_iff.mpr
  intro b hb
  exact decide_eq_true fun h0 => h (h0 ▸ hb)

theorem readChunks_nil (k : ℕ) (reply got : List UInt8) :
    readChunks (k + 1) reply got [] = (true, reply, got) := by
  simp [readChunks, readNonBlock, cString, kTmpBufSize]

theorem readChunks_data {k : ℕ} {piece : List UInt8} (h0 : 0 ∉ piece) (hk : piece.length < k)
    (reply got : List UInt8) :
    readChunks k reply got [.data piece] = (true, reply ++ piece, got ++ piece) := by
  induction k generalizing piece reply got with
  | zero => omega
  | succ k ih =>
    have hmin : min kTmpBufSize Word.intMax = 100 := by decide
    have htake : 0 ∉ piece.take 100 := fun hmem => h0 (List.mem_of_mem_take hmem)
    simp only [readChunks, readNonBlock, hmin, cString_eq htake]
    rw [if_pos (Int.natCast_nonneg _), List.length_take]
    rcases Nat.lt_trichotomy piece.length 100 with hlt | heq | hgt
    · have hall : piece.take 100 = piece := List.take_of_length_le (by omega)
      rw [if_pos (by simp only [kTmpBufSize]; omega), hall]
    · have hall : piece.take 100 = piece := List.take_of_length_le (by omega)
      obtain ⟨k, rfl⟩ : ∃ k', k = k' + 1 := ⟨k - 1, by omega⟩
      rw [if_neg (by simp only [kTmpBufSize]; omega), if_pos (by omega), hall, readChunks_nil]
    · rw [if_neg (by simp only [kTmpBufSize]; omega), if_neg (by omega),
        ih (fun hmem => h0 (List.mem_of_mem_drop hmem)) (by rw [List.length_drop]; omega),
        List.append_assoc, List.append_assoc, List.take_append_drop]

theorem read_data {r : Reader} {piece : List UInt8} (h0 : 0 ∉ piece) :
    r.read [.data piece] =
      let p := (parseReply (r.reply ++ piece) []).1
      ⟨p.ret, ⟨r.reply ++ piece, r.out ++ p.out⟩, piece⟩ := by
  have hchunks := readChunks_data h0 (Nat.lt_succ_self piece.length) r.reply []
  have hpending : pendingBytes [.data piece] + 1 = piece.length + 1 := rfl
  unfold Reader.read
  rw [hpending, hchunks]
  dsimp only
  rw [RedisParser.parseReply_after, List.nil_append]
  rfl

def Reader.feed (r : Reader) : List (List UInt8) → List ℤ × Reader
  | [] => ([], r)
  | piece :: pieces =>
    let c := r.read [.data piece]
    let rest := c.reader.feed pieces
    (c.ret :: rest.1, rest.2)

def arrived (reply : List UInt8) : List (List UInt8) → List (List UInt8)
  | [] => []
  | piece :: pieces => (reply ++ piece) :: arrived (reply ++ piece) pieces

theorem feed_eq {r : Reader} {pieces : List (List UInt8)} (h0 : ∀ piece ∈ pieces, 0 ∉ piece) :
    r.feed pieces = ((arrived r.reply pieces).map fun bs => (parseReply bs []).1.ret,
      ⟨r.reply ++ pieces.flatten,
        r.out ++ (arrived r.reply pieces).flatMap fun bs => (parseReply bs []).1.out⟩) := by
  induction pieces generalizing r with
  | nil => simp [Reader.feed, arrived]
  | cons piece pieces ih =>
    obtain ⟨hpiece, h0⟩ := List.forall_mem_cons.mp h0
    simp only [Reader.feed, read_data hpiece, ih h0, arrived]
    simp

theorem arrived_append (reply last : List UInt8) (pieces : List (List UInt8)) :
    arrived reply (pieces ++ [last]) =
      arrived reply pieces ++ [reply ++ (pieces.flatten ++ last)] := by
  induction pieces generalizing reply with
  | nil => simp [arrived]
  | cons piece pieces ih => simp [arrived, ih]

theorem mem_arrived {reply bs : List UInt8} {pieces : List (List UInt8)}
    (hne : ∀ piece ∈ pieces, piece ≠ []) (h : bs ∈ arrived reply pieces) :
    bs ≠ [] ∧ bs <+: reply ++ pieces.flatten := by
  induction pieces generalizing reply with
  | nil => simp [arrived] at h
  | cons piece pieces ih =>
    obtain ⟨hpiece, hne⟩ := List.forall_mem_cons.mp hne
    rw [List.flatten_cons, ← List.append_assoc]
    rcases List.mem_cons.mp h with rfl | h
    · exact ⟨by simp [hpiece], List.prefix_append _ _⟩
    · exact ih hne h

theorem flatten_mem_arrived {pieces : List (List UInt8)} (h : pieces ≠ []) (reply : List UInt8) :
    reply ++ pieces.flatten ∈ arrived reply pieces := by
  obtain ⟨init, last, rfl⟩ := (List.eq_nil_or_concat' pieces).resolve_left h
  rw [arrived_append]
  simp

/-- The calls of `Read` on the pieces of a reply: those before the last ask for more, the last
ends the reply, and the reader then holds what it holds when the reply comes in one piece. -/
def DecodesPieces (r : Reader) (pieces : List (List UInt8)) (reply : Reply) : Prop :=
  let c := r.reset.feed pieces
  let whole := (r.reset.feed [reply.encode]).2
  (∀ ret ∈ c.1.dropLast, 0 < ret) ∧ c.1.getLast? = some 0 ∧
    c.2.data = whole.data ∧ c.2.size = whole.size

theorem decodesPieces_iff {r : Reader} {init : List (List UInt8)} {last : List UInt8}
    {reply : Reply} (hw : reply.WellFormed) (hpieces : (init ++ [last]).flatten = reply.encode) :
    DecodesPieces r (init ++ [last]) reply ↔
      (∀ bs ∈ arrived [] init, 0 < (parseReply bs []).1.ret ∧ (parseReply bs []).1.out = []) ∧
        (parseReply reply.encode []).1.ret = 0 := by
  have h0 : ∀ piece ∈ init ++ [last], 0 ∉ piece := fun piece hmem h =>
    Reply.nul_not_mem_encode hw (hpieces ▸ List.mem_flatten_of_mem hmem h)
  have hwhole : ∀ piece ∈ [reply.encode], 0 ∉ piece := by
    simpa using Reply.nul_not_mem_encode hw
  have hlast : init.flatten ++ last = reply.encode := by simpa using hpieces
  simp only [DecodesPieces, feed_eq h0, feed_eq hwhole, Reader.reset, arrived_append, arrived,
    List.nil_append, hlast, Reader.data, Reader.size]
  generalize arrived [] init = before
  have hout : (before ++ [reply.encode]).flatMap (fun bs => (parseReply bs []).1.out) =
      [reply.encode].flatMap (fun bs => (parseReply bs []).1.out) ↔
      ∀ bs ∈ before, (parseReply bs []).1.out = [] := by
    rw [List.flatMap_append, List.append_left_eq_self, List.flatMap_eq_nil_iff]
  rw [List.map_append, List.map_singleton, List.dropLast_concat, List.getLast?_concat, hout]
  constructor
  · rintro ⟨hret, hzero, hquiet, -⟩
    refine ⟨fun bs hbs => ⟨hret _ (List.mem_map_of_mem hbs), hquiet bs hbs⟩, ?_⟩
    exact Option.some.inj hzero
  · rintro ⟨hquiet, hzero⟩
    refine ⟨fun ret hret => ?_, by rw [hzero], fun bs hbs => (hquiet bs hbs).2, ?_⟩
    · obtain ⟨bs, hbs, rfl⟩ := List.mem_map.mp hret
      exact (hquiet bs hbs).1
    · rw [hout.mpr fun bs hbs => (hquiet bs hbs).2]

/-- A reply in pieces is decoded as in one piece exactly when its numbers fit the parser and,
for a multi-bulk reply, the last piece begins before the end of its line. -/
theorem read_pieces_iff {reply : Reply} (hw : reply.WellFormed) (r : Reader)
    {pieces : List (List UInt8)} (hne : ∀ piece ∈ pieces, piece ≠ [])
    (hpieces : pieces.flatten = reply.encode) :
    DecodesPieces r pieces reply ↔ reply.Fits ∧
      (reply.HasAnswers → pieces.dropLast.flatten.length < reply.line.length + 2) := by
  rcases List.eq_nil_or_concat' pieces with rfl | ⟨init, last, rfl⟩
  · simp [Reply.encode, RedisParser.crlf] at hpieces
  have hinit : ∀ piece ∈ init, piece ≠ [] := fun piece h => hne piece (List.mem_append_left _ h)
  have hlast : init.flatten ++ last = reply.encode := by simpa using hpieces
  have hlen : init.flatten.length < reply.encode.length := by
    rw [← hlast, List.length_append]
    have := List.length_pos_iff.mpr (hne last (by simp))
    omega
  have hbegin : ∀ bs ∈ arrived [] init, bs ≠ [] ∧ bs <+: reply.encode ∧
      bs.length ≤ init.flatten.length := by
    intro bs hbs
    obtain ⟨hbs, hp⟩ := mem_arrived hinit hbs
    rw [List.nil_append] at hp
    exact ⟨hbs, hp.trans ⟨last, hlast⟩, hp.length_le⟩
  rw [decodesPieces_iff hw hpieces, Reply.parseReply_ret_iff hw, List.dropLast_concat, and_comm]
  refine and_congr_right fun hfits => ⟨fun hquiet => ?_, fun hline bs hbs => ?_⟩
  · intro hanswers
    by_cases hnil : init = []
    · simp [hnil]
    · have hmem := flatten_mem_arrived hnil []
      obtain ⟨hbs, hp, -⟩ := hbegin _ hmem
      exact (Reply.parseReply_prefix_iff hw hfits hbs hp hlen).mp (hquiet _ hmem) hanswers
  · obtain ⟨hbs, hp, hle⟩ := hbegin bs hbs
    refine (Reply.parseReply_prefix_iff hw hfits hbs hp (by omega)).mpr fun hanswers => ?_
    exact Nat.lt_of_le_of_lt hle (hline hanswers)

def oneAnswer : Reply := .multiBulk (some [some (RedisParser.ascii "a")])

theorem oneAnswer_wellFormed : oneAnswer.WellFormed := by
  rintro l hl a ha v rfl
  obtain rfl := Option.some.inj hl
  obtain rfl : v = RedisParser.ascii "a" := Option.some.inj (List.mem_singleton.mp ha)
  refine ⟨by decide, fun b hb => ?_⟩
  obtain rfl : b = 97 := List.mem_singleton.mp hb
  decide

theorem read_pieces_iff_oneAnswer :
    DecodesPieces ⟨[], []⟩ [RedisParser.ascii "*", RedisParser.ascii "1\r\n$1\r\na\r\n"]
      oneAnswer := by
  refine (read_pieces_iff oneAnswer_wellFormed ⟨[], []⟩ (by decide) (by decide)).mpr ⟨?_, ?_⟩
  · refine ⟨by decide, by decide, fun a ha v hv => ?_⟩
    obtain rfl := List.mem_singleton.mp ha
    obtain rfl := Option.some.inj hv
    decide
  · intro _
    decide

theorem oneAnswer_repeated :
    ¬ ∀ reply : Reply, reply.WellFormed → ∀ (r : Reader) (pieces : List (List UInt8)),
      (∀ piece ∈ pieces, piece ≠ []) → pieces.flatten = reply.encode →
      DecodesPieces r pieces reply := by
  intro h
  obtain ⟨-, -, hdata, -⟩ := h oneAnswer oneAnswer_wellFormed ⟨[], []⟩
    [RedisParser.ascii "*1\r\n", RedisParser.ascii "$1\r\na\r\n"] (by decide) (by decide)
  exact absurd hdata (by decide)

end Magneto.Redis
