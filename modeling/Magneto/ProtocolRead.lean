import Magneto.Rapid
import Magneto.Redis
import Magneto.RedisReply
import Magneto.Thrift

/-!
# A connection that ends

The four implementations of `ProtocolRead`, and what a call of `Read` reports when the
socket yields no byte. Rapid, Ping and Thrift report the end at once, whatever they hold.
The reader of Redis parses what it holds again, so in the middle of a message it asks for
the rest.
-/

namespace Magneto

open IOHelper (SockIn readNonBlock)

namespace Ping

structure Reader where
  buffer : UInt8
  deriving DecidableEq, Repr

def Reader.reset (r : Reader) : Reader := r

def Reader.read (r : Reader) (s : SockIn) : ReadCall Reader :=
  let c := readNonBlock 1 s
  if 0 < c.ret then ⟨0, ⟨c.got.headD r.buffer⟩, c.got⟩
  else ⟨if c.ret = 0 then Protocol.kEnd else c.ret, r, c.got⟩

def Reader.data (r : Reader) : List UInt8 := [r.buffer]

end Ping

inductive ProtocolRead
  | rapid (r : Rapid.Reader)
  | ping (r : Ping.Reader)
  | redis (r : Redis.Reader)
  | thrift (r : Thrift.Reader)
  deriving DecidableEq, Repr

namespace ProtocolRead

def reset : ProtocolRead → ProtocolRead
  | rapid r => rapid r.reset
  | ping r => ping r.reset
  | redis r => redis r.reset
  | thrift r => thrift r.reset

def lift {α : Type} (f : α → ProtocolRead) (c : ReadCall α) : ReadCall ProtocolRead :=
  ⟨c.ret, f c.reader, c.got⟩

def read (s : SockIn) : ProtocolRead → ReadCall ProtocolRead
  | rapid r => lift rapid (r.read s)
  | ping r => lift ping (r.read s)
  | redis r => lift redis (r.read s)
  | thrift r => lift thrift (r.read s)

def data : ProtocolRead → List UInt8
  | rapid r => r.data
  | ping r => r.data
  | redis r => r.data
  | thrift r => r.data

def header : ProtocolRead → Option (List UInt8 × Thrift.Direction × ℤ)
  | thrift r => some (r.fn, r.dir, r.seqid)
  | _ => none

def output (r : ProtocolRead) : List UInt8 × Option (List UInt8 × Thrift.Direction × ℤ) :=
  (r.data, r.header)

inductive Intermediate : ProtocolRead → Prop
  | reset (r : ProtocolRead) : Intermediate r.reset
  | read {r : ProtocolRead} {s : SockIn} : Intermediate r → 0 < (r.read s).ret →
    Intermediate (r.read s).reader

def Quiet (s : SockIn) : Prop := ∀ count, 0 < count → (readNonBlock count s).ret = 0

theorem Quiet.cases {s : SockIn} (h : Quiet s) : s = [] ∨ ∃ rest, s = .data [] :: rest := by
  have hone := h 1 Nat.one_pos
  match s with
  | [] => exact .inl rfl
  | .fail code :: rest =>
    simp only [readNonBlock] at hone
    omega
  | .data [] :: rest => exact .inr ⟨rest, rfl⟩
  | .data (b :: bs) :: rest => simp [readNonBlock, Word.intMax] at hone

theorem Quiet.readNonBlock {s : SockIn} (h : Quiet s) (count : ℕ) :
    (readNonBlock count s).ret = 0 ∧ (readNonBlock count s).got = [] := by
  obtain rfl | ⟨rest, rfl⟩ := h.cases
  · exact ⟨rfl, rfl⟩
  · simp [IOHelper.readNonBlock]

section quiet

variable {s : SockIn}

theorem rapid_read_quiet (h : Quiet s) (r : Rapid.Reader) :
    r.read s = ⟨Protocol.kEnd, r, []⟩ := by
  unfold Rapid.Reader.read
  split_ifs
  · simp [Rapid.Reader.readLoop, Rapid.headerSize, (h.readNonBlock _).1]
  · simp [Rapid.Reader.readBody, (h.readNonBlock _).1]

theorem ping_read_quiet (h : Quiet s) (r : Ping.Reader) :
    r.read s = ⟨Protocol.kEnd, r, []⟩ := by
  simp [Ping.Reader.read, (h.readNonBlock 1).1, (h.readNonBlock 1).2]

theorem thrift_read_quiet (h : Quiet s) (r : Thrift.Reader) :
    r.read s = ⟨Protocol.kEnd, r, []⟩ := by
  unfold Thrift.Reader.read
  split_ifs
  · simp [Thrift.Reader.readLoop, Thrift.headerSize, (h.readNonBlock _).1]
  · simp [Thrift.Reader.readBody, (h.readNonBlock _).1]

theorem redis_read_quiet (h : Quiet s) (r : Redis.Reader) :
    r.read s = ⟨(RedisParser.parseReply r.reply r.out).1.ret,
      ⟨r.reply, (RedisParser.parseReply r.reply r.out).1.out⟩, []⟩ := by
  have hchunks : Redis.readChunks (Redis.pendingBytes s + 1) r.reply [] s =
      (true, r.reply, []) := by
    simp [Redis.readChunks, (h.readNonBlock _).1, (h.readNonBlock _).2, Redis.cString,
      Redis.kTmpBufSize]
  unfold Redis.Reader.read
  rw [hchunks]

end quiet

/-- A reader of Redis is at the beginning of a message, or in the middle of one. -/
def Unfinished (r : ProtocolRead) : Prop :=
  ∀ x, r = redis x → x.reply = [] ∨ 0 < (RedisParser.parseReply x.reply []).1.ret

theorem parseReply_ret (reply out : List UInt8) :
    (RedisParser.parseReply reply out).1.ret = (RedisParser.parseReply reply []).1.ret := by
  rw [RedisParser.parseReply_after]
  rfl

theorem unfinished_read_redis {x : Redis.Reader} {s : SockIn} (hret : 0 < (x.read s).ret) :
    0 < (RedisParser.parseReply (x.read s).reader.reply []).1.ret := by
  unfold Redis.Reader.read at hret ⊢
  split at hret
  · simp at hret
  · dsimp only at hret ⊢
    rwa [parseReply_ret] at hret

theorem Intermediate.unfinished {r : ProtocolRead} (h : Intermediate r) : r.Unfinished := by
  induction h with
  | reset r =>
    intro x hx
    cases r with
    | redis r =>
      injection hx with hx
      exact .inl (hx ▸ rfl)
    | rapid r | ping r | thrift r => cases hx
  | @read r s _ hret _ =>
    intro x hx
    cases r with
    | redis r =>
      injection hx with hx
      exact .inr (hx ▸ unfinished_read_redis hret)
    | rapid r | ping r | thrift r => cases hx

/-- A call of `Read` on a socket that yields no byte reports it and keeps the output. -/
def ReportsEnd (s : SockIn) (r : ProtocolRead) : Prop :=
  (r.read s).ret < 0 ∧ (r.read s).reader.output = r.output

theorem reportsEnd_of_kEnd {r : ProtocolRead} {s : SockIn}
    (h : r.read s = ⟨Protocol.kEnd, r, []⟩) : r.ReportsEnd s := by
  have hend : Protocol.kEnd < 0 := by decide
  rw [ReportsEnd, h]
  exact ⟨hend, rfl⟩

theorem redis_reportsEnd_iff {s : SockIn} (hs : Quiet s) {x : Redis.Reader}
    (hx : (redis x).Unfinished) : (redis x).ReportsEnd s ↔ x.reply = [] := by
  have hread : (redis x).read s = lift redis (x.read s) := rfl
  rw [ReportsEnd, hread, redis_read_quiet hs]
  refine ⟨fun h => (hx x rfl).resolve_right fun hpos => ?_, fun hnil => ?_⟩
  · have hneg : (RedisParser.parseReply x.reply x.out).1.ret < 0 := h.1
    rw [parseReply_ret] at hneg
    omega
  · obtain ⟨reply, out⟩ := x
    obtain rfl : reply = [] := hnil
    exact ⟨neg_one_lt_zero, rfl⟩

theorem reportsEnd_iff (r : ProtocolRead) (hr : r.Intermediate) (s : SockIn) (hs : Quiet s) :
    r.ReportsEnd s ↔ ∀ x, r = redis x → x.reply = [] := by
  cases r with
  | rapid r =>
    refine iff_of_true (reportsEnd_of_kEnd ?_) fun x hx => by cases hx
    exact congrArg (lift rapid) (rapid_read_quiet hs r)
  | ping r =>
    refine iff_of_true (reportsEnd_of_kEnd ?_) fun x hx => by cases hx
    exact congrArg (lift ping) (ping_read_quiet hs r)
  | thrift r =>
    refine iff_of_true (reportsEnd_of_kEnd ?_) fun x hx => by cases hx
    exact congrArg (lift thrift) (thrift_read_quiet hs r)
  | redis x =>
    rw [redis_reportsEnd_iff hs hr.unfinished]
    refine ⟨fun h y hy => ?_, fun h => h x rfl⟩
    cases hy
    exact h

theorem quiet_nil : Quiet [] := fun _ _ => rfl

def redisReset : ProtocolRead := (redis ⟨[], []⟩).reset

def redisHalf : ProtocolRead := (redisReset.read [.data (RedisParser.ascii ":1")]).reader

theorem redisHalf_intermediate : redisHalf.Intermediate :=
  .read (.reset (redis ⟨[], []⟩)) (by decide)

theorem reportsEnd_iff_reset :
    redisReset.Intermediate ∧ Quiet [] ∧ redisReset.ReportsEnd [] ∧ ¬redisHalf.ReportsEnd [] := by
  refine ⟨.reset _, quiet_nil, ?_, ?_⟩
  · rw [reportsEnd_iff redisReset (.reset _) [] quiet_nil]
    rintro x ⟨⟩
    rfl
  · rw [reportsEnd_iff redisHalf redisHalf_intermediate [] quiet_nil]
    intro h
    exact absurd (h ⟨RedisParser.ascii ":1", []⟩ (by decide)) (by decide)

theorem redisHalf_waits : ¬∀ (r : ProtocolRead) (s : SockIn), r.Intermediate → Quiet s →
    r.ReportsEnd s := by
  intro h
  have hneg : (redisHalf.read []).ret < 0 := (h redisHalf [] redisHalf_intermediate quiet_nil).1
  exact absurd hneg (by decide)

end ProtocolRead

end Magneto
