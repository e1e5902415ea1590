import Magneto.SessionRun

/-!
# What a talk has written and read

The answers of the socket that a talk records, replayed on its protocol objects.
A request is written when the calls of `Write`, from the writer as `Encode` left
it, go on until the last one returns 0. A reply is read when the calls of `Read`,
from the reader as `Reset` left it, end in one that returns 0 and `Decode`
accepts the message. An attempt that passed has done so, unless another talk
writes to the writer or an abandoned attempt left something in the reader.
-/

namespace Magneto

variable {P : Protocols}

open IOHelper (SockIn SockOut)

namespace Protocols

def writeMore (P : Protocols) (c : P.Writer × List UInt8) (out : SockOut) :
    Option (P.Writer × List UInt8) :=
  let r := P.write c.1 out
  if 0 < r.ret then some (r.writer, c.2 ++ r.put) else none

def writing (P : Protocols) (w : P.Writer) (outs : List SockOut) :
    Option (P.Writer × List UInt8) :=
  outs.foldlM P.writeMore (w, [])

def written (P : Protocols) (w : P.Writer) (outs : List SockOut) : Option (List UInt8) :=
  (P.writing w outs.dropLast).bind fun c => outs.getLast?.bind fun out =>
    let r := P.write c.1 out
    if r.ret = 0 then some (c.2 ++ r.put) else none

def readMore (P : Protocols) (c : P.Reader × List UInt8) (inp : SockIn) :
    Option (P.Reader × List UInt8) :=
  let r := P.read c.1 inp
  if 0 < r.ret then some (r.reader, c.2 ++ r.got) else none

def reading (P : Protocols) (r : P.Reader) (ins : List SockIn) :
    Option (P.Reader × List UInt8) :=
  ins.foldlM P.readMore (r, [])

def readWhole (P : Protocols) (r : P.Reader) (ins : List SockIn) :
    Option (P.Reader × List UInt8) :=
  (P.reading r ins.dropLast).bind fun c => ins.getLast?.bind fun inp =>
    let call := P.read c.1 inp
    let d := P.decode call.reader
    if call.ret = 0 ∧ d.1 = true then some (d.2, c.2 ++ call.got) else none

def hear (P : Protocols) (r : P.Reader) (inp : SockIn) : P.Reader :=
  let call := P.read r inp
  if call.ret = 0 then (P.decode call.reader).2 else call.reader

def heardAll (P : Protocols) (r : P.Reader) (ins : List SockIn) : P.Reader := ins.foldl P.hear r

section concat

variable (w : P.Writer) (outs : List SockOut) (out : SockOut)
variable (r : P.Reader) (ins : List SockIn) (inp : SockIn)

@[simp] theorem writing_nil : P.writing w [] = some (w, []) := rfl

theorem writing_concat :
    P.writing w (outs ++ [out]) = (P.writing w outs).bind (P.writeMore · out) := by
  rw [writing, List.foldlM_append]
  exact congrArg _ (funext fun c => bind_pure _)

@[simp] theorem written_nil : P.written w [] = none := rfl

theorem written_concat : P.written w (outs ++ [out]) = (P.writing w outs).bind fun c =>
    if (P.write c.1 out).ret = 0 then some (c.2 ++ (P.write c.1 out).put) else none := by
  simp only [written, List.dropLast_concat, List.getLast?_concat, Option.bind_some]

@[simp] theorem reading_nil : P.reading r [] = some (r, []) := rfl

theorem reading_concat :
    P.reading r (ins ++ [inp]) = (P.reading r ins).bind (P.readMore · inp) := by
  rw [reading, List.foldlM_append]
  exact congrArg _ (funext fun c => bind_pure _)

@[simp] theorem readWhole_nil : P.readWhole r [] = none := rfl

theorem readWhole_concat : P.readWhole r (ins ++ [inp]) = (P.reading r ins).bind fun c =>
    if (P.read c.1 inp).ret = 0 ∧ (P.decode (P.read c.1 inp).reader).1 = true then
      some ((P.decode (P.read c.1 inp).reader).2, c.2 ++ (P.read c.1 inp).got)
    else none := by
  simp only [readWhole, List.dropLast_concat, List.getLast?_concat, Option.bind_some]

theorem heardAll_concat : P.heardAll r (ins ++ [inp]) = P.hear (P.heardAll r ins) inp := by
  rw [heardAll, List.foldl_append]
  rfl

end concat

end Protocols

namespace Talk

def Request (t : Talk P) (w : P.Writer) : Prop :=
  ∃ w₀, ∃ buf ∈ t.buf, P.encode (P.resetWriter w₀ buf) = (true, w)

def WroteRequest (t : Talk P) : Prop :=
  ∃ w ∈ t.encoded, t.Request w ∧ P.written w t.attempt.outs = some t.attempt.sent

def ReadReply (t : Talk P) : Prop :=
  ∃ r ∈ t.readied, ∃ o ∈ t.protocolRead,
    P.readWhole r t.attempt.ins = some (o.val, t.attempt.received)

def Completed (t : Talk P) : Prop :=
  (t.category ≠ .kReadOnly → t.WroteRequest) ∧ (t.category ≠ .kWriteOnly → t.ReadReply)

/-- No attempt that was abandoned for a retry has left anything in the reader. -/
def Unstale (t : Talk P) : Prop :=
  ∀ r ∈ t.readied, ∀ a ∈ t.past, P.heardAll r a.ins = r

instance [DecidableEq P.Reader] (t : Talk P) : Decidable t.ReadReply :=
  inferInstanceAs (Decidable (∃ r ∈ t.readied, ∃ o ∈ t.protocolRead, _ = _))

instance [DecidableEq P.Reader] (t : Talk P) : Decidable t.Unstale :=
  inferInstanceAs (Decidable (∀ r ∈ t.readied, ∀ a ∈ t.past, _ = _))

def found (t : Talk P) (r : P.Reader) : P.Reader :=
  t.past.foldl (fun r a => P.heardAll r a.ins) r

theorem Unstale.found_eq {t : Talk P} (h : t.Unstale) {r : P.Reader} (hr : r ∈ t.readied) :
    t.found r = r := by
  have hpast : ∀ as : List Attempt, (∀ a ∈ as, P.heardAll r a.ins = r) →
      as.foldl (fun r a => P.heardAll r a.ins) r = r := by
    intro as has
    induction as with
    | nil => rfl
    | cons a as ih =>
      obtain ⟨ha, has⟩ := List.forall_mem_cons.mp has
      rw [List.foldl_cons, ha]
      exact ih has
  exact hpast t.past (h r hr)

def ReadWhole (t : Talk P) : Prop :=
  ∃ r ∈ t.readied, ∃ o ∈ t.protocolRead,
    P.readWhole (t.found r) t.attempt.ins = some (o.val, t.attempt.received)

theorem Unstale.readWhole_iff {t : Talk P} (h : t.Unstale) : t.ReadWhole ↔ t.ReadReply := by
  constructor <;>
  · rintro ⟨r, hr, hwhole⟩
    refine ⟨r, hr, ?_⟩
    simpa only [h.found_eq hr] using hwhole

/-- The writer of a talk without an error code is what the calls of `Write` made of it. -/
structure WriteRecord (t : Talk P) : Prop where
  going : t.error = .kOk → ∀ o ∈ t.protocolWrite, ∃ w ∈ t.encoded, t.Request w ∧
    (t.attempt.written = false → t.attempt.broken = false →
      P.writing w t.attempt.outs = some (o.val, t.attempt.sent))
  ended : t.attempt.written = true ↔ t.WroteRequest

/-- The reader of a talk is what the calls of `Read` made of it. -/
structure ReadRecord (t : Talk P) : Prop where
  reader : ∀ o ∈ t.protocolRead, ∃ r ∈ t.readied,
    o.val = P.heardAll (t.found r) t.attempt.ins
  going : ∀ o ∈ t.protocolRead, ∀ r ∈ t.readied, t.attempt.decoded = false →
    t.attempt.broken = false →
      P.reading (t.found r) t.attempt.ins = some (o.val, t.attempt.received)
  ended : t.attempt.decoded = true ↔ t.ReadWhole

variable {A : Tolerance} {t u : Talk P}

theorem passed_iff_completed (hw : t.WriteRecord) (hr : t.ReadRecord) (hun : t.Unstale) :
    t.attempt.passed t.category = true ↔ t.Completed := by
  have hread : t.attempt.decoded = true ↔ t.ReadReply := hr.ended.trans hun.readWhole_iff
  unfold Completed
  cases t.category with
  | kWriteOnly => simpa [Attempt.passed] using hw.ended
  | kReadOnly => simpa [Attempt.passed] using hread
  | kWriteAndRead => simpa [Attempt.passed] using and_congr hw.ended hread

theorem WriteRecord.wroteRequest (h : t.WriteRecord)
    (hp : t.attempt.passed t.category = true) (hc : t.category ≠ .kReadOnly) :
    t.WroteRequest := by
  apply h.ended.mp
  cases hk : t.category with
  | kReadOnly => exact absurd hk hc
  | kWriteOnly => simpa [hk, Attempt.passed] using hp
  | kWriteAndRead =>
    have hboth : t.attempt.written = true ∧ t.attempt.decoded = true := by
      simpa [hk, Attempt.passed] using hp
    exact hboth.1

theorem WroteRequest.sent (h : t.WroteRequest) :
    t.encoded.bind (P.written · t.attempt.outs) = some t.attempt.sent := by
  obtain ⟨w, hw, -, hsent⟩ := h
  rw [Option.mem_def.mp hw]
  exact hsent

theorem not_wroteRequest_fresh (ha : t.attempt = .fresh) : ¬ t.WroteRequest := by
  rintro ⟨w, -, -, hw⟩
  rw [ha] at hw
  cases hw

theorem not_readWhole_fresh (ha : t.attempt = .fresh) : ¬ t.ReadWhole := by
  rintro ⟨r, -, o, -, hr⟩
  rw [ha] at hr
  cases hr

theorem Same.wroteRequest_iff (h : Same t u) : u.WroteRequest ↔ t.WroteRequest := by
  rw [WroteRequest, WroteRequest, h.encoded, h.attempt]
  simp only [Request, h.buf]

theorem WriteRecord.same (h : t.WriteRecord) (hs : Same t u)
    (he : u.error = .kOk → t.error = .kOk) : u.WriteRecord := by
  refine ⟨fun hu o ho => ?_, ?_⟩
  · rw [hs.protocolWrite] at ho
    obtain ⟨w, hw, hreq, hgo⟩ := h.going (he hu) o ho
    refine ⟨w, hs.encoded ▸ hw, ?_, ?_⟩
    · rw [Request, hs.buf]
      exact hreq
    · rw [hs.attempt]
      exact hgo
  · rw [hs.wroteRequest_iff, hs.attempt]
    exact h.ended

theorem writeRecord_fresh (ha : t.attempt = .fresh)
    (h : t.error = .kOk → ∀ o ∈ t.protocolWrite, o.val ∈ t.encoded ∧ t.Request o.val) :
    t.WriteRecord := by
  refine ⟨fun he o ho => ?_, iff_of_false (by simp [ha, Attempt.fresh]) (not_wroteRequest_fresh ha)⟩
  obtain ⟨hw, hreq⟩ := h he o ho
  refine ⟨o.val, hw, hreq, fun _ _ => ?_⟩
  rw [ha]
  rfl

theorem writeRecord_retried (hr : Retried t u) : u.WriteRecord := by
  refine writeRecord_fresh hr.attempt fun he o ho => ?_
  rcases hr.reencoded he with ⟨-, hnone⟩ | ⟨w, buf, -, hbuf, hok, hw, henc⟩
  · rw [hnone] at ho
    cases ho
  · rw [hw] at ho
    obtain rfl := Option.some.inj ho
    refine ⟨henc, w.val, buf, hr.buf.trans hbuf, ?_⟩
    exact Prod.ext hok rfl

theorem WriteRecord.write (h : t.WriteRecord) {o : WriterObj P} (out : SockOut)
    (ho : t.protocolWrite = some o) (hw : t.attempt.written = false)
    (hb : t.attempt.broken = false) (he : t.error = .kOk) :
    (AgentSlave.writeTalk t o out).WriteRecord := by
  obtain ⟨w, henc, hreq, hgo⟩ := h.going he o ho
  have hgo := hgo hw hb
  refine ⟨fun _ o' ho' => ?_, ?_⟩
  · obtain rfl := Option.some.inj ho'
    refine ⟨w, henc, hreq, fun hwr hbr => ?_⟩
    have hpos : 0 < (P.write o.val out).ret := by
      have h0 : (P.write o.val out).ret ≠ 0 := of_decide_eq_false hwr
      have h1 : ¬ (P.write o.val out).ret < 0 := of_decide_eq_false hbr
      omega
    change P.writing w (t.attempt.outs ++ [out]) = _
    rw [P.writing_concat, hgo, Option.bind_some, Protocols.writeMore, if_pos hpos]
    rfl
  · have hwritten : P.written w (t.attempt.outs ++ [out]) =
        if (P.write o.val out).ret = 0 then
          some (t.attempt.sent ++ (P.write o.val out).put) else none := by
      rw [P.written_concat, hgo, Option.bind_some]
    change decide ((P.write o.val out).ret = 0) = true ↔ ∃ w ∈ t.encoded, t.Request w ∧
      P.written w (t.attempt.outs ++ [out]) = some (t.attempt.sent ++ (P.write o.val out).put)
    rw [decide_eq_true_iff]
    constructor
    · intro h0
      exact ⟨w, henc, hreq, by rw [hwritten, if_pos h0]⟩
    · rintro ⟨w', henc', -, hsome⟩
      obtain rfl : w = w' := Option.some.inj (henc.symm.trans henc')
      rw [hwritten] at hsome
      by_contra h0
      rw [if_neg h0] at hsome
      cases hsome

/-- Every change of a talk keeps the record, unless another talk writes to its writer. -/
theorem WriteRecord.move (hA : ¬ A.shared) (h : t.WriteRecord) (hm : Move A t u) :
    u.WriteRecord := by
  cases hm with
  | same hs he => exact h.same hs he
  | shared v hv => exact ⟨fun he => absurd he (hv.resolve_left hA), h.ended⟩
  | write out ho hw hb he => exact h.write out ho hw hb he
  | read inp ho hd hb hr =>
    refine ⟨fun he o ho' => ?_, h.ended⟩
    obtain ⟨w, hw, hreq, hgo⟩ := h.going he o ho'
    exact ⟨w, hw, hreq, fun hwr _ => hgo hwr hb⟩
  | decode inp ho hd hb hr =>
    refine ⟨fun he o ho' => ?_, h.ended⟩
    obtain ⟨w, hw, hreq, hgo⟩ := h.going he o ho'
    exact ⟨w, hw, hreq, fun hwr _ => hgo hwr hb⟩
  | retry hr => exact writeRecord_retried hr

theorem ReadRecord.same (h : t.ReadRecord) (hs : Same t u) : u.ReadRecord := by
  have hf : u.found = t.found := by
    funext r
    rw [found, hs.past]
    rfl
  refine ⟨?_, ?_, ?_⟩
  · rw [hs.protocolRead, hs.readied, hs.attempt, hf]
    exact h.reader
  · rw [hs.protocolRead, hs.readied, hs.attempt, hf]
    exact h.going
  · rw [ReadWhole, hs.protocolRead, hs.readied, hs.attempt, hf]
    exact h.ended

theorem readRecord_fresh (ha : t.attempt = .fresh)
    (h : ∀ o ∈ t.protocolRead, ∃ r ∈ t.readied, o.val = t.found r) : t.ReadRecord := by
  refine ⟨fun o ho => ?_, fun o ho r hr _ _ => ?_,
    iff_of_false (by simp [ha, Attempt.fresh]) (not_readWhole_fresh ha)⟩
  · rw [ha]
    exact h o ho
  · obtain ⟨r', hr', hval⟩ := h o ho
    obtain rfl := Option.some.inj (hr'.symm.trans hr)
    rw [ha, hval]
    rfl

theorem ReadRecord.retried (h : t.ReadRecord) (hr : Retried t u) : u.ReadRecord := by
  refine readRecord_fresh hr.attempt fun o ho => ?_
  rw [hr.protocolRead] at ho
  obtain ⟨r, hmem, hval⟩ := h.reader o ho
  refine ⟨r, hr.readied ▸ hmem, ?_⟩
  rw [hval, found, found, hr.past, List.foldl_append]
  rfl

theorem ReadRecord.read (h : t.ReadRecord) {o : ReaderObj P} (inp : SockIn)
    (ho : t.protocolRead = some o) (hd : t.attempt.decoded = false)
    (hb : t.attempt.broken = false) (hr : (P.read o.val inp).ret ≠ 0) :
    (AgentSlave.readTalk t o inp).ReadRecord := by
  obtain ⟨r₀, hr₀, hval⟩ := h.reader o ho
  have hgo := fun r hr => h.going o ho r hr hd hb
  refine ⟨fun o' ho' => ⟨r₀, hr₀, ?_⟩, fun o' ho' r hr' _ hbr => ?_, ?_⟩
  · obtain rfl := Option.some.inj ho'
    change _ = P.heardAll (t.found r₀) (t.attempt.ins ++ [inp])
    rw [P.heardAll_concat, ← hval, Protocols.hear, if_neg hr]
  · obtain rfl := Option.some.inj ho'
    have hpos : 0 < (P.read o.val inp).ret := by
      have h1 : ¬ (P.read o.val inp).ret < 0 := of_decide_eq_false hbr
      omega
    change P.reading (t.found r) (t.attempt.ins ++ [inp]) = _
    rw [P.reading_concat, hgo r hr', Option.bind_some, Protocols.readMore, if_pos hpos]
    rfl
  · refine iff_of_false (Bool.eq_false_iff.mp hd) ?_
    rintro ⟨r, hr', o', -, hwhole⟩
    change P.readWhole (t.found r) (t.attempt.ins ++ [inp]) = _ at hwhole
    rw [P.readWhole_concat, hgo r hr', Option.bind_some, if_neg fun h0 => hr h0.1] at hwhole
    cases hwhole

theorem ReadRecord.decode (h : t.ReadRecord) {o : ReaderObj P} (inp : SockIn)
    (ho : t.protocolRead = some o) (hd : t.attempt.decoded = false)
    (hb : t.attempt.broken = false) (hr : (P.read o.val inp).ret = 0) :
    (AgentSlave.decodeTalk (AgentSlave.readTalk t o inp) o
      (P.decode (P.read o.val inp).reader)).ReadRecord := by
  obtain ⟨r₀, hr₀, hval⟩ := h.reader o ho
  have hgo := fun r hr => h.going o ho r hr hd hb
  refine ⟨fun o' ho' => ⟨r₀, hr₀, ?_⟩, fun o' ho' r hr' hdec hbr => ?_, ?_⟩
  · obtain rfl := Option.some.inj ho'
    change _ = P.heardAll (t.found r₀) (t.attempt.ins ++ [inp])
    rw [P.heardAll_concat, ← hval, Protocols.hear, if_pos hr]
  · -- a refused message ends the attempt
    have hbroken : (!(P.decode (P.read o.val inp).reader).1) = false := hbr
    have hdecoded : (P.decode (P.read o.val inp).reader).1 = false := hdec
    rw [hdecoded] at hbroken
    cases hbroken
  · have hwhole : ∀ r ∈ t.readied, P.readWhole (t.found r) (t.attempt.ins ++ [inp]) =
        if (P.decode (P.read o.val inp).reader).1 = true then
          some ((P.decode (P.read o.val inp).reader).2,
            t.attempt.received ++ (P.read o.val inp).got) else none := by
      intro r hr'
      rw [P.readWhole_concat, hgo r hr', Option.bind_some]
      simp only [hr, true_and]
    constructor
    · intro hok
      exact ⟨r₀, hr₀, _, rfl, (hwhole r₀ hr₀).trans (if_pos hok)⟩
    · rintro ⟨r, hr', o', -, hsome⟩
      have hnone := hwhole r hr'
      by_contra hok
      exact absurd ((hnone.trans (if_neg hok)).symm.trans hsome) (by simp)

theorem ReadRecord.move (h : t.ReadRecord) (hm : Move A t u) : u.ReadRecord := by
  cases hm with
  | same hs he => exact h.same hs
  | shared v hv => exact ⟨h.reader, h.going, h.ended⟩
  | write out ho hw hb he =>
    exact ⟨h.reader, fun o ho r hr hd _ => h.going o ho r hr hd hb, h.ended⟩
  | read inp ho hd hb hr => exact h.read inp ho hd hb hr
  | decode inp ho hd hb hr => exact h.decode inp ho hd hb hr
  | retry hr => exact h.retried hr

section assign

variable (pools : PoolProtocols P) (now : ℤ) (args : Args P)

theorem assign_attempt : (assign pools now args).1.attempt = .fresh := by
  have h := assign_cases pools now args
  generalize assign pools now args = r at h ⊢
  cases h <;> rfl

theorem assign_request (he : (assign pools now args).1.error = .kOk) :
    ∀ o ∈ (assign pools now args).1.protocolWrite,
      o.val ∈ (assign pools now args).1.encoded ∧ (assign pools now args).1.Request o.val := by
  have h := assign_cases pools now args
  generalize assign pools now args = r at h he ⊢
  intro o ho
  have hrequest : ∀ {w : WriterObj P} {b : P.Buf}, args.buf = some b →
      encodeWriter (pools.getWrite args.protocolCategory).1 b = (true, w) →
      ∃ w₀, ∃ buf ∈ args.buf, P.encode (P.resetWriter w₀ buf) = (true, w.val) := by
    intro w b hb henc
    have hok : (encodeWriter (pools.getWrite args.protocolCategory).1 b).1 = true := by rw [henc]
    have hval : (encodeWriter (pools.getWrite args.protocolCategory).1 b).2.val = w.val := by
      rw [henc]
    exact ⟨(pools.getWrite args.protocolCategory).1.val, b, hb, Prod.ext hok hval⟩
  cases h with
  | skipped hb => cases ho
  | unencoded b w hb hc henc => cases he
  | writeOnly b w hb hc henc =>
    obtain rfl := Option.some.inj ho
    exact ⟨rfl, hrequest hb henc⟩
  | writeAndRead b w q hb hc henc =>
    obtain rfl := Option.some.inj ho
    exact ⟨rfl, hrequest hb henc⟩
  | readOnly b q hb hc => cases ho

theorem assign_readRecord : (assign pools now args).1.ReadRecord := by
  apply readRecord_fresh (assign_attempt pools now args)
  have h := assign_cases pools now args
  generalize assign pools now args = r at h ⊢
  intro o ho
  cases h with
  | writeAndRead b w q hb hc henc =>
    obtain rfl := Option.some.inj ho
    exact ⟨_, rfl, rfl⟩
  | readOnly b q hb hc =>
    obtain rfl := Option.some.inj ho
    exact ⟨_, rfl, rfl⟩
  | _ => cases ho

end assign

theorem ReadRecord.followAll (h : t.ReadRecord) (us : List (Talk P)) :
    (followAll us t).ReadRecord := by
  obtain ⟨o, he⟩ := followAll_eq us t
  rw [he]
  exact ⟨h.reader, h.going, h.ended⟩

end Talk

namespace Built

variable {talks : List (Talk P)} {t : Talk P}

theorem readRecord (hb : Built talks) (ht : t ∈ talks) : t.ReadRecord := by
  obtain ⟨i, hi⟩ := List.mem_iff_getElem?.mp ht
  obtain ⟨pools, now, args, rfl⟩ := hb.assigned i t hi
  exact (Talk.assign_readRecord pools now args).followAll _

theorem own (hb : Built talks) (hapart : Talk.Apart talks) (ht : t ∈ talks) :
    ∃ pools now, ∃ args : Talk.Args P,
      (∃ o, t = { (Talk.assign pools now args).1 with protocolWrite := o }) ∧
      t.writeId = (Talk.assign pools now args).1.writeId ∧
      (t.error = .kOk → t.writeId.isSome → t = (Talk.assign pools now args).1) := by
  obtain ⟨i, hi⟩ := List.mem_iff_getElem?.mp ht
  obtain ⟨pools, now, args, he⟩ := hb.assigned i t hi
  have hid : t.writeId = (Talk.assign pools now args).1.writeId := by
    rw [he, Talk.followAll_writeId]
  refine ⟨pools, now, args, he ▸ Talk.followAll_eq _ _, hid, fun herr hsome => ?_⟩
  obtain ⟨hlt, hget⟩ := List.getElem?_eq_some_iff.mp hi
  obtain ⟨w, hw⟩ := Option.isSome_iff_exists.mp hsome
  refine he.trans (Talk.followAll_of_ne fun u hu hsame => ?_)
  obtain ⟨j, hj⟩ := List.mem_iff_getElem?.mp hu
  rw [List.getElem?_drop] at hj
  obtain ⟨hlt', hget'⟩ := List.getElem?_eq_some_iff.mp hj
  have hpair := List.pairwise_iff_getElem.mp hapart i (i + 1 + j) hlt hlt' (by omega)
  rw [hget, hget'] at hpair
  exact hpair herr w hw (hsame.symm.trans (hid.symm.trans hw))

theorem writeRecord (hb : Built talks) (hapart : Talk.Apart talks) (ht : t ∈ talks) :
    t.WriteRecord := by
  obtain ⟨pools, now, args, ⟨o', he⟩, -, hown⟩ := hb.own hapart ht
  have hattempt : t.attempt = .fresh := by
    rw [he]
    exact Talk.assign_attempt pools now args
  apply Talk.writeRecord_fresh hattempt
  intro herr o ho
  have hwid : t.writeId = some o.id := by
    rw [Talk.writeId, ho]
    rfl
  have hassign := hown herr (by rw [hwid]; rfl)
  rw [hassign] at herr ho ⊢
  exact Talk.assign_request pools now args herr o ho

end Built

namespace AgentSlave

variable {A : Tolerance} {talks : List (Talk P)} {a : AgentSlave P} {t : Talk P}

theorem Inv.writeRecord (h : a.Inv A talks) (hA : ¬ A.shared) (hb : Built talks)
    (hapart : Talk.Apart talks) (ht : t ∈ a.session.talks) : t.WriteRecord := by
  obtain ⟨t₀, ht₀, -, hmoves⟩ := h.descends t ht
  exact hmoves.preserves (fun _ _ => .move hA) (hb.writeRecord hapart ht₀)

theorem Inv.readRecord (h : a.Inv A talks) (hb : Built talks) (ht : t ∈ a.session.talks) :
    t.ReadRecord := by
  obtain ⟨t₀, ht₀, -, hmoves⟩ := h.descends t ht
  exact hmoves.preserves (fun _ _ => .move) (hb.readRecord ht₀)

theorem Inv.passed_iff_completed (h : a.Inv A talks) (hA : ¬ A.shared) (hb : Built talks)
    (hapart : Talk.Apart talks) (ht : t ∈ a.session.talks) (hun : t.Unstale) :
    t.attempt.passed t.category = true ↔ t.Completed :=
  Talk.passed_iff_completed (h.writeRecord hA hb hapart ht) (h.readRecord hb ht) hun

def unshared : Tolerance := ⟨True, True, True, False⟩

theorem inv_exec_unshared {conf : ConfNormal} {ctxs : EventCtxPool} (hb : Built talks)
    (hapart : Talk.Apart talks) {ls : List Label}
    (hrun : (machine P conf).Admits (start ctxs talks) ls) :
    ((machine P conf).exec (start ctxs talks) ls).Inv unshared talks := by
  refine (machine P conf).invariant (I := Inv unshared talks) (fun a l h hl => ?_)
    (inv_start ctxs hb (fun t ht => ?_) (.inr hapart)) hrun
  · apply inv_next h hl
    cases l with
    | cleanTimeout env => exact ⟨.inl trivial, .inl trivial⟩
    | removeTimeouts fds => trivial
    | reset env => exact .inl trivial
    | ready fd event env => exact .inl trivial
  · obtain ⟨i, hi⟩ := List.mem_iff_getElem?.mp ht
    obtain ⟨pools, now, args, rfl⟩ := hb.assigned i t hi
    exact (Talk.assign_startable pools now args (.inl trivial) (.inl trivial)).followAll _

end AgentSlave

end Magneto
