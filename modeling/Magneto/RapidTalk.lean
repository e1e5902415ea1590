import Magneto.SessionOutcome

/-!
# Rapid talks over several connections

`ResetTalk_` encodes the request again for a retry, but it does not reset the
reader. The reader of a talk therefore holds what all its attempts received,
and the message it exposes is the reply of the last attempt exactly when the
abandoned attempts received nothing. What the last attempt has sent is the
request exactly when `WriteVecNonBlock` sent it in order.
-/

namespace Magneto.Rapid

open AgentSlave (machine retriable start unexpired)
open IOHelper (SockIn SockOut)

def heard (t : Talk protocols) : List UInt8 :=
  (t.past.map Talk.Attempt.received).flatten ++ t.attempt.received

theorem heard_readTalk (t : Talk protocols) (o : ReaderObj protocols) (inp : SockIn) :
    heard (AgentSlave.readTalk t o inp) = heard t ++ (Reader.read o.val inp).got :=
  (List.append_assoc _ _ _).symm

theorem heard_decodeTalk (t : Talk protocols) (o : ReaderObj protocols)
    (d : Bool × protocols.Reader) : heard (AgentSlave.decodeTalk t o d) = heard t := rfl

/-- What the protocol objects of a talk know about its conversation. -/
structure Coherent (b : List UInt8) (t : Talk protocols) : Prop where
  reader : ∃ o : ReaderObj protocols, t.protocolRead = some o ∧ Holds (heard t) o.val ∧
    (t.attempt.decoded = true → parse (heard t) = some (Reader.data o.val))
  writer : t.error = .kOk → ∃ w : WriterObj protocols, t.protocolWrite = some w ∧
    Sending b t.attempt.outs t.attempt.sent w.val
  written : t.attempt.written = true →
    (t.attempt.sent = frame b ↔ SentInOrder b t.attempt.outs)
  buf : t.buf = some b

theorem Coherent.same {b : List UInt8} {t u : Talk protocols} (h : Coherent b t)
    (hs : Talk.Same t u) (he : u.error = .kOk → t.error = .kOk) : Coherent b u := by
  have hh : heard u = heard t := by rw [heard, hs.past, hs.attempt, heard]
  refine ⟨?_, ?_, ?_, hs.buf.trans h.buf⟩
  · rw [hs.protocolRead, hh, hs.attempt]
    exact h.reader
  · rw [hs.protocolWrite, hs.attempt]
    exact fun hu => h.writer (he hu)
  · rw [hs.attempt]
    exact h.written

theorem Coherent.retried {b : List UInt8} {t u : Talk protocols} (h : Coherent b t)
    (hsome : t.writeId.isSome) (hr : Talk.Retried t u) : Coherent b u := by
  have hh : heard u = heard t := by simp [heard, hr.past, hr.attempt, Talk.Attempt.fresh]
  obtain ⟨o, ho, hholds, -⟩ := h.reader
  refine ⟨⟨o, hr.protocolRead.trans ho, hh ▸ hholds, ?_⟩, fun he => ?_, ?_, hr.buf.trans h.buf⟩
  · simp [hr.attempt, Talk.Attempt.fresh]
  · -- a retry without an error code has encoded the same buffer again
    rcases hr.reencoded he with ⟨hnone, -⟩ | ⟨w, buf, -, hbuf, -, hw, -⟩
    · rw [Talk.writeId, hnone] at hsome
      cases hsome
    · obtain rfl : b = buf := Option.some.inj (h.buf.symm.trans hbuf)
      refine ⟨_, hw, ?_⟩
      rw [hr.attempt]
      exact sending_encode w.val b
  · simp [hr.attempt, Talk.Attempt.fresh]

theorem Coherent.write {b : List UInt8} {t : Talk protocols} (h : Coherent b t)
    (hsize : (frame b).length < 2 ^ 32) {o : WriterObj protocols} (out : SockOut)
    (ho : t.protocolWrite = some o) (he : t.error = .kOk) :
    Coherent b (AgentSlave.writeTalk t o out) := by
  obtain ⟨w, hw, hsend⟩ := h.writer he
  obtain rfl := Option.some.inj (ho.symm.trans hw)
  refine ⟨h.reader, fun _ => ⟨_, rfl, hsend.write out⟩, fun hwr => ?_, h.buf⟩
  have hret : (Writer.write o.val out).ret = 0 := of_decide_eq_true hwr
  exact (hsend.write out).sent_eq_iff (hsend.write_eq_zero hsize hret)

theorem Coherent.move {b : List UInt8} (hsize : (frame b).length < 2 ^ 32)
    {t u : Talk protocols} (hsome : t.writeId.isSome) (h : Coherent b t)
    (hm : Talk.Move unexpired t u) : Coherent b u := by
  cases hm with
  | same hs he => exact h.same hs he
  | shared v hv =>
    have herr : t.error ≠ .kOk := hv.resolve_left id
    exact ⟨h.reader, fun he => absurd he herr, h.written, h.buf⟩
  | retry hr => exact h.retried hsome hr
  | write out ho hw hb he => exact h.write hsize out ho he
  | read inp ho hd hb hr =>
    obtain ⟨o', ho', hholds, -⟩ := h.reader
    obtain rfl := Option.some.inj (ho.symm.trans ho')
    refine ⟨⟨_, rfl, ?_, fun hdec => ?_⟩, h.writer, h.written, h.buf⟩
    · rw [heard_readTalk]
      exact (read_spec hholds inp).holds
    · exact absurd hdec (by simp [AgentSlave.readTalk, hd])
  | decode inp ho hd hb hr =>
    obtain ⟨o', ho', hholds, -⟩ := h.reader
    obtain rfl := Option.some.inj (ho.symm.trans ho')
    have hspec := read_spec hholds inp
    obtain ⟨hread, hfull, hraw⟩ := hspec.whole hr
    obtain ⟨hnext, hparse⟩ := decode_spec hspec.holds hread hfull hraw
    refine ⟨⟨_, rfl, ?_, fun hdec => ?_⟩, h.writer, h.written, h.buf⟩
    · rw [heard_decodeTalk, heard_readTalk]
      exact hnext
    · rw [heard_decodeTalk, heard_readTalk]
      exact hparse.trans (if_pos hdec)

theorem coherent_assign (pools : PoolProtocols protocols) (now : ℤ) {args : Talk.Args protocols}
    {b : List UInt8} (hc : args.category = .kWriteAndRead) (hb : args.buf = some b) :
    Coherent b (Talk.assign pools now args).1 ∧ (Talk.assign pools now args).1.writeId.isSome := by
  have hcase := Talk.assign_cases pools now args
  generalize Talk.assign pools now args = r at hcase ⊢
  cases hcase with
  | writeAndRead buf w q hb' hc' he =>
    obtain rfl : b = buf := Option.some.inj (hb.symm.trans hb')
    refine ⟨⟨⟨_, rfl, holds_reset q.1.val, ?_⟩, fun _ => ⟨w, rfl, ?_⟩, ?_, hb⟩, rfl⟩
    · exact fun h => absurd h Bool.false_ne_true
    · obtain rfl := congrArg Prod.snd he
      exact sending_encode _ b
    · exact fun h => absurd h Bool.false_ne_true
  | unencoded buf w hb' hc' he =>
    -- the Rapid encoding never fails
    cases congrArg Prod.fst he
  | skipped hb' => rw [hb] at hb'; cases hb'
  | writeOnly buf w hb' hc' he => rw [hc] at hc'; cases hc'
  | readOnly buf q hb' hc' => rw [hc] at hc'; cases hc'

theorem coherent_built {talks : List (Talk protocols)} (hb : Built talks)
    (hapart : Talk.Apart talks) {t : Talk protocols} (ht : t ∈ talks) {b : List UInt8}
    (hc : t.category = .kWriteAndRead) (hbuf : t.buf = some b) :
    Coherent b t ∧ t.writeId.isSome := by
  obtain ⟨pools, now, args, ⟨o, he⟩, hid, hown⟩ := hb.own hapart ht
  have hargs : args.category = .kWriteAndRead ∧ args.buf = some b := by
    rw [he] at hc hbuf
    exact ⟨(Talk.assign_category pools now args).symm.trans hc,
      (Talk.assign_buf pools now args).symm.trans hbuf⟩
  obtain ⟨hassign, hsome⟩ := coherent_assign pools now hargs.1 hargs.2
  rw [← hid] at hsome
  refine ⟨?_, hsome⟩
  by_cases herr : t.error = .kOk
  · rw [hown herr hsome]
    exact hassign
  · rw [he] at herr ⊢
    exact ⟨hassign.reader, fun h => absurd h herr, hassign.written, hassign.buf⟩

/-- The reader exposes the frame received on the last connection alone, and this
connection was sent the whole encoded request. -/
def ExposesLastReply (b : protocols.Buf) (t : Talk protocols) : Prop :=
  t.attempt.sent = frame b ∧ (parse t.attempt.received).isSome ∧
    t.protocolRead.map (fun o : ReaderObj protocols => Reader.data o.val) =
      parse t.attempt.received

instance (b : protocols.Buf) (t : Talk protocols) : Decidable (ExposesLastReply b t) :=
  inferInstanceAs (Decidable (_ ∧ _ ∧ _))

theorem parse_length {bs data : List UInt8} (h : parse bs = some data) :
    bs.length = headerSize + data.length := by
  unfold parse at h
  split_ifs at h with hp
  rw [← Option.some.inj h, List.length_drop]
  omega

theorem heard_eq_received {t : Talk protocols} (h : ∀ a ∈ t.past, a.received = []) :
    heard t = t.attempt.received := by
  have hnil : (t.past.map Talk.Attempt.received).flatten = [] := by
    simpa [List.flatten_eq_nil_iff] using h
  rw [heard, hnil, List.nil_append]

theorem Coherent.exposes_iff {b : List UInt8} {t : Talk protocols} (h : Coherent b t)
    (hw : t.attempt.written = true) (hd : t.attempt.decoded = true) :
    ExposesLastReply b t ↔
      (∀ a ∈ t.past, a.received = []) ∧ SentInOrder b t.attempt.outs := by
  obtain ⟨o, ho, -, hparse⟩ := h.reader
  have hheard := hparse hd
  unfold ExposesLastReply
  rw [h.written hw, and_comm]
  apply and_congr_left
  intro _
  constructor
  · rintro ⟨hsome, hdata⟩
    rw [ho, Option.map_some] at hdata
    have hlast := parse_length hdata.symm
    have hall := parse_length hheard
    rw [heard, List.length_append] at hall
    have hnil : (t.past.map Talk.Attempt.received).flatten = [] :=
      List.length_eq_zero_iff.mp (by omega)
    simpa [List.flatten_eq_nil_iff] using hnil
  · intro hnil
    rw [heard_eq_received hnil] at hheard
    exact ⟨by simp [hheard], by rw [ho, hheard]; rfl⟩

/-- The connection breaks before a byte of the reply, and the second attempt is answered. -/
def cleanRetryRun : List AgentSlave.Label :=
  [.reset (connected 5 []), .ready 5 .kOut (connected 5 []), .ready 5 .kErr (connected 5 []),
    .ready 5 .kOut (connected 5 []), .ready 5 .kIn (connected 5 [.data (frame [9])])]

end Magneto.Rapid
