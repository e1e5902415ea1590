import Magneto.IOHelper
import Magneto.Lib.ObjectPool

/-!
# Remotes, services, protocol objects and talks

The data of `model.h`, `error_no.h` and the virtual interface of `protocol.h`.
A protocol is any implementation of the two classes `ProtocolWrite` and
`ProtocolRead`; its calls report what they moved over the socket. Protocol
objects live in pools and carry an identity, so that a pointer kept after its
object was given back is visible in the model. A pool that was given an object
twice hands it to two talks; each holder has a copy, and whenever one of them
writes to the object the other copies follow.

A remote is passed around as a pointer: to an element of a service's remotes,
which never change, or into the scratch vector `tmp_remotes_` of the connections
manager, which is refilled.

A talk also records what happened on its connections. These history fields are
not part of the source and no function of the source reads them.
-/

namespace Magneto

inductive ErrorNo
  | kOk | kPartial | kTimeout | kIO | kBroken | kEncode | kDecode | kSwapCtx | kQueueBusy
  | kNotFound | kOther
  deriving DecidableEq, Repr

structure Addr where
  sAddr : ℕ
  sinPort : ℕ
  deriving DecidableEq, Repr

structure Remote where
  addr : Addr
  weight : ℕ
  longConns : ℕ
  ctimeoMs : ℤ
  rtimeoMs : ℤ
  wtimeoMs : ℤ
  deriving DecidableEq, Repr

/-- `Remote::EqRemote`: remotes are compared by address only. -/
def Remote.eqRemote (left right : Remote) : Bool := left.addr = right.addr

inductive ServiceStrategy
  | kNormal | kWeight | kInvalid
  deriving DecidableEq, Repr

namespace Protocol

inductive Category
  | kRapid | kPing | kRedis | kThrift | kHttp | kInvalid
  deriving DecidableEq, Repr

def kEnd : ℤ := -100

end Protocol

structure Service where
  no : ℕ
  name : String
  protocolCategory : Protocol.Category
  serviceStrategy : ServiceStrategy
  remotes : List Remote
  weightAll : ℕ
  retry : ℕ
  deriving DecidableEq, Repr

inductive RemoteRef
  | elem (service : Service) (i : ℕ)
  | tmp (i : ℕ)
  deriving DecidableEq, Repr

/-- The remote that the pointer denotes, given the contents of `tmp_remotes_`. -/
def RemoteRef.deref (tmpRemotes : List Remote) : RemoteRef → Option Remote
  | .elem service i => service.remotes[i]?
  | .tmp i => tmpRemotes[i]?

structure WriteCall (α : Type) where
  ret : ℤ
  writer : α
  put : List UInt8

structure ReadCall (α : Type) where
  ret : ℤ
  reader : α
  got : List UInt8

/-- The classes `ProtocolWrite` and `ProtocolRead`. -/
structure Protocols where
  Buf : Type
  Writer : Type
  Reader : Type
  newWriter : Protocol.Category → Writer
  newReader : Protocol.Category → Reader
  resetWriter : Writer → Buf → Writer
  encode : Writer → Bool × Writer
  write : Writer → IOHelper.SockOut → WriteCall Writer
  resetReader : Reader → Reader
  read : Reader → IOHelper.SockIn → ReadCall Reader
  decode : Reader → Bool × Reader

namespace Talk

inductive Category
  | kWriteOnly | kReadOnly | kWriteAndRead
  deriving DecidableEq, Repr

inductive Status
  | kStart | kConn | kRead | kWrite | kClose | kEnd
  deriving DecidableEq, Repr

/-- What has happened on the connection of one attempt: the socket's answers to the calls
of `Write` and `Read`, the bytes these moved, what the last of them returned. -/
structure Attempt where
  touched : Bool
  written : Bool
  decoded : Bool
  broken : Bool
  outs : List IOHelper.SockOut
  sent : List UInt8
  ins : List IOHelper.SockIn
  received : List UInt8
  deriving DecidableEq, Repr

def Attempt.fresh : Attempt := ⟨false, false, false, false, [], [], [], []⟩

/-- The last calls of `Write` and `Decode` that the category asks for succeeded. -/
def Attempt.passed (a : Attempt) : Category → Bool
  | .kWriteOnly => a.written
  | .kReadOnly => a.decoded
  | .kWriteAndRead => a.written && a.decoded

end Talk

abbrev WriterObj (P : Protocols) := PoolObj Protocol.Category P.Writer
abbrev ReaderObj (P : Protocols) := PoolObj Protocol.Category P.Reader

structure Talk (P : Protocols) where
  noTalk : ℕ
  category : Talk.Category
  service : Option Service
  buf : Option P.Buf
  protocolWrite : Option (WriterObj P)
  protocolRead : Option (ReaderObj P)
  starttimeMs : ℤ
  endtimeMs : ℤ
  status : Talk.Status
  error : ErrorNo
  failRemotes : List Remote
  retry : ℕ
  fd : ℤ
  remote : Option RemoteRef
  -- history: the attempt, the remote that `GetFd` selected for it, the abandoned attempts,
  -- whether the talk is counted as done, the writer as the talk last encoded it and the
  -- reader as the talk reset it
  attempt : Talk.Attempt
  peer : Option Remote
  past : List Talk.Attempt
  counted : Bool
  encoded : Option P.Writer
  readied : Option P.Reader

structure PoolProtocols (P : Protocols) where
  write : ObjectPool Protocol.Category P.Writer
  read : ObjectPool Protocol.Category P.Reader

namespace PoolProtocols

variable {P : Protocols}

def getWrite (pools : PoolProtocols P) (c : Protocol.Category) :
    WriterObj P × PoolProtocols P :=
  let r := pools.write.get c (P.newWriter c)
  (r.1, { pools with write := r.2 })

def getRead (pools : PoolProtocols P) (c : Protocol.Category) :
    ReaderObj P × PoolProtocols P :=
  let r := pools.read.get c (P.newReader c)
  (r.1, { pools with read := r.2 })

/-- The pools once a talk has written to the writer, which may be free at the same time. -/
def followWrite (pools : PoolProtocols P) (o : WriterObj P) : PoolProtocols P :=
  { pools with write := pools.write.follow o }

def freeWrite (pools : PoolProtocols P) (o : WriterObj P) : PoolProtocols P :=
  { pools with write := (pools.write.follow o).put o }

def freeRead (pools : PoolProtocols P) (o : ReaderObj P) : PoolProtocols P :=
  { pools with read := pools.read.put o }

end PoolProtocols

namespace Talk

variable {P : Protocols}

structure Args (P : Protocols) where
  noTalk : ℕ
  category : Category
  service : Option Service
  protocolCategory : Protocol.Category
  buf : Option P.Buf
  timeoMs : ℤ
  fd : ℤ
  remote : Option RemoteRef
  -- history: the remote that `fd` was opened to
  peer : Option Remote

def Args.init (a : Args P) (now : ℤ) : Talk P where
  noTalk := a.noTalk
  category := a.category
  service := a.service
  buf := a.buf
  protocolWrite := none
  protocolRead := none
  starttimeMs := now
  endtimeMs := now + a.timeoMs
  status := .kStart
  error := .kOk
  failRemotes := []
  retry := match a.service with
    | some service => service.retry
    | none => 0
  fd := a.fd
  remote := a.remote
  attempt := .fresh
  peer := a.peer
  past := []
  counted := false
  encoded := none
  readied := none

def remoteIn (tmpRemotes : List Remote) (t : Talk P) : Option Remote :=
  t.remote.bind (RemoteRef.deref tmpRemotes)

def writeId (t : Talk P) : Option ℕ := t.protocolWrite.map PoolObj.id

def readId (t : Talk P) : Option ℕ := t.protocolRead.map PoolObj.id

/-- A talk once another one, `u`, has written to its writer, which may be the same object. -/
def follow (u t : Talk P) : Talk P :=
  { t with protocolWrite := t.protocolWrite.map (u.protocolWrite.elim id PoolObj.follow) }

def followAll (us : List (Talk P)) (t : Talk P) : Talk P := us.foldl (fun t u => u.follow t) t

def encodeWriter (o : WriterObj P) (buf : P.Buf) : Bool × WriterObj P :=
  let e := P.encode (P.resetWriter o.val buf)
  (e.1, { o with val := e.2 })

/-- Take a writer, reset it with the buffer and encode. A failed encoding gives
the writer back and leaves the pointer to it in the talk. -/
def assignWrite (pools : PoolProtocols P) (c : Protocol.Category) (buf : P.Buf) (talk : Talk P) :
    Bool × Talk P × PoolProtocols P :=
  let o := pools.getWrite c
  let e := encodeWriter o.1 buf
  let talk := { talk with protocolWrite := some e.2, encoded := some e.2.val }
  if e.1 then (true, talk, o.2.followWrite e.2)
  else (false, { talk with fd := -1, error := .kEncode }, o.2.freeWrite e.2)

def resetReader (o : ReaderObj P) : ReaderObj P := { o with val := P.resetReader o.val }

def assignRead (pools : PoolProtocols P) (c : Protocol.Category) (talk : Talk P) :
    Talk P × PoolProtocols P :=
  let o := pools.getRead c
  ({ talk with
    protocolRead := some (resetReader o.1)
    readied := some (resetReader o.1).val }, o.2)

def assign (pools : PoolProtocols P) (now : ℤ) (a : Args P) : Talk P × PoolProtocols P :=
  match a.buf with
  | none => ({ a.init now with status := .kEnd }, pools)
  | some buf =>
    match a.category with
    | .kWriteAndRead =>
      match assignWrite pools a.protocolCategory buf (a.init now) with
      | (false, talk, pools) => (talk, pools)
      | (true, talk, pools) =>
        let r := assignRead pools a.protocolCategory talk
        ({ r.1 with status := .kWrite }, r.2)
    | .kWriteOnly =>
      match assignWrite pools a.protocolCategory buf (a.init now) with
      | (false, talk, pools) => (talk, pools)
      | (true, talk, pools) => ({ talk with status := .kWrite }, pools)
    | .kReadOnly =>
      let r := assignRead pools a.protocolCategory (a.init now)
      ({ r.1 with status := .kRead }, r.2)

inductive AssignCase (pools : PoolProtocols P) (now : ℤ) (a : Args P) :
    Talk P × PoolProtocols P → Prop
  | skipped (hb : a.buf = none) :
      AssignCase pools now a ({ a.init now with status := .kEnd }, pools)
  | unencoded (buf : P.Buf) (w : WriterObj P) (hb : a.buf = some buf)
      (hc : a.category ≠ .kReadOnly)
      (he : encodeWriter (pools.getWrite a.protocolCategory).1 buf = (false, w)) :
      AssignCase pools now a
        ({ a.init now with
            protocolWrite := some w, encoded := some w.val, fd := -1, error := .kEncode },
          (pools.getWrite a.protocolCategory).2.freeWrite w)
  | writeOnly (buf : P.Buf) (w : WriterObj P) (hb : a.buf = some buf)
      (hc : a.category = .kWriteOnly)
      (he : encodeWriter (pools.getWrite a.protocolCategory).1 buf = (true, w)) :
      AssignCase pools now a
        ({ a.init now with
            protocolWrite := some w, encoded := some w.val, status := .kWrite },
          (pools.getWrite a.protocolCategory).2.followWrite w)
  | writeAndRead (buf : P.Buf) (w : WriterObj P) (q : ReaderObj P × PoolProtocols P)
      (hb : a.buf = some buf) (hc : a.category = .kWriteAndRead)
      (he : encodeWriter (pools.getWrite a.protocolCategory).1 buf = (true, w))
      (hq : ((pools.getWrite a.protocolCategory).2.followWrite w).getRead a.protocolCategory =
        q) :
      AssignCase pools now a
        ({ a.init now with
            protocolWrite := some w, encoded := some w.val
            protocolRead := some (resetReader q.1), readied := some (resetReader q.1).val
            status := .kWrite },
          q.2)
  | readOnly (buf : P.Buf) (q : ReaderObj P × PoolProtocols P) (hb : a.buf = some buf)
      (hc : a.category = .kReadOnly) (hq : pools.getRead a.protocolCategory = q) :
      AssignCase pools now a
        ({ a.init now with
            protocolRead := some (resetReader q.1), readied := some (resetReader q.1).val
            status := .kRead }, q.2)

theorem assign_cases (pools : PoolProtocols P) (now : ℤ) (a : Args P) :
    AssignCase pools now a (assign pools now a) := by
  cases hb : a.buf with
  | none =>
    simp only [assign, hb]
    exact .skipped hb
  | some buf =>
    cases he : encodeWriter (pools.getWrite a.protocolCategory).1 buf with
    | mk ok w =>
    cases hc : a.category with
    | kReadOnly =>
      simp only [assign, hb, hc]
      exact .readOnly buf _ hb hc rfl
    | kWriteOnly =>
      simp only [assign, hb, hc, assignWrite, he]
      cases ok with
      | false => exact .unencoded buf w hb (by simp [hc]) he
      | true => exact .writeOnly buf w hb hc he
    | kWriteAndRead =>
      simp only [assign, hb, hc, assignWrite, he]
      cases ok with
      | false => exact .unencoded buf w hb (by simp [hc]) he
      | true => exact .writeAndRead buf w _ hb hc he rfl

theorem assign_buf (pools : PoolProtocols P) (now : ℤ) (a : Args P) :
    (assign pools now a).1.buf = a.buf := by
  have h := assign_cases pools now a
  generalize assign pools now a = r at h ⊢
  cases h <;> rfl

theorem assign_category (pools : PoolProtocols P) (now : ℤ) (a : Args P) :
    (assign pools now a).1.category = a.category := by
  have h := assign_cases pools now a
  generalize assign pools now a = r at h ⊢
  cases h <;> rfl

end Talk

end Magneto
