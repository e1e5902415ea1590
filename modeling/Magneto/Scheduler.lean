import Magneto.MPSCFixedPipeRun
import Magneto.PoolObjs

/-!
# The thread of a scheduler

`Process_` moves the mails of a scheduler into its task queue, runs some tasks, and starts again.
A mail is copied into an object from the pool of its category; the pools make objects of the base
class `Msg`, and the first `Get` of one replaces it by an object of the derived class. A task is
the run of a procedure between two calls of `swapcontext`; meanwhile, and between any two steps,
other threads send. An access that the source does not allow has no result.
-/

namespace Magneto

open Cells (read)

inductive MsgCategory
  | kInvalid
  | kConfig
  | kReadReq
  | kNewReq
  | kSession
  | kDestruct
  deriving DecidableEq, Repr

namespace MsgCategory

def code : MsgCategory → ℕ
  | kInvalid => 0
  | kConfig => 1
  | kReadReq => 2
  | kNewReq => 3
  | kSession => 4
  | kDestruct => 5

def ofCode : ℕ → Option MsgCategory
  | 0 => some kInvalid
  | 1 => some kConfig
  | 2 => some kReadReq
  | 3 => some kNewReq
  | 4 => some kSession
  | 5 => some kDestruct
  | _ => none

def sizeof : MsgCategory → ℕ
  | kInvalid => 8
  | kConfig => 8
  | kReadReq => 32
  | kNewReq => 32
  | kSession => 48
  | kDestruct => 288

end MsgCategory

/-- The class an object was made of, its field `category` and the bytes copied into it. -/
structure MsgObj where
  made : MsgCategory
  category : MsgCategory
  content : List UInt8
  deriving DecidableEq, Repr

namespace MsgObj

def new (category : MsgCategory) : MsgObj := ⟨category, category, []⟩

/-- `Copy` from a message of category `category` at `pos`; the cast follows the object's own. -/
def copy (obj : MsgObj) (category : MsgCategory) (mem : ℕ → UInt8) (pos : ℕ) : MsgObj :=
  if obj.category = .kInvalid then obj
  else { obj with category := category, content := read mem pos obj.category.sizeof }

end MsgObj

structure MsgRef where
  category : MsgCategory
  id : ℕ
  deriving DecidableEq, Repr

/-- Where `Process_` stands; `round` tells whether a mail was received. -/
inductive SchedulerPc
  | receive (round : Bool)
  | found
  | tasks (i : ℕ)
  | running (i : ℕ)
  deriving DecidableEq, Repr

namespace SchedulerPc

def roundOf : SchedulerPc → Option Bool
  | receive round => some round
  | _ => none

def taskOf : SchedulerPc → Option ℕ
  | tasks i => some i
  | _ => none

def runOf : SchedulerPc → Option ℕ
  | running i => some i
  | _ => none

theorem eq_receive {pc : SchedulerPc} {round : Bool} (h : pc.roundOf = some round) :
    pc = receive round := by
  cases pc <;> cases h
  rfl

theorem eq_tasks {pc : SchedulerPc} {i : ℕ} (h : pc.taskOf = some i) : pc = tasks i := by
  cases pc <;> cases h
  rfl

theorem eq_running {pc : SchedulerPc} {i : ℕ} (h : pc.runOf = some i) : pc = running i := by
  cases pc <;> cases h
  rfl

end SchedulerPc

structure Scheduler where
  mailbox : PipeRun
  pc : SchedulerPc
  taskQueue : List MsgRef
  poolMsgs : MsgCategory → PoolObjs
  msgs : MsgRef → MsgObj
  executed : List (List UInt8)
  fault : Bool

namespace Scheduler

def kMaxTaskProcessedOneTime : ℕ := 100

/-- The source makes the pools with the default arguments, 2 ^ 16 and 2 ^ 18. -/
def start (mailbox : MPSCFixedPipe) (memPerBlock maxNumBlocks : ℕ) : Scheduler :=
  ⟨.start mailbox, .receive false, [],
    fun _ => .new MsgCategory.kInvalid.sizeof memPerBlock maxNumBlocks, fun _ => .new .kInvalid,
    [], false⟩

def setPool (s : Scheduler) (c : MsgCategory) (pool : PoolObjs) : Scheduler :=
  { s with poolMsgs := Function.update s.poolMsgs c pool }

def setMsg (s : Scheduler) (ref : MsgRef) (obj : MsgObj) : Scheduler :=
  { s with msgs := Function.update s.msgs ref obj }

def categoryAt (mem : ℕ → UInt8) (pos : ℕ) : Option MsgCategory :=
  MsgCategory.ofCode (Word.leNat (read mem pos 4))

def receive (s : Scheduler) (round : Bool) : Scheduler :=
  let s := { s with mailbox := s.mailbox.next .receive }
  if s.mailbox.found then { s with pc := .found }
  else if !round && s.taskQueue.isEmpty then { s with pc := .receive false }
  else { s with pc := .tasks 0 }

/-- The object from the pool is of the class of the mail, or it is replaced by a new one. -/
def renew (s : Scheduler) (ref : MsgRef) : MsgRef × Scheduler :=
  if (s.msgs ref).category ≠ ref.category then
    let pool := s.poolMsgs ref.category
    let ref' : MsgRef := ⟨ref.category, pool.nextId⟩
    (ref', (s.setPool ref.category { pool with nextId := pool.nextId + 1 }).setMsg ref'
      (.new ref.category))
  else (ref, s)

def getMsg (s : Scheduler) (c : MsgCategory) : Option (MsgRef × Scheduler) :=
  (s.poolMsgs c).get.bind fun r => r.1.map fun id => (s.setPool c r.2).renew ⟨c, id⟩

def take (s : Scheduler) : Option Scheduler :=
  let mem := s.mailbox.pipe.pipe
  let pos := s.mailbox.pipe.receiverPace + MPSCFixedPipe.kMsgOffset
  (categoryAt mem pos).bind fun c => (s.getMsg c).map fun r =>
    let s := r.2.setMsg r.1 ((r.2.msgs r.1).copy c mem pos)
    { s with
      taskQueue := s.taskQueue ++ [r.1]
      mailbox := s.mailbox.next .consumed
      pc := .receive true }

def task (s : Scheduler) (i : ℕ) : Scheduler :=
  if i < kMaxTaskProcessedOneTime then
    match s.taskQueue with
    | ref :: _ =>
      { s with pc := .running i, executed := s.executed ++ [(s.msgs ref).content] }
    | [] => { s with pc := .receive false }
  else { s with pc := .receive false }

def finish (s : Scheduler) (i : ℕ) : Option Scheduler :=
  match s.taskQueue with
  | ref :: refs =>
    let category := (s.msgs ref).category
    ((s.poolMsgs category).free ref.id).map fun pool =>
      { s.setPool category pool with taskQueue := refs, pc := .tasks (i + 1) }
  | [] => none

inductive Label
  | send (msg : PipeMsg)
  | receive
  | take
  | task
  | finish
  deriving DecidableEq, Repr

def next (s : Scheduler) : Label → Scheduler
  | .send msg => { s with mailbox := s.mailbox.next (.send msg) }
  | .receive => s.pc.roundOf.elim s s.receive
  | .take => s.take.getD { s with fault := true }
  | .task => s.pc.taskOf.elim s s.task
  | .finish => s.pc.runOf.elim s fun i => (s.finish i).getD { s with fault := true }

def Built (msg : PipeMsg) : Prop :=
  ∃ c ∈ MsgCategory.ofCode (Word.leNat (msg.content.take 4)), c ≠ .kInvalid ∧
    msg.content.length = c.sizeof

instance (msg : PipeMsg) : Decidable (Built msg) :=
  inferInstanceAs (Decidable (∃ c ∈ MsgCategory.ofCode (Word.leNat (msg.content.take 4)),
    c ≠ .kInvalid ∧ msg.content.length = c.sizeof))

def places (s : Scheduler) : ℕ :=
  (s.poolMsgs .kInvalid).maxNumBlocks * (s.poolMsgs .kInvalid).numObjsPerBlock

def Enabled (s : Scheduler) : Label → Prop
  | .send msg => Built msg
  | .receive => s.pc.roundOf.isSome
  | .take => s.pc = .found ∧ s.taskQueue.length < s.places
  | .task => s.pc.taskOf.isSome
  | .finish => s.pc.runOf.isSome

instance (s : Scheduler) : ∀ l : Label, Decidable (s.Enabled l)
  | .send msg => inferInstanceAs (Decidable (Built msg))
  | .receive => inferInstanceAs (Decidable (_ = true))
  | .take => inferInstanceAs (Decidable (_ ∧ _))
  | .task => inferInstanceAs (Decidable (_ = true))
  | .finish => inferInstanceAs (Decidable (_ = true))

def machine : Machine Scheduler Label where
  enabled := Enabled
  next := next

instance (s : Scheduler) (l : Label) : Decidable (machine.enabled s l) :=
  inferInstanceAs (Decidable (s.Enabled l))

def waiting (s : Scheduler) : List MsgRef :=
  match s.pc with
  | .running _ => s.taskQueue.tail
  | _ => s.taskQueue

end Scheduler

end Magneto
