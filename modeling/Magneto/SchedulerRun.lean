import Magneto.Scheduler
import Magneto.PoolObjsRun

/-!
# Runs of a scheduler

Every run executes the accepted messages in their order and byte for byte. The task queue and the
pools never share an object, and `Copy` stays within the object it writes to.
-/

namespace Magneto

open Cells (read)

theorem MPSCFixedPipe.read_content {mem : ℕ → UInt8} {pos : ℕ} {msg : PipeMsg}
    (h : MPSCFixedPipe.msgAt mem pos = msg) :
    read mem (pos + MPSCFixedPipe.kMsgOffset) msg.content.length = msg.content := by
  have hcontent := congrArg PipeMsg.content h
  have hlen := congrArg List.length hcontent
  simp only [MPSCFixedPipe.msgAt, Cells.length_read] at hcontent hlen
  rw [← hlen]
  exact hcontent

namespace Scheduler

open PoolObjs (Grown)

variable {fresh : ℕ → UInt8} {m : MPSCFixedPipe} {s s' : Scheduler} {c : MsgCategory}
  {pool : PoolObjs} {held : List ℕ} {n id : ℕ}

structure PoolOk (n : ℕ) (pool : PoolObjs) (held : List ℕ) : Prop where
  places : pool.maxNumBlocks * pool.numObjsPerBlock = n
  stack : ∃ returned rest, PoolObjsRun.Inv ⟨pool, held, returned, returned ++ held, false⟩ rest

namespace PoolOk

theorem of_grown {pool' : PoolObjs} {k : ℕ} (h : PoolOk n pool held) (hg : pool.Grown pool' k) :
    pool'.maxNumBlocks * pool'.numObjsPerBlock = n := by
  rw [hg.most, hg.perBlock, h.places]

theorem nodup (h : PoolOk n pool held) : held.Nodup := by
  obtain ⟨returned, rest, hinv⟩ := h.stack
  exact hinv.distinct.of_append_right.of_append_right

theorem get (h : PoolOk n pool held) (hroom : held.length < n) :
    ∃ id pool', pool.get = some (some id, pool') ∧ PoolOk n pool' (id :: held) := by
  obtain ⟨returned, rest, hinv⟩ := h.stack
  obtain ⟨id, pool', k, hget, hgrown, -, hnext⟩ := hinv.get
  have hplaces := h.places
  obtain ⟨rest', hinv', -⟩ := hnext (show held.length < pool.maxNumBlocks * pool.numObjsPerBlock by
    rw [hplaces]
    exact hroom)
  exact ⟨id, pool', hget, h.of_grown hgrown, returned.tail, rest',
    { hinv' with given := fun _ => Iff.rfl }⟩

theorem renew (h : PoolOk n pool (id :: held)) :
    PoolOk n { pool with nextId := pool.nextId + 1 } (pool.nextId :: held) := by
  obtain ⟨returned, rest, hinv⟩ := h.stack
  have hmade := hinv.made
  have hdistinct := hinv.distinct
  have hfresh : ∀ l : List ℕ, (∀ o ∈ l, o < pool.nextId) → pool.nextId ∉ l := by
    intro l hl hin
    exact Nat.lt_irrefl _ (hl _ hin)
  have hperm : ∀ o, (rest ++ (returned ++ o :: held)).Perm (o :: (rest ++ (returned ++ held))) := by
    intro o
    exact (List.perm_middle.append_left rest).trans List.perm_middle
  have hlt : ∀ o ∈ rest ++ (returned ++ held), o < pool.nextId := fun o ho =>
    hmade o ((hperm id).mem_iff.mpr (List.mem_cons_of_mem _ ho))
  refine ⟨h.places, returned, rest, hinv.running, { hinv.stack with }, hinv.started, ?_, ?_,
    fun _ => Iff.rfl, hinv.fits⟩
  · refine (hperm _).nodup_iff.mpr (List.nodup_cons.mpr ⟨hfresh _ hlt, ?_⟩)
    exact (List.nodup_cons.mp ((hperm id).nodup_iff.mp hdistinct)).2
  · intro o ho
    obtain rfl | hin := List.mem_cons.mp ((hperm _).mem_iff.mp ho)
    · exact Nat.lt_succ_self _
    · exact Nat.lt_succ_of_lt (hlt o hin)

theorem free (h : PoolOk n pool held) (hmem : id ∈ held) :
    ∃ pool', pool.free id = some pool' ∧ PoolOk n pool' (held.erase id) := by
  obtain ⟨returned, rest, hinv⟩ := h.stack
  obtain ⟨pool', k, hfree, hgrown, hinv', -⟩ := hinv.free hmem
  exact ⟨pool', hfree, h.of_grown hgrown, id :: returned, rest,
    { hinv' with given := fun _ => Iff.rfl }⟩

theorem perm {held' : List ℕ} (h : PoolOk n pool held) (hp : held.Perm held') :
    PoolOk n pool held' := by
  obtain ⟨returned, rest, hinv⟩ := h.stack
  have hall : (rest ++ (returned ++ held)).Perm (rest ++ (returned ++ held')) :=
    (hp.append_left returned).append_left rest
  have hfits := hinv.fits
  rw [hp.length_eq] at hfits
  exact ⟨h.places, returned, rest, hinv.running, hinv.stack, hinv.started,
    hall.nodup_iff.mp hinv.distinct, fun o ho => hinv.made o (hall.mem_iff.mpr ho),
    fun _ => Iff.rfl, hfits⟩

end PoolOk

def idsOf (refs : List MsgRef) (c : MsgCategory) : List ℕ :=
  (refs.filter fun ref => ref.category = c).map MsgRef.id

theorem mem_idsOf {refs : List MsgRef} : id ∈ idsOf refs c ↔ (⟨c, id⟩ : MsgRef) ∈ refs := by
  simp only [idsOf, List.mem_map, List.mem_filter, decide_eq_true_eq]
  constructor
  · rintro ⟨⟨c', id'⟩, ⟨hmem, rfl⟩, rfl⟩
    exact hmem
  · intro hmem
    exact ⟨⟨c, id⟩, ⟨hmem, rfl⟩, rfl⟩

theorem idsOf_append (refs refs' : List MsgRef) :
    idsOf (refs ++ refs') c = idsOf refs c ++ idsOf refs' c := by
  rw [idsOf, List.filter_append, List.map_append, ← idsOf, ← idsOf]

theorem idsOf_cons_self (id : ℕ) (refs : List MsgRef) :
    idsOf (⟨c, id⟩ :: refs) c = id :: idsOf refs c := by
  simp [idsOf]

theorem idsOf_cons_of_ne {ref : MsgRef} (h : ref.category ≠ c) (refs : List MsgRef) :
    idsOf (ref :: refs) c = idsOf refs c := by
  simp [idsOf, h]

structure IsMsg (ref : MsgRef) (obj : MsgObj) : Prop where
  made : obj.made = ref.category
  category : obj.category = ref.category
  size : obj.content.length = obj.made.sizeof
  field : MsgCategory.ofCode (Word.leNat (obj.content.take 4)) = some obj.category

structure Inv (fresh : ℕ → UInt8) (m : MPSCFixedPipe) (n : ℕ) (s : Scheduler) : Prop where
  running : s.fault = false
  mailbox : PipeRun.Inv fresh m s.mailbox
  found : s.pc = .found → s.mailbox.found = true
  built : ∀ msg ∈ s.mailbox.accepted, Built msg
  pools : ∀ c, PoolOk n (s.poolMsgs c) (idsOf s.taskQueue c)
  classes : ∀ ref, (s.msgs ref).made = (s.msgs ref).category ∧
    ((s.msgs ref).category = .kInvalid ∨ (s.msgs ref).category = ref.category)
  tasks : ∀ ref ∈ s.taskQueue, IsMsg ref (s.msgs ref)
  order : s.executed ++ s.waiting.map (fun ref => (s.msgs ref).content) =
    s.mailbox.received.map PipeMsg.content
  front : ∀ i, s.pc = .running i → ∃ ref refs, s.taskQueue = ref :: refs ∧
    s.executed.getLast? = some (s.msgs ref).content

theorem waiting_of_ne (h : s.pc.runOf = none) : s.waiting = s.taskQueue := by
  unfold waiting
  split
  · rename_i i hpc
    rw [hpc] at h
    cases h
  · rfl

theorem send_mailbox (p : PipeRun) (msg : PipeMsg) :
    (p.next (.send msg)).received = p.received ∧ (p.next (.send msg)).found = p.found ∧
      ∀ x ∈ (p.next (.send msg)).accepted, x ∈ p.accepted ∨ x = msg := by
  unfold PipeRun.next
  dsimp only
  split
  · rename_i ok notify pipe hsend
    refine ⟨rfl, rfl, fun x hx => ?_⟩
    dsimp only at hx
    split_ifs at hx
    · exact (List.mem_append.mp hx).imp_right List.mem_singleton.mp
    · exact .inl hx
  · exact ⟨rfl, rfl, fun _ => .inl⟩

namespace Inv

theorem getMsg (h : Inv fresh m n s) (c : MsgCategory) (hroom : s.taskQueue.length < n) :
    ∃ ref pool msgs, s.getMsg c = some (ref, { s.setPool c pool with msgs := msgs }) ∧
      ref.category = c ∧ ref ∉ s.taskQueue ∧ PoolOk n pool (ref.id :: idsOf s.taskQueue c) ∧
        (msgs ref).made = c ∧ (msgs ref).category = c ∧ ∀ r, r ≠ ref → msgs r = s.msgs r := by
  have hlen : (idsOf s.taskQueue c).length ≤ s.taskQueue.length := by
    rw [idsOf, List.length_map]
    exact List.length_filter_le _ _
  obtain ⟨id, pool, hget, hpool⟩ := (h.pools c).get (Nat.lt_of_le_of_lt hlen hroom)
  have hnew : ∀ {id : ℕ} {pool : PoolObjs}, PoolOk n pool (id :: idsOf s.taskQueue c) →
      (⟨c, id⟩ : MsgRef) ∉ s.taskQueue := fun hp hin =>
    (List.nodup_cons.mp hp.nodup).1 (mem_idsOf.mpr hin)
  have hmade := (h.classes ⟨c, id⟩).1
  have hsame : (s.setPool c pool).msgs = s.msgs := rfl
  simp only [Scheduler.getMsg, hget, Option.bind_some, Option.map_some, renew, hsame]
  by_cases hc : (s.msgs ⟨c, id⟩).category = c
  · rw [if_neg (by rw [not_not]; exact hc)]
    exact ⟨⟨c, id⟩, pool, s.msgs, rfl, rfl, hnew hpool, hpool, hmade.trans hc, hc, fun _ _ => rfl⟩
  · rw [if_pos hc]
    have hself : (s.setPool c pool).poolMsgs c = pool := Function.update_self _ _ _
    rw [hself]
    refine ⟨⟨c, pool.nextId⟩, { pool with nextId := pool.nextId + 1 },
      Function.update s.msgs ⟨c, pool.nextId⟩ (.new c), ?_, rfl, hnew hpool.renew, hpool.renew, ?_,
      ?_, fun r hr => Function.update_of_ne hr _ _⟩
    · simp only [setPool, setMsg, Function.update_idem]
    · rw [Function.update_self]
      rfl
    · rw [Function.update_self]
      rfl

theorem take_eq (h : Inv fresh m n s) (hpc : s.pc = .found) (hroom : s.taskQueue.length < n) :
    ∃ msg ref pool msgs, s.next .take = { s with
        mailbox := s.mailbox.next .consumed
        pc := .receive true
        taskQueue := s.taskQueue ++ [ref]
        poolMsgs := Function.update s.poolMsgs ref.category pool
        msgs := msgs } ∧
      (s.mailbox.next .consumed).received = s.mailbox.received ++ [msg] ∧
      s.mailbox.received.length < s.mailbox.accepted.length ∧ ref ∉ s.taskQueue ∧
      PoolOk n pool (ref.id :: idsOf s.taskQueue ref.category) ∧ IsMsg ref (msgs ref) ∧
      (msgs ref).content = msg.content ∧ ∀ r, r ≠ ref → msgs r = s.msgs r := by
  obtain ⟨msg, rest, back, hsound, hacc, hmsg⟩ := h.mailbox.found (h.found hpc)
  obtain ⟨c, hc, hvalid, hsize⟩ := h.built msg (by
    rw [hacc]
    exact List.mem_append_right _ List.mem_cons_self)
  have hcontent := MPSCFixedPipe.read_content hmsg
  have hcategory : categoryAt s.mailbox.pipe.pipe
      (s.mailbox.pipe.receiverPace + MPSCFixedPipe.kMsgOffset) = some c := by
    rw [← hcontent, Cells.take_read] at hc
    · exact hc
    · rw [hsize]
      cases c <;> decide
  obtain ⟨ref, pool, msgs, hget, rfl, hnot, hpool, hmade, hcat, hother⟩ := h.getMsg c hroom
  have hcopy : (msgs ref).copy ref.category s.mailbox.pipe.pipe
      (s.mailbox.pipe.receiverPace + MPSCFixedPipe.kMsgOffset) =
        ⟨ref.category, ref.category, msg.content⟩ := by
    rw [MsgObj.copy, hcat, if_neg hvalid, ← hsize, hcontent, hmade]
  have hself : Function.update msgs ref ⟨ref.category, ref.category, msg.content⟩ ref =
      ⟨ref.category, ref.category, msg.content⟩ := Function.update_self _ _ _
  refine ⟨msg, ref, pool, Function.update msgs ref ⟨ref.category, ref.category, msg.content⟩,
    ?_, ?_, ?_, hnot, hpool, ?_, ?_, fun r hr => (Function.update_of_ne hr _ _).trans (hother r hr)⟩
  · simp only [Scheduler.next, Scheduler.take, hcategory, Option.bind_some, hget, Option.map_some,
      Option.getD_some, hcopy]
    rfl
  · change s.mailbox.received ++ [_] = _
    rw [hmsg]
  · rw [hacc, List.length_append, List.length_cons]
    omega
  · rw [hself]
    exact ⟨rfl, rfl, hsize, hc⟩
  · rw [hself]

theorem take (h : Inv fresh m n s) (hpc : s.pc = .found) (hroom : s.taskQueue.length < n) :
    Inv fresh m n (s.next .take) := by
  obtain ⟨msg, ref, pool, msgs, hnext, hreceived, -, hnot, hpool, hmsg, hcontent, hother⟩ :=
    h.take_eq hpc hroom
  have hqueue : ∀ r ∈ s.taskQueue, msgs r = s.msgs r := by
    intro r hr
    refine hother r ?_
    rintro rfl
    exact hnot hr
  have horder := h.order
  rw [waiting_of_ne (by rw [hpc]; rfl)] at horder
  rw [hnext]
  constructor
  case running => exact h.running
  case mailbox => exact h.mailbox.next (l := .consumed) (h.found hpc)
  case found => exact (nomatch ·)
  case built => exact h.built
  case pools =>
    intro c
    dsimp only
    rw [idsOf_append]
    by_cases hc : ref.category = c
    · obtain ⟨c', id⟩ := ref
      obtain rfl : c' = c := hc
      rw [Function.update_self, idsOf_cons_self]
      exact hpool.perm (List.perm_append_singleton _ _).symm
    · rw [Function.update_of_ne (Ne.symm hc), idsOf_cons_of_ne hc]
      exact (List.append_nil (idsOf s.taskQueue c)).symm ▸ h.pools c
  case classes =>
    intro r
    by_cases hr : r = ref
    · rw [hr]
      exact ⟨hmsg.made.trans hmsg.category.symm, .inr hmsg.category⟩
    · dsimp only
      rw [hother r hr]
      exact h.classes r
  case tasks =>
    intro r hr
    obtain hr | hr := List.mem_append.mp hr
    · dsimp only
      rw [hqueue r hr]
      exact h.tasks r hr
    · obtain rfl := List.mem_singleton.mp hr
      exact hmsg
  case order =>
    have hmap : s.taskQueue.map (fun r => (msgs r).content) =
        s.taskQueue.map fun r => (s.msgs r).content :=
      List.map_congr_left fun r hr => congrArg MsgObj.content (hqueue r hr)
    change s.executed ++ (s.taskQueue ++ [ref]).map (fun r => (msgs r).content) = _
    rw [hreceived, List.map_append, List.map_append, ← horder, List.append_assoc, hmap,
      List.map_singleton, List.map_singleton, hcontent]
  case front => exact fun _ hi => (nomatch hi)

theorem ofMailbox (h : Inv fresh m n s) {mailbox : PipeRun} {pc : SchedulerPc}
    (hm : PipeRun.Inv fresh m mailbox) (hreceived : mailbox.received = s.mailbox.received)
    (hbuilt : ∀ msg ∈ mailbox.accepted, Built msg) (hpc : pc = s.pc ∨ s.pc.runOf = none ∧
      pc.runOf = none) (hfound : pc = .found → mailbox.found = true) :
    Inv fresh m n { s with mailbox := mailbox, pc := pc } := by
  have hwaiting : ({ s with mailbox := mailbox, pc := pc } : Scheduler).waiting = s.waiting := by
    obtain rfl | ⟨hs, hp⟩ := hpc
    · rfl
    · rw [waiting_of_ne hs, waiting_of_ne hp]
  refine ⟨h.running, hm, hfound, hbuilt, h.pools, h.classes, h.tasks, ?_, fun i hi => ?_⟩
  · rw [hwaiting]
    exact h.order.trans (congrArg _ hreceived.symm)
  · obtain rfl | ⟨-, hp⟩ := hpc
    · exact h.front i hi
    · have hi' : pc = .running i := hi
      rw [hi'] at hp
      cases hp

theorem send (h : Inv fresh m n s) {msg : PipeMsg} (hb : Built msg) :
    Inv fresh m n (s.next (.send msg)) := by
  obtain ⟨hreceived, hfound, haccepted⟩ := send_mailbox s.mailbox msg
  refine h.ofMailbox (h.mailbox.next (l := .send msg) trivial) hreceived (fun x hx => ?_) (.inl rfl)
    fun hpc => hfound.trans (h.found hpc)
  obtain hx | rfl := haccepted x hx
  · exact h.built x hx
  · exact hb

theorem receive (h : Inv fresh m n s) {round : Bool} (hpc : s.pc = .receive round) :
    Inv fresh m n (s.receive round) := by
  have hm := h.mailbox.next (l := .receive) trivial
  have hrun : s.pc.runOf = none := by rw [hpc]; rfl
  unfold Scheduler.receive
  dsimp only
  split_ifs with hf
  · exact h.ofMailbox hm rfl h.built (.inr ⟨hrun, rfl⟩) fun _ => hf
  · exact h.ofMailbox hm rfl h.built (.inr ⟨hrun, rfl⟩) (nomatch ·)
  · exact h.ofMailbox hm rfl h.built (.inr ⟨hrun, rfl⟩) (nomatch ·)

theorem task (h : Inv fresh m n s) {i : ℕ} (hpc : s.pc = .tasks i) : Inv fresh m n (s.task i) := by
  have hrun : s.pc.runOf = none := by rw [hpc]; rfl
  have hstop : Inv fresh m n { s with pc := .receive false } :=
    h.ofMailbox h.mailbox rfl h.built (.inr ⟨hrun, rfl⟩) (nomatch ·)
  have horder := h.order
  rw [waiting_of_ne hrun] at horder
  unfold Scheduler.task
  split_ifs
  · split
    · rename_i ref refs hq
      refine ⟨h.running, h.mailbox, (nomatch ·), h.built, h.pools, h.classes, h.tasks, ?_,
        fun _ _ => ⟨ref, refs, hq, List.getLast?_concat⟩⟩
      rw [← horder, hq]
      simp only [waiting, List.tail_cons, List.append_assoc, List.singleton_append,
        List.map_cons]
    · exact hstop
  · exact hstop

theorem finish (h : Inv fresh m n s) {i : ℕ} (hpc : s.pc = .running i) :
    ∃ s', s.finish i = some s' ∧ Inv fresh m n s' ∧ s'.pc = .tasks (i + 1) ∧
      s'.taskQueue = s.taskQueue.tail ∧ s'.executed = s.executed ∧ s'.mailbox = s.mailbox := by
  obtain ⟨ref, refs, hq, -⟩ := h.front i hpc
  have hmsg := h.tasks ref (hq ▸ List.mem_cons_self)
  obtain ⟨c, id⟩ := ref
  have hpool := h.pools c
  rw [hq, idsOf_cons_self] at hpool
  obtain ⟨pool, hfree, hpool'⟩ := hpool.free List.mem_cons_self
  rw [List.erase_cons_head] at hpool'
  have horder := h.order
  have hwaiting : s.waiting = refs := by rw [waiting, hpc, hq]; rfl
  rw [hwaiting] at horder
  refine ⟨{ s.setPool c pool with taskQueue := refs, pc := .tasks (i + 1) }, ?_, ?_, rfl, ?_, rfl,
    rfl⟩
  · rw [Scheduler.finish, hq]
    dsimp only
    rw [hmsg.category, hfree]
    rfl
  · refine ⟨h.running, h.mailbox, (nomatch ·), h.built, fun c' => ?_, h.classes,
      fun r hr => h.tasks r (hq ▸ List.mem_cons_of_mem _ hr), horder, fun _ hi => (nomatch hi)⟩
    change PoolOk n (Function.update s.poolMsgs c pool c') (idsOf refs c')
    by_cases hc : c' = c
    · rw [hc, Function.update_self]
      exact hpool'
    · have hrest := h.pools c'
      rw [hq, idsOf_cons_of_ne (Ne.symm hc)] at hrest
      rwa [Function.update_of_ne hc]
  · rw [hq]
    rfl

theorem places_eq (h : Inv fresh m n s) : s.places = n := (h.pools .kInvalid).places

theorem next (h : Inv fresh m n s) {l : Label} (hl : s.Enabled l) : Inv fresh m n (s.next l) := by
  cases l with
  | send msg => exact h.send hl
  | receive =>
    obtain ⟨round, hround⟩ := Option.isSome_iff_exists.mp hl
    simp only [Scheduler.next, hround, Option.elim_some]
    exact h.receive (SchedulerPc.eq_receive hround)
  | take => exact h.take hl.1 (h.places_eq ▸ hl.2)
  | task =>
    obtain ⟨i, hi⟩ := Option.isSome_iff_exists.mp hl
    simp only [Scheduler.next, hi, Option.elim_some]
    exact h.task (SchedulerPc.eq_tasks hi)
  | finish =>
    obtain ⟨i, hi⟩ := Option.isSome_iff_exists.mp hl
    obtain ⟨s', hs', h', -⟩ := h.finish (SchedulerPc.eq_running hi)
    simp only [Scheduler.next, hi, Option.elim_some, hs', Option.getD_some]
    exact h'

theorem received_length (h : Inv fresh m n s) :
    s.mailbox.received.length = s.executed.length + s.waiting.length := by
  have hlen := congrArg List.length h.order
  rw [List.length_append, List.length_map, List.length_map] at hlen
  exact hlen.symm

theorem executed_of_all (h : Inv fresh m n s) (hw : s.waiting = [])
    (hall : s.mailbox.accepted.length ≤ s.mailbox.received.length) :
    s.executed = s.mailbox.accepted.map PipeMsg.content := by
  have horder := h.order
  rw [hw, List.map_nil, List.append_nil] at horder
  rw [horder, h.mailbox.isQueue.fifo.eq_of_length_le hall]

theorem all_of_not_found (h : Inv fresh m n s)
    (hf : (s.mailbox.next .receive).found ≠ true) :
    s.mailbox.accepted.length ≤ s.mailbox.received.length := by
  have hnext := h.mailbox.isQueue.next
  have hnone : s.mailbox.pipe.receiveMsg.1 = none := by
    rw [← Option.not_isSome_iff_eq_none]
    exact hf
  rw [hnone, Option.map_none] at hnext
  exact List.drop_eq_nil_iff.mp (List.head?_eq_none_iff.mp hnext.symm)

end Inv

def Label.own : Label → Prop
  | .send _ => False
  | _ => True

def phase (s : Scheduler) : ℕ :=
  match s.pc with
  | .receive _ => 1
  | .tasks i => if i < kMaxTaskProcessedOneTime ∧ s.taskQueue ≠ [] then 0 else 2
  | _ => 0

theorem phase_le (s : Scheduler) : s.phase ≤ 2 := by
  unfold phase
  split
  · exact Nat.le_succ 1
  · split_ifs
    · exact Nat.zero_le 2
    · exact Nat.le_refl 2
  · exact Nat.zero_le 2

def work (s : Scheduler) : ℕ :=
  9 * (s.mailbox.accepted.length - s.mailbox.received.length) +
    3 * (s.waiting.length + s.taskQueue.length) + s.phase

structure LessLeft (s s' : Scheduler) : Prop where
  work : s'.work < s.work
  accepted : s'.mailbox.accepted = s.mailbox.accepted
  executed : s.executed.length ≤ s'.executed.length

namespace Inv

theorem receive_less (h : Inv fresh m n s) (hleft : s.executed ≠ s.mailbox.accepted.map (·.content))
    {round : Bool} (hpc : s.pc = .receive round) : LessLeft s (s.receive round) := by
  have hreceived := h.received_length
  have hwaiting := waiting_of_ne (s := s) (by rw [hpc]; rfl)
  have hphase : s.phase = 1 := by rw [phase, hpc]
  by_cases hf : (s.mailbox.next .receive).found = true
  · have hreceive : s.receive round =
        { s with mailbox := s.mailbox.next .receive, pc := .found } := if_pos hf
    rw [hreceive]
    refine ⟨?_, rfl, Nat.le_refl _⟩
    rw [work, work, hphase, hwaiting]
    simp only [PipeRun.next, phase, waiting]
    omega
  · have hall := h.all_of_not_found hf
    have hsome : s.taskQueue ≠ [] := fun hq =>
      hleft (h.executed_of_all (hwaiting.trans hq) hall)
    have hreceive : s.receive round =
        { s with mailbox := s.mailbox.next .receive, pc := .tasks 0 } := by
      simp only [Scheduler.receive]
      rw [if_neg hf, if_neg (by simp [hsome])]
    rw [hreceive]
    refine ⟨?_, rfl, Nat.le_refl _⟩
    have hgo : 0 < kMaxTaskProcessedOneTime ∧ s.taskQueue ≠ [] := ⟨by decide, hsome⟩
    rw [work, work, hphase, hwaiting]
    simp only [PipeRun.next, phase, waiting]
    rw [if_pos hgo]
    omega

theorem room_of_found (h : Inv fresh m n s) (hpc : s.pc = .found)
    (hroom : s.mailbox.accepted.length ≤ s.executed.length + n) : s.taskQueue.length < n := by
  have hreceived := h.received_length
  have hwaiting := waiting_of_ne (s := s) (by rw [hpc]; rfl)
  obtain ⟨msg, rest, back, -, hacc, -⟩ := h.mailbox.found (h.found hpc)
  have hlen := congrArg List.length hacc
  rw [List.length_append, List.length_cons] at hlen
  rw [hwaiting] at hreceived
  omega

theorem take_less (h : Inv fresh m n s) (hpc : s.pc = .found) (hlt : s.taskQueue.length < n) :
    LessLeft s (s.next .take) := by
  have hreceived := h.received_length
  have hwaiting := waiting_of_ne (s := s) (by rw [hpc]; rfl)
  obtain ⟨msg', rest, back, -, hacc', -⟩ := h.mailbox.found (h.found hpc)
  have hlen := congrArg List.length hacc'
  rw [List.length_append, List.length_cons] at hlen
  obtain ⟨msg, ref, pool, msgs, hnext, hrec, hmore, -⟩ := h.take_eq hpc hlt
  rw [hnext]
  refine ⟨?_, rfl, Nat.le_refl _⟩
  have hphase : s.phase = 0 := by rw [phase, hpc]
  have hacc : (s.mailbox.next .consumed).accepted = s.mailbox.accepted := rfl
  rw [work, work, hphase, hwaiting]
  simp only [phase, waiting, hrec, hacc, List.length_append, List.length_singleton]
  omega

theorem task_less {i : ℕ} (hpc : s.pc = .tasks i) : LessLeft s (s.task i) := by
  have hwaiting := waiting_of_ne (s := s) (by rw [hpc]; rfl)
  by_cases hgo : i < kMaxTaskProcessedOneTime ∧ s.taskQueue ≠ []
  · obtain ⟨ref, refs, hq⟩ := List.exists_cons_of_ne_nil hgo.2
    have htask : s.task i =
        { s with pc := .running i, executed := s.executed ++ [(s.msgs ref).content] } := by
      rw [Scheduler.task, if_pos hgo.1, hq]
    have hphase : s.phase = 0 := by rw [phase, hpc]; exact if_pos hgo
    rw [htask]
    refine ⟨?_, rfl, by simp⟩
    rw [work, work, hphase, hwaiting]
    simp only [phase, waiting, hq, List.tail_cons, List.length_cons]
    omega
  · have htask : s.task i = { s with pc := .receive false } := by
      unfold Scheduler.task
      split_ifs with hi
      · split
        · rename_i ref refs hq
          exact absurd ⟨hi, by simp [hq]⟩ hgo
        · rfl
      · rfl
    have hphase : s.phase = 2 := by rw [phase, hpc]; exact if_neg hgo
    rw [htask]
    refine ⟨?_, rfl, Nat.le_refl _⟩
    rw [work, work, hphase, hwaiting]
    simp only [phase, waiting]
    omega

theorem finish_less (h : Inv fresh m n s) {i : ℕ} (hpc : s.pc = .running i) :
    LessLeft s (s.next .finish) := by
  obtain ⟨s', hs', -, hpc', hq', hex, hmail⟩ := h.finish hpc
  have hnext : s.next .finish = s' := by
    simp only [Scheduler.next, hpc, SchedulerPc.runOf, Option.elim_some, hs', Option.getD_some]
  obtain ⟨ref, refs, hq, -⟩ := h.front i hpc
  have hphase : s.phase = 0 := by rw [phase, hpc]
  have hwaiting : s.waiting = refs := by rw [waiting, hpc, hq]; rfl
  have hwaiting' : s'.waiting = refs := by
    rw [waiting_of_ne (by rw [hpc']; rfl), hq', hq, List.tail_cons]
  have hle := s'.phase_le
  rw [hnext]
  refine ⟨?_, by rw [hmail], by rw [hex]⟩
  rw [work, work, hphase, hwaiting, hwaiting', hmail, hq', hq, List.tail_cons, List.length_cons]
  omega

/-- While messages are left, the scheduler has a step that leaves less to do. -/
theorem progress (h : Inv fresh m n s) (hleft : s.executed ≠ s.mailbox.accepted.map (·.content))
    (hroom : s.mailbox.accepted.length ≤ s.executed.length + n) :
    ∃ l : Label, l.own ∧ s.Enabled l ∧ LessLeft s (s.next l) := by
  cases hpc : s.pc with
  | receive round =>
    have hnext : s.next .receive = s.receive round := by rw [Scheduler.next, hpc]; rfl
    exact ⟨.receive, trivial, by rw [Enabled, hpc]; rfl, hnext ▸ h.receive_less hleft hpc⟩
  | found =>
    have hlt := h.room_of_found hpc hroom
    exact ⟨.take, trivial, ⟨hpc, h.places_eq.symm ▸ hlt⟩, h.take_less hpc hlt⟩
  | tasks i =>
    have hnext : s.next .task = s.task i := by rw [Scheduler.next, hpc]; rfl
    exact ⟨.task, trivial, by rw [Enabled, hpc]; rfl, hnext ▸ task_less hpc⟩
  | running i => exact ⟨.finish, trivial, by rw [Enabled, hpc]; rfl, h.finish_less hpc⟩

end Inv

theorem Inv.drains (h : Inv fresh m n s)
    (hroom : s.mailbox.accepted.length ≤ s.executed.length + n) :
    ∃ ls : List Label, (∀ l ∈ ls, l.own) ∧ machine.Admits s ls ∧
      (machine.exec s ls).executed = s.mailbox.accepted.map PipeMsg.content := by
  have hstep : ∀ t : Scheduler, (Inv fresh m n t ∧ t.mailbox.accepted = s.mailbox.accepted ∧
      s.executed.length ≤ t.executed.length) →
      ¬ t.executed = t.mailbox.accepted.map PipeMsg.content →
      ∃ l : Label, l.own ∧ machine.enabled t l ∧ (Inv fresh m n (machine.next t l) ∧
        (machine.next t l).mailbox.accepted = s.mailbox.accepted ∧
        s.executed.length ≤ (machine.next t l).executed.length) ∧
        work (machine.next t l) < work t := by
    intro t ⟨hinv, hacc, hle⟩ hleft
    obtain ⟨l, hl, hen, hless⟩ := hinv.progress hleft (by rw [hacc]; omega)
    exact ⟨l, hl, hen, ⟨hinv.next hen, hless.accepted.trans hacc,
      Nat.le_trans hle hless.executed⟩, hless.work⟩
  obtain ⟨ls, hown, hls, ⟨-, hacc, -⟩, hgoal⟩ :=
    machine.exists_exec_of_measure work hstep ⟨h, rfl, Nat.le_refl _⟩
  exact ⟨ls, hown, hls, hgoal.trans (congrArg _ hacc)⟩

theorem nodup_of_idsOf {refs : List MsgRef} (h : ∀ c, (idsOf refs c).Nodup) : refs.Nodup := by
  induction refs with
  | nil => exact .nil
  | cons ref refs ih =>
    obtain ⟨c, id⟩ := ref
    refine List.nodup_cons.mpr ⟨fun hin => ?_, ih fun c' => ?_⟩
    · have hc := h c
      rw [idsOf_cons_self] at hc
      exact (List.nodup_cons.mp hc).1 (mem_idsOf.mpr hin)
    · exact (h c').sublist (((List.sublist_cons_self _ _).filter _).map _)

/-- The scheduler is a first-in first-out executor of the messages that its mailbox accepted. Every
task uses an object of its own, of the class of its message, which the pools do not hand out
before the task has finished; and the scheduler's own steps bring all accepted messages to their
execution. -/
structure IsExecutor (s : Scheduler) : Prop where
  running : s.fault = false ∧ s.mailbox.stuck = false
  fifo : s.executed ++ s.waiting.map (fun ref => (s.msgs ref).content) ++
    (s.mailbox.accepted.drop s.mailbox.received.length).map PipeMsg.content =
      s.mailbox.accepted.map PipeMsg.content
  distinct : s.taskQueue.Nodup
  objects : ∀ ref ∈ s.taskQueue, IsMsg ref (s.msgs ref)
  unused : ∀ c, ∃ id pool, (s.poolMsgs c).get = some (some id, pool) ∧
    (⟨c, id⟩ : MsgRef) ∉ s.taskQueue
  front : ∀ i, s.pc = .running i → ∃ ref refs, s.taskQueue = ref :: refs ∧
    s.executed.getLast? = some (s.msgs ref).content
  drains : s.mailbox.accepted.length ≤ s.executed.length + s.places →
    ∃ ls : List Label, (∀ l ∈ ls, l.own) ∧ machine.Admits s ls ∧
      (machine.exec s ls).executed = s.mailbox.accepted.map PipeMsg.content

theorem PoolOk.unused (h : PoolOk n pool held) :
    ∃ id pool', pool.get = some (some id, pool') ∧ id ∉ held := by
  obtain ⟨returned, rest, hinv⟩ := h.stack
  obtain ⟨id, pool', -, hget, -, hwhich, -⟩ := hinv.get
  refine ⟨id, pool', hget, fun hheld => ?_⟩
  obtain hhead | ⟨-, hnew⟩ := hwhich
  · exact (List.nodup_append.mp hinv.distinct.of_append_right).2.2 id
      (List.mem_of_head? hhead) id hheld rfl
  · exact hnew (List.mem_append_right _ hheld)

theorem Inv.isExecutor (h : Inv fresh m n s) : s.IsExecutor := by
  refine ⟨⟨h.running, h.mailbox.running⟩, ?_, nodup_of_idsOf fun c => (h.pools c).nodup, h.tasks,
    fun c => ?_, h.front, fun hroom => h.drains (h.places_eq ▸ hroom)⟩
  · rw [h.order, ← List.map_append]
    obtain ⟨rest, hrest⟩ := h.mailbox.isQueue.fifo
    rw [← hrest, List.drop_left]
  · obtain ⟨id, pool, hget, hnot⟩ := (h.pools c).unused
    exact ⟨id, pool, hget, fun hin => hnot (mem_idsOf.mpr hin)⟩

theorem inv_start {memPerBlock maxNumBlocks : ℕ} (hm : m.Sound fresh [] []) (hmem : 0 < memPerBlock)
    (hmax : maxNumBlocks ≠ 0) :
    Inv fresh m (start m memPerBlock maxNumBlocks).places (start m memPerBlock maxNumBlocks) := by
  have hsize : 0 < MsgCategory.kInvalid.sizeof := by decide
  refine ⟨rfl, PipeRun.inv_start hm, (nomatch ·), (fun _ hmem => nomatch hmem), fun c => ?_,
    fun ref => ⟨rfl, .inl rfl⟩, (fun _ hmem => nomatch hmem), rfl, fun _ hi => (nomatch hi)⟩
  obtain ⟨h₁, h₂, h₃, h₄, h₅, h₆, h₇⟩ := PoolObjsRun.inv_start (PoolObjs.sound_new hsize hmem hmax)
  exact ⟨rfl, [], [], h₁, h₂, h₃, h₄, h₅, h₆, h₇⟩

theorem exec_isExecutor {sizePipe maxSizeContent threshold : ℕ} {notifier : Bool}
    (hinit : MPSCFixedPipe.init fresh sizePipe maxSizeContent threshold notifier = some m)
    (hsize : maxSizeContent < 2 ^ 31 - 1) {memPerBlock maxNumBlocks : ℕ} (hmem : 0 < memPerBlock)
    (hmax : maxNumBlocks ≠ 0) {ls : List Label}
    (hls : machine.Admits (start m memPerBlock maxNumBlocks) ls) :
    (machine.exec (start m memPerBlock maxNumBlocks) ls).IsExecutor := by
  have hstart := inv_start (MPSCFixedPipe.sound_init hinit hsize) hmem hmax
  exact (machine.invariant (fun _ _ h hl => h.next hl) hstart hls).isExecutor

def newReqMsg (b : UInt8) : PipeMsg := ⟨1, [3, 0, 0, 0] ++ List.replicate 28 b⟩

def sessionMsg (b : UInt8) : PipeMsg := ⟨1, [4, 0, 0, 0] ++ List.replicate 44 b⟩

/-- One task runs and one is in the mailbox; the object of a third one was used before. -/
def threeTasksRun : List Label :=
  [.send (newReqMsg 7), .receive, .send (sessionMsg 9), .take, .receive, .take, .receive, .task,
    .finish, .send (newReqMsg 11), .task, .finish, .task, .receive, .take, .receive, .task,
    .send (sessionMsg 13)]

theorem exec_isExecutor_threeTasksRun :
    let m : MPSCFixedPipe := ⟨200, 60, 0, Cells.fill (fun _ => 0) 0 200 255, 0, (0, 0), (0, 0)⟩
    (machine.exec (start m 16 2) threeTasksRun).executed.length = 3 ∧
      (machine.exec (start m 16 2) threeTasksRun).IsExecutor := by
  intro m
  have hinit : MPSCFixedPipe.init (fun _ => 0) 200 60 0 true = some m := rfl
  exact ⟨by decide +kernel, exec_isExecutor hinit (by decide) (by decide) (by decide)
    (by decide +kernel)⟩

end Scheduler

end Magneto
