import MessagePass.QueueProgress
import MessagePass.SourceTasks

/-!
# One topic of a message source and its real queues

The application enqueues messages to the ready queue of a topic, `recv_request` enqueues requests,
and `task_thread` dequeues from both queues, each time for 50 milliseconds at most. Here the two
queues are `BlockingReaderWriterQueue`s down to their atomic accesses, and the topic whose queues
are plain lists is the abstract machine: what the threads of the source do together, they could also
do with queues whose operations are atomic. A call of `zmq_send` may keep the task thread waiting,
as the first frame of a message does in the mode with variable sizes while the pipe to the sink is
full.
-/
namespace MessagePass.QueuedTopics
open SourceTasks RequestMessages DataMessages LabelledRuns BlockRings BlockingQueues

variable {T : Type}

/-- Where `task_thread` stands: before a statement, or in a call of `wait_dequeue_timed` on the
request queue or on the ready queue. -/
inductive TaskPc (T : Type) where
  | before (pc : Pc T)
  | awaiting
  | getting (req : RequestMessage) (socket : Socket)

structure QueuedTopic (T : Type) where
  running : Bool := true
  ready : BlockingQueues.State T
  requests : BlockingQueues.State RequestMessage
  pc : TaskPc T := .before .loop
  locals : TaskLocals T := {}

def maxBlockSize : ℕ := 512

def defaultSize : ℕ := 15

def make (T : Type) : QueuedTopic T where
  ready := BlockingQueues.make T maxBlockSize defaultSize
  requests := BlockingQueues.make RequestMessage maxBlockSize defaultSize

/-- `std::chrono::milliseconds(50)`, in microseconds. -/
def timeout : ℤ := 50000

theorem bounded_timeout : (Op.waitDequeueTimed timeout).Bounded := by simp [Op.Bounded, timeout]

section Step
variable [IDataMessage T]

def statement (identity : UInt64) (pc : Pc T) (s : QueuedTopic T) : QueuedTopic T :=
  let t := SourceTasks.taskThread identity { running := s.running, pc := pc, locals := s.locals }
  { s with pc := .before t.pc, locals := t.locals }

/-- One step of `task_thread`; `returned` says that `zmq_send` returns, where the step calls it. A
call that does not return keeps the thread where it is. -/
def taskThread (identity : UInt64) (expired returned : Bool) (s : QueuedTopic T) :
    Option (QueuedTopic T) :=
  match s.pc with
  | .before .await =>
      (BlockingQueues.next maxBlockSize s.requests (.dequeue (.waitDequeueTimed timeout))).map
        fun queue => { s with requests := queue, pc := .awaiting }
  | .awaiting =>
      (BlockingQueues.next maxBlockSize s.requests (.consumer expired)).map fun queue =>
        match queue.consumer with
        | .returned true =>
            match queue.inner.dequeued.getLast? with
            | some req => { s with requests := queue, pc := .before (.dispatch req) }
            | none => { s with requests := queue, pc := .before .undefined }
        | .returned false => { s with requests := queue, pc := .before .loop }
        | _ => { s with requests := queue }
  | .before (.getWait req socket) =>
      (BlockingQueues.next maxBlockSize s.ready (.dequeue (.waitDequeueTimed timeout))).map
        fun queue => { s with ready := queue, pc := .getting req socket }
  | .getting req socket =>
      (BlockingQueues.next maxBlockSize s.ready (.consumer expired)).map fun queue =>
        match queue.consumer with
        | .returned true =>
            { s with
              ready := queue
              pc := .before (.getSend req socket queue.inner.dequeued.getLast?) }
        | .returned false => { s with ready := queue, pc := .before (.getExpired req socket) }
        | _ => { s with ready := queue }
  | .before pc =>
      let t := statement identity pc s
      if returned ∨ t.locals.sent.length = s.locals.sent.length then some t else some s

/-- Who moves: the application in `send`, the thread of `recv_request` where it enqueues, the task
thread, or `stop()`. Neither `send` nor `recv_request` looks at what `enqueue` returns. -/
inductive Label (T : Type) where
  | send (msg : T)
  | sender (malloc : Bool)
  | recvRequest (req : RequestMessage)
  | receiver (malloc : Bool)
  | task (expired returned : Bool)
  | stop
  deriving DecidableEq

def next (identity : UInt64) (s : QueuedTopic T) : Label T → Option (QueuedTopic T)
  | .send msg =>
      (BlockingQueues.next maxBlockSize s.ready (.enqueue msg .canAlloc)).map fun queue =>
        { s with ready := queue }
  | .sender malloc =>
      (BlockingQueues.next maxBlockSize s.ready (.producer malloc)).map fun queue =>
        { s with ready := queue }
  | .recvRequest req =>
      (BlockingQueues.next maxBlockSize s.requests (.enqueue req .canAlloc)).map fun queue =>
        { s with requests := queue }
  | .receiver malloc =>
      (BlockingQueues.next maxBlockSize s.requests (.producer malloc)).map fun queue =>
        { s with requests := queue }
  | .task expired returned => taskThread identity expired returned s
  | .stop => some { s with running := false }

end Step

/-- A call that has taken its unit has its element already, as far as the abstract machine goes. -/
def abstractPc (s : QueuedTopic T) : Pc T :=
  match s.pc with
  | .before pc => pc
  | .awaiting =>
      match s.requests.consumer, promised s.requests with
      | .taking, some req => .dispatch req
      | _, _ => .await
  | .getting req socket =>
      match s.ready.consumer with
      | .taking => .getSend req socket (promised s.ready)
      | _ => .getWait req socket

def abstract (s : QueuedTopic T) : Topic T where
  running := s.running
  ready := visible s.ready
  requests := visible s.requests
  pc := abstractPc s
  locals := s.locals
  produced := offered s.ready
  arrived := offered s.requests

/-- The task thread is in a call of the queue where it says it is, and in no other. -/
def Standing (s : QueuedTopic T) : Prop :=
  match s.pc with
  | .before _ => Between s.requests ∧ Between s.ready
  | .awaiting => InCall s.requests ∧ Between s.ready
  | .getting _ _ => Between s.requests ∧ InCall s.ready

structure Sound (s : QueuedTopic T) : Prop where
  ready : Coupled defaultSize s.ready
  requests : Coupled defaultSize s.requests
  standing : Standing s

theorem sound_make : Sound (make T) where
  ready := coupled_make ⟨8, rfl⟩ (by decide) (by decide)
  requests := coupled_make ⟨8, rfl⟩ (by decide) (by decide)
  standing := ⟨.inl rfl, .inl rfl⟩

/-- Neither the application nor `recv_request` is in the middle of an `enqueue`. -/
def Resting (s : QueuedTopic T) : Prop := AtRest s.ready ∧ AtRest s.requests

/-- The steps that `task_thread` takes at most before the abstract thread takes one. -/
def rank (s : QueuedTopic T) : ℕ :=
  match s.pc with
  | .before .await | .before (.getWait _ _) => 1039
  | .before _ => 0
  | .awaiting => s.requests.remaining
  | .getting _ _ => s.ready.remaining

section Abstraction
variable {s : QueuedTopic T}

theorem abstractPc_ready {queue : BlockingQueues.State T} (h : SameCall s.ready queue) :
    abstractPc { s with ready := queue } = abstractPc s := by
  unfold abstractPc
  cases hpc : s.pc with
  | getting req socket =>
    simp only [h.pc]
    cases hconsumer : s.ready.consumer with
    | taking => simp only [h.promised hconsumer]
    | _ => rfl
  | _ => rfl

theorem abstractPc_requests {queue : BlockingQueues.State RequestMessage}
    (h : SameCall s.requests queue) : abstractPc { s with requests := queue } = abstractPc s := by
  unfold abstractPc
  cases hpc : s.pc with
  | awaiting =>
    simp only [h.pc]
    cases hconsumer : s.requests.consumer with
    | taking => simp only [h.promised hconsumer]
    | _ => rfl
  | _ => rfl

theorem standing_ready {queue : BlockingQueues.State T} (h : Standing s)
    (hsame : SameConsumer s.ready queue) : Standing { s with ready := queue } := by
  unfold Standing at h ⊢
  cases hpc : s.pc with
  | before pc =>
    simp only [hpc] at h ⊢
    exact ⟨h.1, hsame.between h.2⟩
  | awaiting =>
    simp only [hpc] at h ⊢
    exact ⟨h.1, hsame.between h.2⟩
  | getting req socket =>
    simp only [hpc] at h ⊢
    exact ⟨h.1, hsame.inCall h.2⟩

theorem standing_requests {queue : BlockingQueues.State RequestMessage} (h : Standing s)
    (hsame : SameConsumer s.requests queue) : Standing { s with requests := queue } := by
  unfold Standing at h ⊢
  cases hpc : s.pc with
  | before pc =>
    simp only [hpc] at h ⊢
    exact ⟨hsame.between h.1, h.2⟩
  | awaiting =>
    simp only [hpc] at h ⊢
    exact ⟨hsame.inCall h.1, h.2⟩
  | getting req socket =>
    simp only [hpc] at h ⊢
    exact ⟨hsame.between h.1, h.2⟩

theorem abstract_ready {queue : BlockingQueues.State T} {more : List T}
    (h : Sends s.ready queue more) :
    abstract { s with ready := queue } =
      { abstract s with
        ready := (abstract s).ready ++ more, produced := (abstract s).produced ++ more } := by
  have hpc := abstractPc_ready h.call
  simp only [abstract, h.offered, h.visible, hpc]

theorem abstract_requests {queue : BlockingQueues.State RequestMessage}
    {more : List RequestMessage} (h : Sends s.requests queue more) :
    abstract { s with requests := queue } =
      { abstract s with
        requests := (abstract s).requests ++ more, arrived := (abstract s).arrived ++ more } := by
  have hpc := abstractPc_requests h.call
  simp only [abstract, h.offered, h.visible, hpc]

theorem rank_le (h : Sound s) : rank s ≤ 1039 := by
  have hstanding := h.standing
  unfold Standing at hstanding
  unfold rank
  split <;> rename_i hpc <;> simp only [hpc] at hstanding
  · exact Nat.le_refl _
  · exact Nat.le_refl _
  · exact Nat.zero_le _
  · exact hstanding.1.remaining_le.trans (by decide)
  · exact hstanding.2.remaining_le.trans (by decide)

theorem completed_le_offered {capacity : ℕ} {E : Type} {queue : BlockingQueues.State E}
    (h : Coupled capacity queue) : queue.completed ≤ (offered queue).length := by
  rw [h.length_offered]
  exact h.completed_le

theorem abstract_eq {t : QueuedTopic T} (hrun : t.running = s.running)
    (hlocals : t.locals = s.locals) (hpc : abstractPc t = abstractPc s)
    (hready : visible t.ready = visible s.ready)
    (hproduced : offered t.ready = offered s.ready)
    (hrequests : visible t.requests = visible s.requests)
    (harrived : offered t.requests = offered s.requests) : abstract t = abstract s := by
  simp only [abstract, hrun, hlocals, hpc, hready, hproduced, hrequests, harrived]

end Abstraction

end MessagePass.QueuedTopics
