import MessagePass.DataMessages
import MessagePass.LabelledRuns
import MessagePass.OrderedMaps
import MessagePass.RequestMessages

/-!
# The task thread of a message source

One topic of a `MessageSource`: its ready queue, its request queue, the `running_` flag, and the
thread that runs `task_thread` over them. The thread's program counter stands before each
operation that another thread can observe or influence, so a schedule interleaves the thread
with `send`, `recv_request` and `stop` at every such point. Queues are first-in first-out; a
timed wait returns without an element only when its queue is empty. The calls of `zmq_send` are
taken to return: `BackPressure` and `QueuedTopics` have those that wait.
-/
namespace MessagePass.SourceTasks
open Std RequestMessages DataMessages OrderedMaps

/-- A `ZMQ_DEALER` socket: its routing id and the address it is connected to. -/
structure Socket where
  routingId : UInt64
  endpoint : Str
  deriving DecidableEq

/-- One call of `send_msg` and the request that caused it. -/
structure Transmission (T : Type) where
  req : RequestMessage
  socket : Socket
  msg : T
  deriving DecidableEq

/-- A request that was processed to its end, with the message popped for it if it is a GET. -/
structure Handled (T : Type) where
  req : RequestMessage
  msg : Option T := none
  deriving DecidableEq

/-- The statements that destroy messages. -/
inductive Cause | del (req : RequestMessage) | teardown | destructor deriving DecidableEq

/-- The thread-local maps, and the log of what the thread did: calls of `send_msg`, requests
processed, messages destroyed. -/
structure TaskLocals (T : Type) where
  sockets : ExtTreeMap Str Socket := ∅
  sents : ExtTreeMap Str (ExtTreeMap UInt64 T) := ∅
  sent : List (Transmission T) := []
  handled : List (Handled T) := []
  destroyed : List (T × Cause) := []

/-- Where `task_thread` stands. A GET carries its socket, and from the end of its wait the local
variable `msg`, which is `none` while it has never been assigned. -/
inductive Pc (T : Type) where
  | loop
  | await
  | dispatch (req : RequestMessage)
  | getWait (req : RequestMessage) (socket : Socket)
  | getExpired (req : RequestMessage) (socket : Socket)
  | getSend (req : RequestMessage) (socket : Socket) (msg : Option T)
  | getStore (req : RequestMessage) (socket : Socket) (msg : T)
  | finished
  | undefined
  deriving DecidableEq

structure Topic (T : Type) where
  running : Bool := true
  ready : List T := []
  requests : List RequestMessage := []
  pc : Pc T := .loop
  locals : TaskLocals T := {}
  produced : List T := []
  arrived : List RequestMessage := []

variable {T : Type}

namespace TaskLocals

/-- `sents[sink]`, an absent entry read as the empty map that `operator[]` would insert. -/
def sentsOf (l : TaskLocals T) (sink : Str) : ExtTreeMap UInt64 T := l.sents.getD sink ∅

/-- The first GET for a sink opens its socket and resets its entry of `sents`. -/
def openSocket (identity : UInt64) (l : TaskLocals T) (sink : Str) : Socket × TaskLocals T :=
  match l.sockets[sink]? with
  | some socket => (socket, l)
  | none => (⟨identity, sink⟩,
      { l with sockets := l.sockets.insert sink ⟨identity, sink⟩, sents := l.sents.insert sink ∅ })

def sendMsg (l : TaskLocals T) (req : RequestMessage) (socket : Socket) (msg : T) : TaskLocals T :=
  { l with sent := l.sent ++ [⟨req, socket, msg⟩] }

def storeMsg [IDataMessage T] (l : TaskLocals T) (req : RequestMessage) (msg : T) : TaskLocals T :=
  { l with sents := l.sents.insert req.sink ((l.sentsOf req.sink).insert (key msg) msg) }

/-- `operator[]` inserts an empty entry for an unknown sink even when nothing is deleted. -/
def deleteMsg (l : TaskLocals T) (req : RequestMessage) : TaskLocals T :=
  match (l.sentsOf req.sink)[req.key]? with
  | none => { l with sents := l.sents.insert req.sink (l.sentsOf req.sink) }
  | some msg =>
      { l with
        sents := l.sents.insert req.sink ((l.sentsOf req.sink).erase req.key)
        destroyed := l.destroyed ++ [(msg, .del req)] }

/-- `none` is the dereference of `sents.find(sink)` when it is `end()`. -/
def recoverMsg (l : TaskLocals T) (req : RequestMessage) : Option (TaskLocals T) :=
  match l.sockets[req.sink]? with
  | none => some l
  | some socket => match l.sents[req.sink]? with
    | none => none
    | some msgs =>
        if msgs.isEmpty then some l
        else some { l with sent := l.sent ++ (values msgs).map fun msg => ⟨req, socket, msg⟩ }

/-- `delete remote_req` at the end of an iteration. -/
def finish (l : TaskLocals T) (req : RequestMessage) (msg : Option T) : TaskLocals T :=
  { l with handled := l.handled ++ [⟨req, msg⟩] }

/-- The two loops after `while(running_)`: close every socket, delete every stored message. -/
def teardown (l : TaskLocals T) : TaskLocals T :=
  { l with
    sockets := ∅
    sents := ∅
    destroyed := l.destroyed ++ (nestedValues l.sents).map fun msg => (msg, .teardown) }

section Reads
variable (l : TaskLocals T) (req : RequestMessage) (socket : Socket) (msg : T) (sink : Str)

@[simp] theorem sockets_sendMsg : (l.sendMsg req socket msg).sockets = l.sockets := rfl
@[simp] theorem sents_sendMsg : (l.sendMsg req socket msg).sents = l.sents := rfl
@[simp] theorem handled_sendMsg : (l.sendMsg req socket msg).handled = l.handled := rfl
@[simp] theorem destroyed_sendMsg : (l.sendMsg req socket msg).destroyed = l.destroyed := rfl
@[simp] theorem sent_sendMsg :
    (l.sendMsg req socket msg).sent = l.sent ++ [⟨req, socket, msg⟩] := rfl

@[simp] theorem sentsOf_sendMsg :
    (l.sendMsg req socket msg).sentsOf sink = l.sentsOf sink := rfl

@[simp] theorem sockets_finish (m : Option T) : (l.finish req m).sockets = l.sockets := rfl
@[simp] theorem sents_finish (m : Option T) : (l.finish req m).sents = l.sents := rfl
@[simp] theorem sent_finish (m : Option T) : (l.finish req m).sent = l.sent := rfl
@[simp] theorem destroyed_finish (m : Option T) : (l.finish req m).destroyed = l.destroyed := rfl
@[simp] theorem handled_finish (m : Option T) :
    (l.finish req m).handled = l.handled ++ [⟨req, m⟩] := rfl

@[simp] theorem sentsOf_finish (m : Option T) :
    (l.finish req m).sentsOf sink = l.sentsOf sink := rfl

@[simp] theorem sent_teardown : l.teardown.sent = l.sent := rfl
@[simp] theorem handled_teardown : l.teardown.handled = l.handled := rfl

theorem sentsOf_eq_of_getElem? {inner : ExtTreeMap UInt64 T} (h : l.sents[sink]? = some inner) :
    l.sentsOf sink = inner := by
  simp [sentsOf, ExtTreeMap.getD_eq_getD_getElem?, h]

theorem openSocket_found {identity : UInt64} (h : l.sockets[sink]? = some socket) :
    l.openSocket identity sink = (socket, l) := by simp [openSocket, h]

theorem openSocket_fresh {identity : UInt64} (h : l.sockets[sink]? = none) :
    l.openSocket identity sink = (⟨identity, sink⟩,
      { l with
        sockets := l.sockets.insert sink ⟨identity, sink⟩, sents := l.sents.insert sink ∅ }) := by
  simp [openSocket, h]

@[simp] theorem handled_openSocket (identity : UInt64) :
    (l.openSocket identity sink).2.handled = l.handled := by unfold openSocket; split <;> rfl

@[simp] theorem sent_openSocket (identity : UInt64) :
    (l.openSocket identity sink).2.sent = l.sent := by unfold openSocket; split <;> rfl

@[simp] theorem destroyed_openSocket (identity : UInt64) :
    (l.openSocket identity sink).2.destroyed = l.destroyed := by unfold openSocket; split <;> rfl

section Stored
variable [IDataMessage T]

@[simp] theorem sockets_storeMsg : (l.storeMsg req msg).sockets = l.sockets := rfl
@[simp] theorem sent_storeMsg : (l.storeMsg req msg).sent = l.sent := rfl
@[simp] theorem handled_storeMsg : (l.storeMsg req msg).handled = l.handled := rfl
@[simp] theorem destroyed_storeMsg : (l.storeMsg req msg).destroyed = l.destroyed := rfl

theorem sentsOf_storeMsg : (l.storeMsg req msg).sentsOf sink =
    if req.sink = sink then (l.sentsOf sink).insert (key msg) msg else l.sentsOf sink := by
  by_cases h : req.sink = sink
  · subst h; simp [storeMsg, sentsOf]
  · simp [storeMsg, sentsOf, ExtTreeMap.getD_insert, h]

end Stored

@[simp] theorem sockets_deleteMsg : (l.deleteMsg req).sockets = l.sockets := by
  unfold deleteMsg; split <;> rfl

@[simp] theorem sent_deleteMsg : (l.deleteMsg req).sent = l.sent := by
  unfold deleteMsg; split <;> rfl

@[simp] theorem handled_deleteMsg : (l.deleteMsg req).handled = l.handled := by
  unfold deleteMsg; split <;> rfl

theorem sentsOf_deleteMsg : (l.deleteMsg req).sentsOf sink =
    if req.sink = sink then (l.sentsOf sink).erase req.key else l.sentsOf sink := by
  unfold deleteMsg
  split <;> rename_i hm <;> by_cases h : req.sink = sink
  · subst h
    simp only [sentsOf, ExtTreeMap.getD_insert_self, if_true] at hm ⊢
    exact (erase_eq_self hm).symm
  · simp [sentsOf, ExtTreeMap.getD_insert, h]
  · subst h; simp [sentsOf]
  · simp [sentsOf, ExtTreeMap.getD_insert, h]

theorem destroyed_deleteMsg : (l.deleteMsg req).destroyed =
    l.destroyed ++ ((l.sentsOf req.sink)[req.key]?.map fun m => (m, Cause.del req)).toList := by
  unfold deleteMsg
  split <;> rename_i hm <;> simp [hm]

theorem recoverMsg_unopened (h : l.sockets[req.sink]? = none) : l.recoverMsg req = some l := by
  simp [recoverMsg, h]

/-- With a socket and an entry, recovery transmits the whole entry; the branch for an empty entry
does what the loop would do. -/
theorem recoverMsg_opened {inner : ExtTreeMap UInt64 T} (hs : l.sockets[req.sink]? = some socket)
    (hi : l.sents[req.sink]? = some inner) :
    l.recoverMsg req =
      some { l with sent := l.sent ++ (values inner).map fun m => ⟨req, socket, m⟩ } := by
  by_cases he : inner = ∅
  · simp [recoverMsg, hs, hi, he]
  · have hne : inner.isEmpty = false := ExtTreeMap.isEmpty_eq_false_iff.mpr he
    simp [recoverMsg, hs, hi, hne]

end Reads
end TaskLocals

section Step
variable [IDataMessage T]

def taskThread (identity : UInt64) (s : Topic T) : Topic T :=
  match s.pc with
  | .loop =>
      if s.running then { s with pc := .await }
      else { s with pc := .finished, locals := s.locals.teardown }
  | .await => match s.requests with
    | [] => { s with pc := .loop }
    | req :: rest => { s with requests := rest, pc := .dispatch req }
  | .dispatch req => match req.branch with
    | .get =>
        let opened := s.locals.openSocket identity req.sink
        { s with pc := .getWait req opened.1, locals := opened.2 }
    | .del => { s with pc := .loop, locals := (s.locals.deleteMsg req).finish req none }
    | .recover => match s.locals.recoverMsg req with
      | none => { s with pc := .undefined }
      | some l => { s with pc := .loop, locals := l.finish req none }
    | .other => { s with pc := .loop, locals := s.locals.finish req none }
  | .getWait req socket => match s.ready with
    | [] => { s with pc := .getExpired req socket }
    | msg :: rest => { s with ready := rest, pc := .getSend req socket (some msg) }
  | .getExpired req socket =>
      -- the wait gives up only when `running_` is clear, and then `msg` was never assigned
      if s.running then { s with pc := .getWait req socket }
      else { s with pc := .getSend req socket none }
  | .getSend _ _ none => { s with pc := .undefined }
  | .getSend req socket (some msg) =>
      { s with pc := .getStore req socket msg, locals := s.locals.sendMsg req socket msg }
  | .getStore req _ msg =>
      { s with pc := .loop, locals := (s.locals.storeMsg req msg).finish req (some msg) }
  | .finished => s
  | .undefined => s

inductive Label (T : Type) where
  | send (msg : T)
  | recvRequest (req : RequestMessage)
  | task
  | stop
  deriving DecidableEq

def next (identity : UInt64) (s : Topic T) : Label T → Option (Topic T)
  | .send msg => some { s with ready := s.ready ++ [msg], produced := s.produced ++ [msg] }
  | .recvRequest req =>
      some { s with requests := s.requests ++ [req], arrived := s.arrived ++ [req] }
  | .task => some (taskThread identity s)
  | .stop => some { s with running := false }

end Step
end MessagePass.SourceTasks
