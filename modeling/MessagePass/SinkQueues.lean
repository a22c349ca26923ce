import MessagePass.LabelledRuns
import MessagePass.ReceiveQueues
import MessagePass.RequestMessages
import Mathlib.Data.Nat.Digits.Defs
import Mathlib.Logic.Function.Basic

/-!
# The queues and the threads of a message sink

`recvs_` maps each topic to its map of receive queues. A receive thread works on a copy of the map
of its topic, taken when it starts; `get_msg` reads `recvs_`, and looking up an unknown source
there inserts a null pointer. Queue objects are numbered over the whole sink.
-/
namespace MessagePass.SinkQueues
open Std RequestMessages ReceiveQueues

/-- A thread that runs `recv_message`. It has no endpoint until it has copied the map of its topic
and bound its socket. -/
structure ReceiveThread where
  topic : Str
  queues : QueueMap := ∅
  endpoint : Option Str := none

structure Sink (T : Type) where
  topics : List Str
  topicSink : ExtTreeMap Str Str := ∅
  recvs : ExtTreeMap Str QueueMap := ∅
  created : ℕ := 0
  contents : ℕ → List T := fun _ => []
  threads : List ReceiveThread := []
  /-- A null pointer has been dereferenced. -/
  undefined : Bool := false
  requested : List (Str × RequestMessage) := []
  received : List (Str × UInt64 × T) := []
  fetched : List (Str × UInt64 × T) := []

variable {T : Type}

def decimal (w : UInt64) : Str :=
  if w = 0 then [48] else ((Nat.digits 10 w.toNat).map fun d => UInt8.ofNat (48 + d)).reverse

/-- `"tcp://" + server_ip_ + ":" + std::to_string(server_port_ + i)`. -/
def endpoint (serverIp : Str) (serverPort : Int32) (i : ℕ) : Str :=
  [116, 99, 112, 58, 47, 47] ++ serverIp ++ [58] ++
    decimal (serverPort.toInt64.toUInt64 + UInt64.ofNat i)

/-- The loop of `init` that assigns endpoints: a later position overwrites an earlier one. -/
def assignEndpoints (serverIp : Str) (serverPort : Int32) :
    ℕ → List Str → ExtTreeMap Str Str → ExtTreeMap Str Str
  | _, [], m => m
  | i, topic :: topics, m =>
      assignEndpoints serverIp serverPort (i + 1) topics
        (m.insert topic (endpoint serverIp serverPort i))

namespace Sink

def init (serverIp : Str) (serverPort : Int32) (topics : List Str) : Sink T where
  topics := topics
  topicSink := assignEndpoints serverIp serverPort 0 topics ∅
  recvs := topics.foldl (fun m topic => m.insert topic ∅) ∅

/-- `topic_sink_[topic]`. -/
def sinkOf (s : Sink T) (topic : Str) : Str := s.topicSink.getD topic []

/-- `recvs_[topic]`, an absent entry read as the empty map that `operator[]` would insert. -/
def tableOf (s : Sink T) (topic : Str) : QueueTable where
  queues := s.recvs.getD topic ∅
  created := s.created

def threadTable (s : Sink T) (thread : ReceiveThread) : QueueTable where
  queues := thread.queues
  created := s.created

/-- `recvs_[topic][source]`, a null pointer or none read alike. -/
def queueOf (s : Sink T) (topic : Str) (source : UInt64) : Option ℕ :=
  (s.tableOf topic).queueOf source

def unread (s : Sink T) (topic : Str) (source : UInt64) : List T :=
  match s.queueOf topic source with
  | some queue => s.contents queue
  | none => []

def prepareSources (s : Sink T) (topic : Str) (sources : List UInt64) : Sink T :=
  let table := (s.tableOf topic).prepareSources sources
  { s with recvs := s.recvs.insert topic table.queues, created := table.created }

/-- The last part of an iteration of `recv_message`, in thread `n`. -/
def receive (s : Sink T) (n : ℕ) (thread : ReceiveThread) (source : UInt64) (msg : T) : Sink T :=
  let table := (s.threadTable thread).findOrInsert source
  match table.queueOf source with
  | none => { s with undefined := true }
  | some queue => { s with
      created := table.created
      threads := s.threads.set n { thread with queues := table.queues }
      contents := Function.update s.contents queue (s.contents queue ++ [msg])
      received := s.received ++ [(thread.topic, source, msg)] }

/-- `get_msg` by topic and source, whose wait ends without a message when the queue is empty. -/
def getMsg (s : Sink T) (topic : Str) (source : UInt64) : Sink T :=
  match (s.tableOf topic).queues[source]? with
  | none => { s with recvs := s.recvs.insert topic ((s.tableOf topic).queues.insert source none) }
  | some none => s
  | some (some queue) => match s.contents queue with
    | [] => s
    | msg :: rest => { s with
        contents := Function.update s.contents queue rest
        fetched := s.fetched ++ [(topic, source, msg)] }

/-- `send_request` with the address of the topic, which must be one that has a producer. -/
def sendRequest (s : Sink T) (topic : Str) (request : Str → RequestMessage) : Option (Sink T) :=
  if topic ∈ s.topics then
    some { s with requested := s.requested ++ [(topic, request (s.sinkOf topic))] }
  else none

def start (s : Sink T) : Sink T :=
  { s with
    threads := s.threads ++ s.topics.map fun topic => { topic := topic }
    requested := s.requested ++ s.topics.map fun topic => (topic, recoverRequest (s.sinkOf topic)) }

end Sink

inductive SinkLabel (T : Type) where
  | prepareSources (topic : Str) (sources : List UInt64)
  | start
  | enter (n : ℕ)
  | receive (n : ℕ) (source : UInt64) (msg : T)
  | getMsg (topic : Str) (source : UInt64)
  | sendGetRequest (topic : Str)
  | sendDelRequest (topic : Str) (k : UInt64)
  | sendRecoverRequest (topic : Str)
  | stop

/-- The application calls `prepare_sources` only while no thread runs; `stop` returns when every
thread has left its loop. -/
def sinkNext (s : Sink T) : SinkLabel T → Option (Sink T)
  | .prepareSources topic sources =>
      if s.threads.isEmpty then some (s.prepareSources topic sources) else none
  | .start => some s.start
  | .enter n => match s.threads[n]? with
    | some ⟨topic, _, none⟩ => some { s with
        recvs := s.recvs.insert topic (s.tableOf topic).queues
        threads := s.threads.set n ⟨topic, (s.tableOf topic).queues, some (s.sinkOf topic)⟩ }
    | _ => none
  | .receive n source msg => match s.threads[n]? with
    | some thread => if thread.endpoint.isSome then some (s.receive n thread source msg) else none
    | none => none
  | .getMsg topic source => some (s.getMsg topic source)
  | .sendGetRequest topic => s.sendRequest topic getRequest
  | .sendDelRequest topic k => s.sendRequest topic fun sink => delRequest sink k
  | .sendRecoverRequest topic => s.sendRequest topic recoverRequest
  | .stop => some { s with threads := [] }

inductive SinkMove (s : Sink T) : SinkLabel T → Sink T → Prop
  | prepareSources (topic sources) (hidle : s.threads = []) :
      SinkMove s (.prepareSources topic sources) (s.prepareSources topic sources)
  | start : SinkMove s .start s.start
  | enter (n topic queues) (hn : s.threads[n]? = some ⟨topic, queues, none⟩) :
      SinkMove s (.enter n) { s with
        recvs := s.recvs.insert topic (s.tableOf topic).queues
        threads := s.threads.set n ⟨topic, (s.tableOf topic).queues, some (s.sinkOf topic)⟩ }
  | receive (n thread source msg) (hn : s.threads[n]? = some thread)
      (hbound : thread.endpoint.isSome = true) :
      SinkMove s (.receive n source msg) (s.receive n thread source msg)
  | getMsg (topic source) : SinkMove s (.getMsg topic source) (s.getMsg topic source)
  | request (a topic) (request : Str → RequestMessage)
      (hsink : ∀ sink, (request sink).sink = sink) :
      SinkMove s a { s with requested := s.requested ++ [(topic, request (s.sinkOf topic))] }
  | stop : SinkMove s .stop { s with threads := [] }

theorem sinkMove_of_next {s t : Sink T} {a : SinkLabel T} (hs : sinkNext s a = some t) :
    SinkMove s a t := by
  have hrequest : ∀ {topic request}, (∀ sink, RequestMessage.sink (request sink) = sink) →
      s.sendRequest topic request = some t → SinkMove s a t := by
    intro topic request hsink hs
    simp only [Sink.sendRequest, Option.ite_none_right_eq_some, Option.some.injEq] at hs
    obtain ⟨-, rfl⟩ := hs
    exact .request a topic request hsink
  cases a with
  | prepareSources topic sources =>
    simp only [sinkNext, Option.ite_none_right_eq_some, List.isEmpty_iff, Option.some.injEq] at hs
    obtain ⟨hidle, rfl⟩ := hs
    exact .prepareSources topic sources hidle
  | start => cases hs; exact .start
  | enter n =>
    simp only [sinkNext] at hs
    split at hs <;> cases hs
    exact .enter _ _ _ ‹_›
  | receive n source msg =>
    simp only [sinkNext] at hs
    split at hs
    · simp only [Option.ite_none_right_eq_some, Option.some.injEq] at hs
      obtain ⟨hbound, rfl⟩ := hs
      exact .receive n _ source msg ‹_› hbound
    · cases hs
  | getMsg topic source => cases hs; exact .getMsg topic source
  | sendGetRequest topic => exact hrequest sink_getRequest hs
  | sendDelRequest topic k => exact hrequest (fun sink => sink_delRequest sink k) hs
  | sendRecoverRequest topic => exact hrequest sink_recoverRequest hs
  | stop => cases hs; exact .stop

/-- Every queue of the sink belongs to one topic and one source, in `recvs_` and in the maps of the
threads alike, and a queue that has not been created is empty. -/
structure OwnedBy (owner : ℕ → Str × UInt64) (s : Sink T) : Prop where
  recvs : ∀ topic, Owns owner topic (s.tableOf topic)
  threads : ∀ thread ∈ s.threads, Owns owner thread.topic (s.threadTable thread)
  empty : ∀ queue, s.created ≤ queue → s.contents queue = []

def Owned (s : Sink T) : Prop := ∃ owner, OwnedBy owner s

theorem owns_insert {owner : ℕ → Str × UInt64} {recvs : ExtTreeMap Str QueueMap} {created : ℕ}
    {topic : Str} {queues : QueueMap} (hnew : Owns owner topic ⟨queues, created⟩)
    (hold : ∀ t, Owns owner t ⟨recvs.getD t ∅, created⟩) (t : Str) :
    Owns owner t ⟨(recvs.insert topic queues).getD t ∅, created⟩ := by
  rw [ExtTreeMap.getD_insert]
  split <;> rename_i h
  · exact LawfulEqOrd.eq_of_compare h ▸ hnew
  · exact hold t

theorem recvs_init (topics : List Str) (m : ExtTreeMap Str QueueMap)
    (hm : ∀ topic, m.getD topic ∅ = ∅) (topic : Str) :
    (topics.foldl (fun m topic => m.insert topic ∅) m).getD topic ∅ = ∅ := by
  induction topics generalizing m with
  | nil => exact hm topic
  | cons t topics ih =>
    apply ih _
    intro u
    rw [ExtTreeMap.getD_insert]
    split
    · rfl
    · exact hm u

theorem owned_init (serverIp : Str) (serverPort : Int32) (topics : List Str) :
    Owned (Sink.init serverIp serverPort topics : Sink T) := by
  refine ⟨fun _ => ([], 0), ?_, by simp [Sink.init], fun _ _ => rfl⟩
  intro topic source queue hq
  simp [Sink.tableOf, Sink.init, recvs_init topics ∅ (by simp), QueueTable.queueOf] at hq

namespace Owned
variable {s t : Sink T}

theorem prepareSources (h : Owned s) (topic : Str) (sources : List UInt64) :
    Owned (s.prepareSources topic sources) := by
  obtain ⟨owner, hrecvs, hthreads, hempty⟩ := h
  obtain ⟨hle, owner', hown, hsame⟩ := (hrecvs topic).prepareSources sources
  refine ⟨owner', ?_, ?_, fun queue hq => hempty queue (hle.trans hq)⟩
  · exact owns_insert hown fun t => (hrecvs t).mono hle hsame
  · exact fun thread hmem => (hthreads thread hmem).mono hle hsame

theorem receive (h : Owned s) {n : ℕ} {thread : ReceiveThread} (hn : s.threads[n]? = some thread)
    (source : UInt64) (msg : T) : Owned (s.receive n thread source msg) := by
  obtain ⟨owner, hrecvs, hthreads, hempty⟩ := h
  obtain ⟨hle, owner', hown, hsame⟩ :=
    (hthreads thread (List.mem_of_getElem? hn)).findOrInsert source
  cases hqueue : ((s.threadTable thread).findOrInsert source).queueOf source with
  | none =>
    simp only [Sink.receive, hqueue]
    exact ⟨owner, hrecvs, hthreads, hempty⟩
  | some queue =>
    simp only [Sink.receive, hqueue]
    refine ⟨owner', fun t => (hrecvs t).mono hle hsame, ?_, ?_⟩
    · intro th hmem
      rcases List.mem_or_eq_of_mem_set hmem with hmem | rfl
      · exact (hthreads th hmem).mono hle hsame
      · exact hown
    · intro q hq
      have hne : q ≠ queue := Nat.ne_of_gt ((hown source queue hqueue).1.trans_le hq)
      exact (Function.update_of_ne hne ..).trans (hempty q (hle.trans hq))

theorem getMsg (h : Owned s) (topic : Str) (source : UInt64) : Owned (s.getMsg topic source) := by
  obtain ⟨owner, hrecvs, hthreads, hempty⟩ := h
  unfold Sink.getMsg
  split
  · exact ⟨owner, owns_insert ((hrecvs topic).insertNull source) hrecvs, hthreads, hempty⟩
  · exact ⟨owner, hrecvs, hthreads, hempty⟩
  · rename_i queue hqueue
    split <;> rename_i hcontents
    · exact ⟨owner, hrecvs, hthreads, hempty⟩
    · refine ⟨owner, hrecvs, hthreads, fun q hq => ?_⟩
      have hlt := (hrecvs topic source queue (QueueTable.queueOf_eq_some.mpr hqueue)).1
      exact (Function.update_of_ne (Nat.ne_of_gt (hlt.trans_le hq)) ..).trans (hempty q hq)

theorem move (h : Owned s) {a : SinkLabel T} (hm : SinkMove s a t) : Owned t := by
  cases hm with
  | prepareSources topic sources hidle => exact h.prepareSources topic sources
  | start =>
    obtain ⟨owner, hrecvs, hthreads, hempty⟩ := h
    refine ⟨owner, hrecvs, fun thread hmem => ?_, hempty⟩
    rcases List.mem_append.mp hmem with hmem | hmem
    · exact hthreads thread hmem
    · obtain ⟨topic, -, rfl⟩ := List.mem_map.mp hmem
      intro source queue hq
      simp [Sink.threadTable, QueueTable.queueOf] at hq
  | enter n topic queues hn =>
    obtain ⟨owner, hrecvs, hthreads, hempty⟩ := h
    refine ⟨owner, owns_insert (hrecvs topic) hrecvs, fun thread hmem => ?_, hempty⟩
    rcases List.mem_or_eq_of_mem_set hmem with hmem | rfl
    · exact hthreads thread hmem
    · exact hrecvs topic
  | receive n thread source msg hn hbound => exact h.receive hn source msg
  | getMsg topic source => exact h.getMsg topic source
  | request a topic request hsink =>
    obtain ⟨owner, hrecvs, hthreads, hempty⟩ := h
    exact ⟨owner, hrecvs, hthreads, hempty⟩
  | stop =>
    obtain ⟨owner, hrecvs, -, hempty⟩ := h
    exact ⟨owner, hrecvs, by simp, hempty⟩

end Owned

theorem owned_reachable {serverIp : Str} {serverPort : Int32} {topics : List Str} {s : Sink T}
    (h : LabelledRuns.Reachable sinkNext (Sink.init serverIp serverPort topics) s) : Owned s :=
  h.invariant (owned_init serverIp serverPort topics) fun _ _ _ hu hv =>
    hu.move (sinkMove_of_next hv)

end MessagePass.SinkQueues
