import MessagePass.DataMessages
import MessagePass.SinkQueues
import Mathlib.Data.List.Nodup
import Mathlib.Data.Nat.Digits.Lemmas

/-!
# Which thread may use which queue and which endpoint

A lock-free queue takes one producer and one consumer. The roles are never assigned explicitly:
queues and endpoints are kept by topic, threads are created by a loop over the topics vector, and
every `start()` creates them anew. The roles are kept as long as no topic occurs twice and no
`start()` comes before the `stop()` of the one before it.
-/
namespace MessagePass.ThreadRoles
open Std RequestMessages ReceiveQueues LabelledRuns SinkQueues

abbrev TopicVector := { topics : List Str // topics.length < 2 ^ 64 }

/-- The queues and the live threads of a `MessageSource`, which look their queues up by topic. -/
structure MessageSource where
  topics : List Str
  readys : ExtTreeMap Str ℕ := ∅
  requestQueues : ExtTreeMap Str ℕ := ∅
  created : ℕ := 0
  recvRequestThreads : List Str := []
  taskThreads : List Str := []

inductive Lifecycle | start | stop deriving DecidableEq

namespace MessageSource

def addQueues (s : MessageSource) (topic : Str) : MessageSource :=
  { s with
    readys := s.readys.insert topic s.created
    requestQueues := s.requestQueues.insert topic (s.created + 1)
    created := s.created + 2 }

def init (topics : List Str) : MessageSource := topics.foldl addQueues { topics := topics }

/-- `stop` returns when every thread of both groups has left its loop. -/
def next (s : MessageSource) : Lifecycle → Option MessageSource
  | .start => some { s with
      recvRequestThreads := s.recvRequestThreads ++ s.topics
      taskThreads := s.taskThreads ++ s.topics }
  | .stop => some { s with recvRequestThreads := [], taskThreads := [] }

def Apart (queues : ExtTreeMap Str ℕ) (a b : Str) : Prop :=
  ∀ queue, ¬ (queues[a]? = some queue ∧ queues[b]? = some queue)

/-- At most one live thread dequeues from each queue, and at most one enqueues requests. -/
structure Roles (s : MessageSource) : Prop where
  readyConsumer : s.taskThreads.Pairwise (Apart s.readys)
  requestConsumer : s.taskThreads.Pairwise (Apart s.requestQueues)
  requestProducer : s.recvRequestThreads.Pairwise (Apart s.requestQueues)

/-- The condition on a step: the topics are distinct, and all threads have been stopped. -/
def disciplined (s : MessageSource) : Lifecycle → Bool
  | .start => decide s.topics.Nodup && s.taskThreads.isEmpty && s.recvRequestThreads.isEmpty
  | .stop => true

structure Separate (queues : ExtTreeMap Str ℕ) (created : ℕ) : Prop where
  lt : ∀ (a : Str) queue, queues[a]? = some queue → queue < created
  injective : ∀ (a b : Str) queue, queues[a]? = some queue → queues[b]? = some queue → a = b

theorem separate_empty : Separate ∅ 0 := ⟨by simp, by simp⟩

theorem Separate.insert {queues : ExtTreeMap Str ℕ} {created queue next : ℕ}
    (h : Separate queues created) (topic : Str) (hq : created ≤ queue) (hn : queue < next) :
    Separate (queues.insert topic queue) next where
  lt := by
    intro a q ha
    rw [ExtTreeMap.getElem?_insert] at ha
    split at ha
    · cases ha
      exact hn
    · exact ((h.lt a q ha).trans_le hq).trans hn
  injective := by
    intro a b q ha hb
    rw [ExtTreeMap.getElem?_insert] at ha hb
    split at ha <;> rename_i hta <;> split at hb <;> rename_i htb
    · exact (LawfulEqOrd.eq_of_compare hta).symm.trans (LawfulEqOrd.eq_of_compare htb)
    · cases ha
      exact absurd (h.lt b _ hb) (Nat.not_lt.mpr hq)
    · cases hb
      exact absurd (h.lt a _ ha) (Nat.not_lt.mpr hq)
    · exact h.injective a b q ha hb

/-- Topics have queues of their own, and no topic has two live threads of a kind. -/
structure Separated (s : MessageSource) : Prop where
  readys : Separate s.readys s.created
  requestQueues : Separate s.requestQueues s.created
  tasks : s.taskThreads.Nodup
  receivers : s.recvRequestThreads.Nodup

theorem separated_init (topics : List Str) : Separated (init topics) := by
  have hfold : ∀ (ts : List Str) (s : MessageSource), Separated s →
      Separated (ts.foldl addQueues s) := by
    intro ts
    induction ts with
    | nil => exact fun s h => h
    | cons topic ts ih =>
      intro s h
      exact ih _
        { readys := h.readys.insert topic le_rfl (Nat.lt_add_of_pos_right two_pos)
          requestQueues := h.requestQueues.insert topic (Nat.le_succ _) (Nat.lt_succ_self _)
          tasks := h.tasks
          receivers := h.receivers }
  exact hfold topics _ ⟨separate_empty, separate_empty, .nil, .nil⟩

theorem Separated.step {s t : MessageSource} (h : Separated s) {a : Lifecycle}
    (ha : disciplined s a = true) (hs : next s a = some t) : Separated t := by
  cases a with
  | start =>
    cases hs
    simp only [disciplined, Bool.and_eq_true, decide_eq_true_eq, List.isEmpty_iff] at ha
    obtain ⟨⟨hnodup, htasks⟩, hreceivers⟩ := ha
    exact ⟨h.readys, h.requestQueues, by simpa [htasks] using hnodup,
      by simpa [hreceivers] using hnodup⟩
  | stop =>
    cases hs
    exact ⟨h.readys, h.requestQueues, .nil, .nil⟩

theorem Separated.roles {s : MessageSource} (h : Separated s) : Roles s := by
  have hapart : ∀ {queues : ExtTreeMap Str ℕ}, Separate queues s.created → ∀ {a b : Str},
      a ≠ b → Apart queues a b :=
    fun hsep _ _ hne queue hboth => hne (hsep.injective _ _ queue hboth.1 hboth.2)
  exact ⟨h.tasks.imp (hapart h.readys), h.tasks.imp (hapart h.requestQueues),
    h.receivers.imp (hapart h.requestQueues)⟩

theorem roles_reachable {topics : List Str} {s : MessageSource}
    (h : Reachable (guarded (fun u a => disciplined u a = true) next) (init topics) s) : Roles s :=
  (h.invariant (separated_init topics) fun _ _ _ hu hv =>
    hu.step (guarded_eq_some.mp hv).1 (guarded_eq_some.mp hv).2).roles

end MessageSource

theorem ofDigits_decimal (w : UInt64) :
    Nat.ofDigits 10 ((decimal w).reverse.map fun b => b.toNat - 48) = w.toNat := by
  by_cases hw : w = 0
  · subst hw
    decide
  · have hdigit : ∀ d ∈ Nat.digits 10 w.toNat, (UInt8.ofNat (48 + d)).toNat - 48 = d := by
      intro d hd
      have hlt : d < 10 := Nat.digits_lt_base (by decide) hd
      rw [UInt8.toNat_ofNat_of_lt' (by rw [UInt8.size]; omega)]
      omega
    have hmap : (Nat.digits 10 w.toNat).map (fun d => (UInt8.ofNat (48 + d)).toNat - 48) =
        Nat.digits 10 w.toNat := (List.map_congr_left hdigit).trans (List.map_id' _)
    rw [decimal, if_neg hw, List.reverse_reverse, List.map_map]
    exact (congrArg (Nat.ofDigits 10) hmap).trans (Nat.ofDigits_digits 10 _)

theorem decimal_injective : Function.Injective decimal := fun a b h =>
  UInt64.toNat_inj.mp (by rw [← ofDigits_decimal a, h, ofDigits_decimal b])

variable {T : Type}

theorem endpoint_injective (serverIp : Str) (serverPort : Int32) {i j : ℕ} (hi : i < 2 ^ 64)
    (hj : j < 2 ^ 64) (h : endpoint serverIp serverPort i = endpoint serverIp serverPort j) :
    i = j := by
  have hsum := decimal_injective (List.append_cancel_left h)
  have hword : UInt64.ofNat i = UInt64.ofNat j := (UInt64.add_right_inj _).mp hsum
  have hnat := congrArg UInt64.toNat hword
  rwa [UInt64.toNat_ofNat_of_lt' hi, UInt64.toNat_ofNat_of_lt' hj] at hnat

theorem assignEndpoints_eq (serverIp : Str) (serverPort : Int32) (topics : List Str) (i : ℕ)
    (m : ExtTreeMap Str Str) (topic e : Str)
    (h : (assignEndpoints serverIp serverPort i topics m)[topic]? = some e) :
    (∃ j, topics[j]? = some topic ∧ e = endpoint serverIp serverPort (i + j)) ∨
      m[topic]? = some e := by
  induction topics generalizing i m with
  | nil => exact .inr h
  | cons t topics ih =>
    rcases ih (i + 1) _ h with ⟨j, hj, rfl⟩ | hm
    · exact .inl ⟨j + 1, hj, by rw [Nat.add_right_comm, Nat.add_assoc]⟩
    · rw [ExtTreeMap.getElem?_insert] at hm
      split at hm <;> rename_i ht
      · cases hm
        exact .inl ⟨0, by simp [LawfulEqOrd.eq_of_compare ht], rfl⟩
      · exact .inr hm

theorem mem_assignEndpoints (serverIp : Str) (serverPort : Int32) {topics : List Str} (i : ℕ)
    {m : ExtTreeMap Str Str} {topic : Str} (h : topic ∈ topics ∨ topic ∈ m) :
    topic ∈ assignEndpoints serverIp serverPort i topics m := by
  induction topics generalizing i m with
  | nil => exact h.resolve_left (by simp)
  | cons t topics ih =>
    apply ih (i + 1)
    rcases h with h | h
    · rcases List.mem_cons.mp h with rfl | h
      · exact .inr (by simp)
      · exact .inl h
    · exact .inr (by simp [h])

/-- Thread `a` and thread `b` do not enqueue to one queue and do not bind one endpoint. -/
structure ReceiveThread.Apart (a b : ReceiveThread) : Prop where
  queues : ∀ source other : UInt64, ∀ queue : ℕ,
    ¬ (a.queues[source]? = some (some queue) ∧ b.queues[other]? = some (some queue))
  endpoint : ∀ e, ¬ (a.endpoint = some e ∧ b.endpoint = some e)

namespace Sink

/-- At most one live thread enqueues to each queue and binds each endpoint, and a request carries
the endpoint that the thread of its topic binds. -/
structure Roles (s : Sink T) : Prop where
  apart : s.threads.Pairwise ReceiveThread.Apart
  addressed : ∀ sent ∈ s.requested, ∀ thread ∈ s.threads, thread.topic = sent.1 →
    ∀ e, thread.endpoint = some e → sent.2.sink = e

/-- The condition on a step: the topics are distinct, and all threads have been stopped. -/
def disciplined (s : Sink T) : SinkLabel T → Bool
  | .start => decide s.topics.Nodup && s.threads.isEmpty
  | _ => true

/-- What the maps made by `init` say, and that no topic has two live threads. -/
structure Assigned (serverIp : Str) (serverPort : Int32) (topics : List Str) (s : Sink T) :
    Prop where
  topics_eq : s.topics = topics
  topicSink_eq : s.topicSink = assignEndpoints serverIp serverPort 0 topics ∅
  nodup : (s.threads.map (·.topic)).Nodup
  known : ∀ thread ∈ s.threads, thread.topic ∈ topics
  bound : ∀ thread ∈ s.threads, ∀ e, thread.endpoint = some e → e = s.sinkOf thread.topic
  requested : ∀ sent ∈ s.requested, sent.2.sink = s.sinkOf sent.1

theorem assigned_init (serverIp : Str) (serverPort : Int32) (topics : List Str) :
    Assigned serverIp serverPort topics (Sink.init serverIp serverPort topics : Sink T) where
  topics_eq := rfl
  topicSink_eq := rfl
  nodup := .nil
  known := by simp [Sink.init]
  bound := by simp [Sink.init]
  requested := by simp [Sink.init]

theorem map_topic_set {threads : List ReceiveThread} {n : ℕ} {old new : ReceiveThread}
    (hn : threads[n]? = some old) (ht : new.topic = old.topic) :
    (threads.set n new).map (·.topic) = threads.map (·.topic) := by
  rw [List.map_set, ht]
  apply List.ext_getElem?
  intro i
  rw [List.getElem?_set]
  split
  · subst_vars
    obtain ⟨hlt, heq⟩ := List.getElem?_eq_some_iff.mp hn
    simp [hlt, heq]
  · rfl

namespace Assigned
variable {serverIp : Str} {serverPort : Int32} {topics : List Str} {s t : Sink T}

theorem setThread (h : Assigned serverIp serverPort topics s) {n : ℕ} {old new : ReceiveThread}
    (hn : s.threads[n]? = some old) (hthreads : t.threads = s.threads.set n new)
    (ht : new.topic = old.topic) (he : ∀ e, new.endpoint = some e → e = s.sinkOf new.topic)
    (htopics : t.topics = s.topics)
    (hsink : t.topicSink = s.topicSink) (hrequested : t.requested = s.requested) :
    Assigned serverIp serverPort topics t := by
  have hsame : ∀ topic, t.sinkOf topic = s.sinkOf topic :=
    fun topic => by rw [Sink.sinkOf, hsink, Sink.sinkOf]
  refine
    { topics_eq := htopics.trans h.topics_eq
      topicSink_eq := hsink.trans h.topicSink_eq
      nodup := by rw [hthreads, map_topic_set hn ht]; exact h.nodup
      known := fun thread hmem => ?_
      bound := fun thread hmem => ?_
      requested := fun sent hmem => by rw [hsame]; exact h.requested sent (hrequested ▸ hmem) }
  · rw [hthreads] at hmem
    rcases List.mem_or_eq_of_mem_set hmem with hmem | rfl
    · exact h.known thread hmem
    · exact ht ▸ h.known old (List.mem_of_getElem? hn)
  · rw [hthreads] at hmem
    rw [hsame]
    rcases List.mem_or_eq_of_mem_set hmem with hmem | rfl
    · exact h.bound thread hmem
    · exact he

theorem move (h : Assigned serverIp serverPort topics s) {a : SinkLabel T}
    (ha : disciplined s a = true) (hm : SinkMove s a t) :
    Assigned serverIp serverPort topics t := by
  cases hm with
  | prepareSources topic sources hidle =>
    exact ⟨h.topics_eq, h.topicSink_eq, h.nodup, h.known, h.bound, h.requested⟩
  | start =>
    simp only [disciplined, Bool.and_eq_true, decide_eq_true_eq, List.isEmpty_iff] at ha
    obtain ⟨hnodup, hidle⟩ := ha
    have hnew : ∀ thread ∈ (Sink.start s).threads, ∃ topic ∈ s.topics,
        thread = { topic := topic } := by
      simp [Sink.start, hidle, eq_comm]
    refine
      { topics_eq := h.topics_eq
        topicSink_eq := h.topicSink_eq
        nodup := by simpa [Sink.start, hidle, Function.comp_def] using hnodup
        known := fun thread hmem => ?_
        bound := fun thread hmem => ?_
        requested := fun sent hmem => ?_ }
    · obtain ⟨topic, htopic, rfl⟩ := hnew thread hmem
      exact h.topics_eq ▸ htopic
    · obtain ⟨topic, -, rfl⟩ := hnew thread hmem
      simp
    · rcases List.mem_append.mp hmem with hmem | hmem
      · exact h.requested sent hmem
      · obtain ⟨topic, -, rfl⟩ := List.mem_map.mp hmem
        rfl
  | enter n topic queues hn =>
    exact h.setThread hn rfl rfl (fun e he => (Option.some.inj he).symm) rfl rfl rfl
  | receive n thread source msg hn hbound =>
    unfold Sink.receive
    simp only
    split
    · exact { h with }
    · exact h.setThread hn rfl rfl (h.bound thread (List.mem_of_getElem? hn)) rfl rfl rfl
  | getMsg topic source =>
    unfold Sink.getMsg
    split
    · exact ⟨h.topics_eq, h.topicSink_eq, h.nodup, h.known, h.bound, h.requested⟩
    · exact h
    · split
      · exact h
      · exact ⟨h.topics_eq, h.topicSink_eq, h.nodup, h.known, h.bound, h.requested⟩
  | request a topic request hsink =>
    exact { h with requested := forall_mem_concat h.requested (hsink _) }
  | stop => exact ⟨h.topics_eq, h.topicSink_eq, .nil, by simp, by simp, h.requested⟩

/-- Different topics of the vector have different endpoints. -/
theorem sinkOf_injective (h : Assigned serverIp serverPort topics s)
    (hlength : topics.length < 2 ^ 64) {a b : Str} (ha : a ∈ topics) (hb : b ∈ topics)
    (heq : s.sinkOf a = s.sinkOf b) : a = b := by
  have hposition : ∀ {topic}, topic ∈ topics → ∃ j : ℕ, topics[j]? = some topic ∧ j < 2 ^ 64 ∧
      s.sinkOf topic = endpoint serverIp serverPort j := by
    intro topic hmem
    have hentry := mem_assignEndpoints serverIp serverPort (m := ∅) 0 (Or.inl hmem)
    obtain ⟨e, he⟩ := Option.isSome_iff_exists.mp (ExtTreeMap.mem_iff_isSome_getElem?.mp hentry)
    obtain ⟨j, hj, rfl⟩ :=
      (assignEndpoints_eq serverIp serverPort topics 0 ∅ topic e he).resolve_right (by simp)
    have hlt : j < topics.length := (List.getElem?_eq_some_iff.mp hj).1
    refine ⟨j, hj, hlt.trans hlength, ?_⟩
    rw [Sink.sinkOf, h.topicSink_eq, ExtTreeMap.getD_eq_getD_getElem?, he, Option.getD_some,
      Nat.zero_add]
  obtain ⟨i, hi, hilt, hia⟩ := hposition ha
  obtain ⟨j, hj, hjlt, hjb⟩ := hposition hb
  obtain rfl : i = j :=
    endpoint_injective serverIp serverPort hilt hjlt (hia.symm.trans (heq.trans hjb))
  exact Option.some.inj (hi.symm.trans hj)

theorem roles (h : Assigned serverIp serverPort topics s) (howned : Owned s)
    (hlength : topics.length < 2 ^ 64) : Roles s where
  apart := by
    obtain ⟨owner, -, hthreads, -⟩ := howned
    have hne : s.threads.Pairwise fun a b => a.topic ≠ b.topic := List.pairwise_map.mp h.nodup
    refine hne.imp_of_mem fun {a b} ha hb hab => ⟨?_, ?_⟩
    · rintro source other queue ⟨hqa, hqb⟩
      have howna := (hthreads a ha source queue (QueueTable.queueOf_eq_some.mpr hqa)).2
      have hownb := (hthreads b hb other queue (QueueTable.queueOf_eq_some.mpr hqb)).2
      exact hab (congrArg Prod.fst (howna.symm.trans hownb))
    · rintro e ⟨hea, heb⟩
      refine hab (h.sinkOf_injective hlength (h.known a ha) (h.known b hb) ?_)
      rw [← h.bound a ha e hea, h.bound b hb e heb]
  addressed := by
    intro sent hsent thread hthread htopic e he
    rw [h.requested sent hsent, h.bound thread hthread e he, htopic]

end Assigned

theorem roles_reachable {serverIp : Str} {serverPort : Int32} {topics : List Str} {s : Sink T}
    (hlength : topics.length < 2 ^ 64)
    (h : Reachable (guarded (fun u a => disciplined u a = true) sinkNext)
      (Sink.init serverIp serverPort topics) s) : Roles s := by
  have hassigned : Assigned serverIp serverPort topics s :=
    h.invariant (assigned_init serverIp serverPort topics) fun _ _ _ hu hv =>
      hu.move (guarded_eq_some.mp hv).1 (sinkMove_of_next (guarded_eq_some.mp hv).2)
  exact hassigned.roles (owned_reachable h.of_guarded) hlength

end Sink

/-- With distinct topics, and every `start()` stopped before the next, queues and endpoints keep
to one thread in both classes. -/
theorem disciplined_lifecycles_keep_roles (serverIp : Str) (serverPort : Int32)
    (topics : TopicVector) :
    (∀ s, Reachable (guarded (fun u a => MessageSource.disciplined u a = true) MessageSource.next)
      (MessageSource.init topics.val) s → MessageSource.Roles s) ∧
    ∀ s : Sink T, Reachable (guarded (fun u a => Sink.disciplined u a = true) sinkNext)
      (Sink.init serverIp serverPort topics.val) s → Sink.Roles s :=
  ⟨fun _ => MessageSource.roles_reachable, fun _ => Sink.roles_reachable topics.property⟩

/-- Two topics, each class started again after a stop. -/
theorem disciplined_lifecycles_keep_roles_example :
    (∃ s, run (guarded (fun u a => MessageSource.disciplined u a = true) MessageSource.next)
        (MessageSource.init [[116], [117]]) [.start, .stop, .start] = some s ∧
      s.taskThreads = [[116], [117]] ∧ MessageSource.Roles s) ∧
    ∃ s : Sink DataMessages.ByteMessage,
      run (guarded (fun u a => Sink.disciplined u a = true) sinkNext)
        (Sink.init [49] 5555 [[116], [117]])
        [.prepareSources [116] [5], .start, .stop, .start, .enter 0, .enter 1] = some s ∧
      s.threads.map (·.endpoint.isSome) = [true, true] ∧ Sink.Roles s := by
  have hroles := disciplined_lifecycles_keep_roles (T := DataMessages.ByteMessage) [49] 5555
    ⟨[[116], [117]], by decide⟩
  have hsource : (run (guarded (fun u a => MessageSource.disciplined u a = true) MessageSource.next)
      (MessageSource.init [[116], [117]]) [.start, .stop, .start]).map (·.taskThreads) =
        some [[116], [117]] := by decide +kernel
  have hsink : (run (guarded (fun u a => Sink.disciplined u a = true) sinkNext)
      (Sink.init [49] 5555 [[116], [117]] : Sink DataMessages.ByteMessage)
      [.prepareSources [116] [5], .start, .stop, .start, .enter 0, .enter 1]).map
        (fun s => s.threads.map (·.endpoint.isSome)) = some [true, true] := by decide +kernel
  obtain ⟨s, hs, hthreads⟩ := Option.map_eq_some_iff.mp hsource
  obtain ⟨t, ht, hbound⟩ := Option.map_eq_some_iff.mp hsink
  exact ⟨⟨s, hs, hthreads, hroles.1 s ⟨_, hs⟩⟩, t, ht, hbound, hroles.2 t ⟨_, ht⟩⟩

/-- A topic that is listed twice has two task threads that dequeue from one queue. -/
theorem repeated_topic_breaks_roles :
    ¬ ∀ (serverIp : Str) (serverPort : Int32) (topics : TopicVector),
      (∀ s, Reachable MessageSource.next (MessageSource.init topics.val) s →
        MessageSource.Roles s) ∧
      ∀ s : Sink DataMessages.ByteMessage,
        Reachable sinkNext (Sink.init serverIp serverPort topics.val) s → Sink.Roles s := by
  intro h
  have hroles := (h [49] 5555 ⟨[[116], [116]], by decide⟩).1 _ ⟨[.start], rfl⟩
  exact (List.pairwise_pair.mp hroles.readyConsumer) 2 ⟨by decide, by decide⟩

end MessagePass.ThreadRoles
