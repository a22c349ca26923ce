import MessagePass.DataMessages
import MessagePass.SinkQueues

/-!
# Fetching what was received

The map of a receive thread and the map that `get_msg` reads agree as long as every message comes
from a source that was prepared before the thread started, and no source is prepared again while
it has unread messages. A message of a source that the thread does not know goes into a queue
that only the thread can see.
-/
namespace MessagePass.SinkQueues
open Std RequestMessages ReceiveQueues LabelledRuns

variable {T : Type}

def messagesOf (log : List (Str × UInt64 × T)) (topic : Str) (source : UInt64) : List T :=
  (log.filter fun entry => entry.1 = topic ∧ entry.2.1 = source).map fun entry => entry.2.2

theorem messagesOf_concat (log : List (Str × UInt64 × T)) (topic t : Str) (source u : UInt64)
    (msg : T) : messagesOf (log ++ [(topic, source, msg)]) t u =
      if topic = t ∧ source = u then messagesOf log t u ++ [msg] else messagesOf log t u := by
  by_cases h : topic = t ∧ source = u
  · simp [messagesOf, h]
  · simp [messagesOf, h]

/-- The condition on a step: a message comes from a source that has a queue in the map of the
thread, and a source with unread messages is not prepared again. -/
def registered (s : Sink T) : SinkLabel T → Bool
  | .receive n source _ => match s.threads[n]? with
    | some thread => ((s.threadTable thread).queueOf source).isSome
    | none => true
  | .prepareSources topic sources => sources.all fun source => (s.unread topic source).isEmpty
  | _ => true

/-- What was received is what was fetched and then what `get_msg` would still return, and both
maps of a topic assign the same queue to every source. -/
structure Fetchable (s : Sink T) : Prop where
  defined : s.undefined = false
  complete : ∀ topic source, messagesOf s.received topic source =
    messagesOf s.fetched topic source ++ s.unread topic source
  agree : ∀ thread ∈ s.threads, thread.endpoint.isSome = true → ∀ source,
    (s.threadTable thread).queueOf source = s.queueOf thread.topic source

theorem unread_eq {s : Sink T} {topic : Str} {source : UInt64} {queue : ℕ}
    (h : s.queueOf topic source = some queue) : s.unread topic source = s.contents queue := by
  simp [Sink.unread, h]

theorem unread_congr {s t : Sink T} {topic : Str} {source : UInt64}
    (hq : t.queueOf topic source = s.queueOf topic source)
    (hc : ∀ queue, s.queueOf topic source = some queue → t.contents queue = s.contents queue) :
    t.unread topic source = s.unread topic source := by
  unfold Sink.unread
  rw [hq]
  cases hqueue : s.queueOf topic source with
  | none => rfl
  | some queue => exact hc queue hqueue

theorem queueOf_insert {s t : Sink T} {topic : Str} {queues : QueueMap}
    (h : t.recvs = s.recvs.insert topic queues) (other : Str) (source : UInt64) :
    t.queueOf other source =
      if topic = other then queues[source]?.join else s.queueOf other source := by
  simp only [Sink.queueOf, Sink.tableOf, QueueTable.queueOf, h, ExtTreeMap.getD_insert,
    LawfulEqOrd.compare_eq_iff_eq]
  split <;> rfl

namespace Owned
variable {s : Sink T}

theorem queue_injective (h : Owned s) {t u : Str} {a b : UInt64} {queue : ℕ}
    (ha : s.queueOf t a = some queue) (hb : s.queueOf u b = some queue) : t = u ∧ a = b := by
  obtain ⟨owner, hrecvs, -, -⟩ := h
  exact Prod.mk.inj ((hrecvs t a queue ha).2.symm.trans (hrecvs u b queue hb).2)

theorem unread_update (h : Owned s) {t : Sink T} {topic : Str} {source : UInt64} {queue : ℕ}
    {msgs : List T} (hq : s.queueOf topic source = some queue)
    (hsame : t.recvs = s.recvs)
    (hc : t.contents = Function.update s.contents queue msgs) (other : Str) (src : UInt64) :
    t.unread other src = if topic = other ∧ source = src then msgs else s.unread other src := by
  have hqueue : ∀ u a, t.queueOf u a = s.queueOf u a := fun u a => by
    simp only [Sink.queueOf, Sink.tableOf, QueueTable.queueOf, hsame]
  split <;> rename_i heq
  · obtain ⟨rfl, rfl⟩ := heq
    rw [unread_eq ((hqueue _ _).trans hq), hc, Function.update_self]
  · apply unread_congr (hqueue other src)
    intro q hother
    have hne : q ≠ queue := by
      rintro rfl
      exact heq (h.queue_injective hq hother)
    rw [hc, Function.update_of_ne hne]

theorem unread_prepareSources (h : Owned s) {topic : Str} {sources : List UInt64}
    (hread : ∀ source ∈ sources, s.unread topic source = []) (other : Str) (source : UInt64) :
    (s.prepareSources topic sources).unread other source = s.unread other source := by
  have hqueue := queueOf_insert (s := s) (t := s.prepareSources topic sources) rfl other source
  by_cases ht : topic = other
  · subst ht
    rw [if_pos rfl] at hqueue
    by_cases hmem : source ∈ sources
    · -- the new queue is empty, and so was the old one
      obtain ⟨n, hn, hnew⟩ := QueueTable.queueOf_prepareSources_of_mem (t := s.tableOf topic) hmem
      obtain ⟨owner, -, -, hempty⟩ := h
      rw [unread_eq (hqueue.trans hnew), hread source hmem]
      exact hempty n hn
    · refine unread_congr (hqueue.trans ?_) fun _ _ => rfl
      exact QueueTable.queueOf_prepareSources_of_notMem (t := s.tableOf topic) hmem
  · rw [if_neg ht] at hqueue
    exact unread_congr hqueue fun _ _ => rfl

end Owned

theorem fetchable_init (serverIp : Str) (serverPort : Int32) (topics : List Str) :
    Fetchable (Sink.init serverIp serverPort topics : Sink T) where
  defined := rfl
  complete topic source := by
    simp [Sink.unread, Sink.queueOf, Sink.tableOf, Sink.init, recvs_init topics ∅ (by simp),
      QueueTable.queueOf, messagesOf]
  agree := by simp [Sink.init]

namespace Fetchable
variable {s t : Sink T}

theorem of_same (h : Fetchable s) (hd : t.undefined = s.undefined) (hr : t.received = s.received)
    (hf : t.fetched = s.fetched)
    (hu : ∀ topic source, t.unread topic source = s.unread topic source)
    (hagree : ∀ thread ∈ t.threads, thread.endpoint.isSome = true → ∀ source,
      (t.threadTable thread).queueOf source = t.queueOf thread.topic source) : Fetchable t where
  defined := hd.trans h.defined
  complete topic source := by rw [hr, hf, hu, h.complete]
  agree := hagree

theorem enter (h : Fetchable s) {n : ℕ} {topic : Str} :
    Fetchable { s with
      recvs := s.recvs.insert topic (s.tableOf topic).queues
      threads := s.threads.set n ⟨topic, (s.tableOf topic).queues, some (s.sinkOf topic)⟩ } := by
  have hqueue : ∀ other source, Sink.queueOf { s with
      recvs := s.recvs.insert topic (s.tableOf topic).queues
      threads := s.threads.set n ⟨topic, (s.tableOf topic).queues, some (s.sinkOf topic)⟩ }
      other source = s.queueOf other source := by
    intro other source
    rw [queueOf_insert (s := s) rfl]
    split <;> rename_i ht
    · exact ht ▸ rfl
    · rfl
  refine h.of_same rfl rfl rfl (fun t u => unread_congr (hqueue t u) fun _ _ => rfl) ?_
  intro thread hmem hbound source
  rw [hqueue]
  rcases List.mem_or_eq_of_mem_set hmem with hmem | rfl
  · exact h.agree thread hmem hbound source
  · rfl

theorem receive (h : Fetchable s) (howned : Owned s) {n : ℕ} {thread : ReceiveThread}
    (hn : s.threads[n]? = some thread) (hbound : thread.endpoint.isSome = true) {source : UInt64}
    {queue : ℕ} (hqueue : (s.threadTable thread).queueOf source = some queue) (msg : T) :
    Fetchable (s.receive n thread source msg) := by
  have hmem := List.mem_of_getElem? hn
  have hq : s.queueOf thread.topic source = some queue := by
    rw [← h.agree thread hmem hbound, hqueue]
  simp only [Sink.receive, QueueTable.findOrInsert_of_queueOf hqueue, hqueue]
  refine ⟨h.defined, fun topic src => ?_, fun th hth hb src => ?_⟩
  · refine (messagesOf_concat ..).trans (Eq.trans ?_ (congrArg (messagesOf s.fetched topic src ++ ·)
      (howned.unread_update hq (by rfl) (by rfl) topic src).symm))
    split <;> rename_i heq
    · obtain ⟨rfl, rfl⟩ := heq
      rw [h.complete, unread_eq hq, List.append_assoc]
    · exact h.complete topic src
  · rcases List.mem_or_eq_of_mem_set hth with hth | rfl
    · exact h.agree th hth hb src
    · exact h.agree thread hmem hbound src

theorem getMsg (h : Fetchable s) (howned : Owned s) (topic : Str) (source : UInt64) :
    Fetchable (s.getMsg topic source) := by
  unfold Sink.getMsg
  split
  · rename_i hnone
    have hqueue : ∀ other src, Sink.queueOf { s with
        recvs := s.recvs.insert topic ((s.tableOf topic).queues.insert source none) } other src =
          s.queueOf other src := by
      intro other src
      rw [queueOf_insert (s := s) rfl]
      split <;> rename_i ht
      · subst ht
        rw [ExtTreeMap.getElem?_insert]
        split <;> rename_i hs
        · rw [← LawfulEqOrd.eq_of_compare hs]
          simp [Sink.queueOf, QueueTable.queueOf, hnone]
        · rfl
      · rfl
    refine h.of_same rfl rfl rfl (fun t u => unread_congr (hqueue t u) fun _ _ => rfl) ?_
    intro thread hmem hbound src
    rw [hqueue]
    exact h.agree thread hmem hbound src
  · exact h
  · rename_i queue hsome
    have hq : s.queueOf topic source = some queue := QueueTable.queueOf_eq_some.mpr hsome
    split <;> rename_i hcontents
    · exact h
    · rename_i msg rest
      refine ⟨h.defined, fun t u => ?_, h.agree⟩
      refine Eq.trans ?_ (congrArg₂ (· ++ ·) (messagesOf_concat ..).symm
        (howned.unread_update hq (by rfl) (by rfl) t u).symm)
      split <;> rename_i heq
      · obtain ⟨rfl, rfl⟩ := heq
        rw [h.complete, unread_eq hq, hcontents, List.append_assoc, List.singleton_append]
      · exact h.complete t u

theorem move (h : Fetchable s) (howned : Owned s) {a : SinkLabel T} (ha : registered s a = true)
    (hm : SinkMove s a t) : Fetchable t := by
  cases hm with
  | prepareSources topic sources hidle =>
    have hread : ∀ source ∈ sources, s.unread topic source = [] := by simpa [registered] using ha
    refine h.of_same rfl rfl rfl (howned.unread_prepareSources hread) ?_
    intro thread hmem
    have hnone : thread ∈ s.threads := hmem
    simp [hidle] at hnone
  | start =>
    refine h.of_same rfl rfl rfl (fun _ _ => rfl) fun thread hmem hbound => ?_
    rcases List.mem_append.mp hmem with hmem | hmem
    · exact h.agree thread hmem hbound
    · obtain ⟨topic, -, rfl⟩ := List.mem_map.mp hmem
      simp at hbound
  | enter n topic queues hn => exact h.enter
  | receive n thread source msg hn hbound =>
    simp only [registered, hn] at ha
    obtain ⟨queue, hqueue⟩ := Option.isSome_iff_exists.mp ha
    exact h.receive howned hn hbound hqueue msg
  | getMsg topic source => exact h.getMsg howned topic source
  | request a topic request hsink => exact ⟨h.defined, h.complete, h.agree⟩
  | stop => exact h.of_same rfl rfl rfl (fun _ _ => rfl) (by simp)

end Fetchable

theorem fetched_getMsg {s : Sink T} (howned : Owned s) {topic : Str} {source : UInt64} {msg : T}
    {rest : List T} (h : s.unread topic source = msg :: rest) :
    (s.getMsg topic source).unread topic source = rest ∧
      (s.getMsg topic source).received = s.received := by
  cases hq : s.queueOf topic source with
  | none => simp [Sink.unread, hq] at h
  | some queue =>
    have hsome := QueueTable.queueOf_eq_some.mp hq
    rw [unread_eq hq] at h
    simp only [Sink.getMsg, hsome, h, and_true]
    exact (howned.unread_update hq (by rfl) (by rfl) topic source).trans (if_pos ⟨rfl, rfl⟩)

/-- Successive `get_msg` calls return everything received, in the order of arrival. -/
theorem drains {s : Sink T} (h : Fetchable s) (howned : Owned s) (topic : Str) (source : UInt64) :
    ∃ t, run sinkNext s (List.replicate (s.unread topic source).length (.getMsg topic source)) =
      some t ∧ messagesOf t.fetched topic source = messagesOf s.received topic source := by
  generalize hu : s.unread topic source = msgs
  induction msgs generalizing s with
  | nil => exact ⟨s, rfl, by rw [h.complete, hu, List.append_nil]⟩
  | cons msg rest ih =>
    obtain ⟨hrest, hreceived⟩ := fetched_getMsg howned hu
    obtain ⟨t, ht, hfetched⟩ :=
      ih (h.getMsg howned topic source) (howned.getMsg topic source) hrest
    exact ⟨t, ht, by rw [hfetched, hreceived]⟩

/-- As long as every message comes from a source that is registered with the receive thread, and
no source is prepared again over unread messages, everything received can be fetched. -/
theorem registered_messages_fetchable {serverIp : Str} {serverPort : Int32} {topics : List Str}
    {s : Sink T} (h : Reachable (guarded (fun u a => registered u a = true) sinkNext)
      (Sink.init serverIp serverPort topics) s) :
    Fetchable s ∧ ∀ topic source, ∃ t,
      run sinkNext s (List.replicate (s.unread topic source).length (.getMsg topic source)) =
        some t ∧ messagesOf t.fetched topic source = messagesOf s.received topic source := by
  have howned : Owned s := owned_reachable h.of_guarded
  have hfetch : Fetchable s := by
    refine h.invariant_with (J := Owned) (fun u hu => owned_reachable hu.of_guarded)
      (fetchable_init serverIp serverPort topics) ?_
    intro u a v hu hf hv
    obtain ⟨ha, hs⟩ := guarded_eq_some.mp hv
    exact hf.move hu ha (sinkMove_of_next hs)
  exact ⟨hfetch, drains hfetch howned⟩

/-- A prepared source, messages in two sessions and a look-up of an unknown source in between. -/
private def registeredSession : List (SinkLabel DataMessages.ByteMessage) :=
  [.prepareSources [116] [5], .start, .enter 0, .receive 0 5 (.ofBytes [1]),
    .receive 0 5 (.ofBytes [2]), .getMsg [116] 5, .stop, .getMsg [116] 6, .start, .enter 0,
    .receive 0 5 (.ofBytes [3])]

theorem registered_messages_fetchable_example :
    ∃ s, run (guarded (fun u a => registered u a = true) sinkNext) (Sink.init [49] 5555 [[116]])
        registeredSession = some s ∧
      s.unread [116] 5 = [.ofBytes [2], .ofBytes [3]] ∧ Fetchable s := by
  have hunread : (run (guarded (fun u a => registered u a = true) sinkNext)
      (Sink.init [49] 5555 [[116]]) registeredSession).map (fun s => s.unread [116] 5) =
        some [.ofBytes [2], .ofBytes [3]] := by decide +kernel
  obtain ⟨s, hs, heq⟩ := Option.map_eq_some_iff.mp hunread
  exact ⟨s, hs, heq, (registered_messages_fetchable ⟨_, hs⟩).1⟩

/-- A message of a source that was not prepared is in no queue that `get_msg` reads. -/
theorem unprepared_message_unfetchable :
    ¬ ∀ s : Sink DataMessages.ByteMessage,
      Reachable sinkNext (Sink.init [49] 5555 [[116]]) s → Fetchable s := by
  intro h
  have hlost : (run sinkNext (Sink.init [49] 5555 [[116]])
      [.start, .enter 0, .receive 0 5 (DataMessages.ByteMessage.ofBytes [1])]).map
        (fun s => (messagesOf s.received [116] 5, messagesOf s.fetched [116] 5,
          s.unread [116] 5)) = some ([.ofBytes [1]], [], []) := by decide +kernel
  obtain ⟨s, hs, heq⟩ := Option.map_eq_some_iff.mp hlost
  have hcomplete := (h s ⟨_, hs⟩).complete [116] 5
  simp only [Prod.mk.injEq] at heq
  rw [heq.1, heq.2.1, heq.2.2] at hcomplete
  cases hcomplete

end MessagePass.SinkQueues
