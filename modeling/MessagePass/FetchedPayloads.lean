import MessagePass.FetchedMessages
import MessagePass.WireRoundTrip

/-!
# From the wire to `get_msg`

The machine of the whole sink receives a message in one step. The receive loop takes a step for
every frame, for every receive that fails and for every read of `running_`. Forward simulation
connects the two: a run of the loop in thread `n` is a run of the sink in which that thread has
received what the loop has enqueued. With the round trip of the wire this says what `get_msg`
finds for a prepared source.
-/
namespace MessagePass.SinkQueues
open Std RequestMessages DataMessages ReceiveQueues LabelledRuns ReceiveLoop

variable {T : Type} [ReceivedMessage T]

def enqueuedOn (r : Receiver T) (queue : ℕ) : List T :=
  (r.enqueued.filter fun entry => entry.1 = queue).map Prod.snd

/-- Thread `n` of the sink has come as far as the loop: it has the map of the loop, and each queue
has grown by what the loop enqueued on it. -/
structure Follows (before : Sink T) (n : ℕ) (r : Receiver T) (s : Sink T) : Prop where
  variable_size : VariableSize r.pc
  thread : ∃ thread, s.threads[n]? = some thread ∧ thread.endpoint.isSome = true ∧
    s.threadTable thread = r.table
  recvs : s.recvs = before.recvs
  contents : ∀ queue, s.contents queue = before.contents queue ++ enqueuedOn r queue
  defined : s.undefined = true ↔ r.pc = .undefined

namespace Follows
variable {before s : Sink T} {n : ℕ} {r : Receiver T}

omit [ReceivedMessage T] in
theorem of_moved (h : Follows before n r s) {r' : Receiver T} (hpc : VariableSize r'.pc)
    (htable : r'.table = r.table) (henqueued : r'.enqueued = r.enqueued)
    (hdefined : r'.pc = .undefined ↔ r.pc = .undefined) : Follows before n r' s where
  variable_size := hpc
  thread := htable ▸ h.thread
  recvs := h.recvs
  contents queue := by rw [enqueuedOn, henqueued]; exact h.contents queue
  defined := h.defined.trans hdefined.symm

omit [ReceivedMessage T] in
theorem enqueue (h : Follows before n r s) {source : UInt64} {msg : T}
    (hpc : r.pc = .enqueue source msg) :
    ∃ t, Reachable sinkNext s t ∧ Follows before n
      ({ r with table := r.table.findOrInsert source }.enqueueMsg source msg) t := by
  obtain ⟨thread, hn, hbound, htable⟩ := h.thread
  have hstep : sinkNext s (.receive n source msg) = some (s.receive n thread source msg) := by
    simp [sinkNext, hn, hbound]
  refine ⟨_, (Reachable.refl s).tail hstep, ?_⟩
  have hlt : n < s.threads.length := (List.getElem?_eq_some_iff.mp hn).1
  cases hq : (r.table.findOrInsert source).queueOf source with
  | none =>
    simp only [Sink.receive, Receiver.enqueueMsg, htable, hq]
    -- a null pointer under the source: the map had the entry and is what it was
    have hsame : r.table.findOrInsert source = r.table := by
      unfold QueueTable.findOrInsert at hq ⊢
      split <;> rename_i hmem
      · rfl
      · rw [if_neg hmem, QueueTable.queueOf_insertNew, if_pos rfl] at hq
        cases hq
    exact ⟨trivial, ⟨thread, hn, hbound, htable.trans hsame.symm⟩, h.recvs, h.contents, by simp⟩
  | some queue =>
    simp only [Sink.receive, Receiver.enqueueMsg, htable, hq]
    refine ⟨trivial, ⟨_, List.getElem?_set_self hlt, hbound, rfl⟩, h.recvs, fun other => ?_, ?_⟩
    · rcases eq_or_ne other queue with rfl | hne
      · simp [enqueuedOn, h.contents]
      · simp [enqueuedOn, h.contents, hne, hne.symm]
    · simp [h.defined, hpc]

theorem step (h : Follows before n r s) {a : ReceiveLoop.Label T} {r' : Receiver T}
    (hs : receiverNext none r a = some r') :
    ∃ t, Reachable sinkNext s t ∧ Follows before n r' t := by
  have hstay : ∀ {r' : Receiver T}, VariableSize r'.pc → r'.table = r.table →
      r'.enqueued = r.enqueued → (r'.pc = .undefined ↔ r.pc = .undefined) →
      ∃ t, Reachable sinkNext s t ∧ Follows before n r' t :=
    fun hpc htable henqueued hdefined =>
      ⟨s, .refl s, h.of_moved hpc htable henqueued hdefined⟩
  have hvariable := h.variable_size
  cases a with
  | arrive source msg =>
    simp only [receiverNext, Option.ite_none_right_eq_some, Option.some.injEq] at hs
    obtain ⟨-, rfl⟩ := hs
    exact hstay hvariable rfl rfl Iff.rfl
  | thread ok indeterminate =>
    cases hs
    unfold recvMessage
    split <;> rename_i hpc
    · split <;> exact hstay trivial rfl rfl (by simp [hpc])
    · split <;> exact hstay trivial rfl rfl (by simp [hpc])
    · split
      · exact hstay trivial rfl rfl (by simp [hpc])
      · dsimp only
        split <;> exact hstay trivial rfl rfl (by simp [hpc])
    · split <;> exact hstay trivial rfl rfl (by simp [hpc])
    · split <;> exact hstay trivial rfl rfl (by simp [hpc])
    · split <;> exact hstay trivial rfl rfl (by simp [hpc])
    · exact h.enqueue hpc
    · exact (hpc ▸ hvariable).elim
    · exact (hpc ▸ hvariable).elim
    · exact (hpc ▸ hvariable).elim
    · exact hstay hvariable rfl rfl Iff.rfl
    · exact hstay hvariable rfl rfl Iff.rfl
    · exact hstay hvariable rfl rfl Iff.rfl
  | stop =>
    cases hs
    exact hstay hvariable rfl rfl Iff.rfl

end Follows

theorem receive_loop_simulated {s : Sink T} {n : ℕ} {thread : ReceiveThread}
    (hn : s.threads[n]? = some thread) (hbound : thread.endpoint.isSome = true)
    (hdefined : s.undefined = false) {r : Receiver T}
    (h : Reachable (receiverNext none) { table := s.threadTable thread } r) :
    ∃ t, Reachable sinkNext s t ∧ Follows s n r t := by
  refine h.simulates (R := Follows s n) ?_ fun _ _ _ _ hu hv => hu.step hv
  exact ⟨trivial, ⟨thread, hn, hbound, rfl⟩, rfl, by simp [enqueuedOn], by simp [hdefined]⟩

structure Listening (topic : Str) (sources : List UInt64) (n : ℕ) (s : Sink T) : Prop where
  thread : ∃ thread, s.threads[n]? = some thread ∧ thread.endpoint.isSome = true ∧
    s.threadTable thread = QueueTable.prepareSources {} sources
  queueOf : ∀ source, s.queueOf topic source =
    (QueueTable.prepareSources {} sources).queueOf source
  empty : ∀ queue, s.contents queue = []
  defined : s.undefined = false

omit [ReceivedMessage T] in
theorem exists_listening (serverIp : Str) (serverPort : Int32) {topics : List Str} {n : ℕ}
    {topic : Str} (hn : topics[n]? = some topic) (sources : List UInt64) :
    ∃ s : Sink T, Reachable sinkNext (Sink.init serverIp serverPort topics) s ∧
      Listening topic sources n s := by
  have hinit : (Sink.init serverIp serverPort topics : Sink T).tableOf topic = {} := by
    simp [Sink.tableOf, Sink.init, recvs_init topics ∅ (by simp)]
  let started : Sink T :=
    ((Sink.init serverIp serverPort topics).prepareSources topic sources).start
  have htable : started.tableOf topic = QueueTable.prepareSources {} sources := by
    simp [started, Sink.start, Sink.prepareSources, Sink.tableOf, ← hinit]
  have hthread : started.threads[n]? = some { topic := topic } := by
    simp [started, Sink.start, Sink.prepareSources, Sink.init, hn]
  have hlt : n < started.threads.length := (List.getElem?_eq_some_iff.mp hthread).1
  refine ⟨{ started with
    recvs := started.recvs.insert topic (started.tableOf topic).queues
    threads := started.threads.set n
      ⟨topic, (started.tableOf topic).queues, some (started.sinkOf topic)⟩ }, ?_, ?_⟩
  · have hprepare : Reachable sinkNext (Sink.init serverIp serverPort topics)
        ((Sink.init serverIp serverPort topics : Sink T).prepareSources topic sources) :=
      (Reachable.refl _).tail (a := .prepareSources topic sources) rfl
    have hstart : Reachable sinkNext (Sink.init serverIp serverPort topics) started :=
      hprepare.tail (a := .start) rfl
    exact hstart.tail (a := .enter n) (by simp only [sinkNext, hthread])
  · refine ⟨⟨_, List.getElem?_set_self hlt, rfl, htable⟩, fun source => ?_, fun _ => rfl, rfl⟩
    rw [queueOf_insert (s := started) rfl, if_pos rfl, htable]
    rfl

/-- What the wire carries from the prepared sources is what `get_msg` finds: for every run of the
receive loop there is a run of the sink after which each prepared source has, unread and in order,
the messages it sent in a prefix of the arrivals. -/
theorem prepared_payloads_fetchable (serverIp : Str) (serverPort : Int32) {topics : List Str}
    {n : ℕ} {topic : Str} (hn : topics[n]? = some topic) {sources : List UInt64} {r : Receiver T}
    (h : Reachable (receiverNext none) (Receiver.prepared sources) r) :
    ∃ s : Sink T, Reachable sinkNext (Sink.init serverIp serverPort topics) s ∧
      ∃ taken rest, r.arrived = taken ++ rest ∧ ∀ source ∈ sources,
        List.Forall₂ SameMessage ((taken.filter fun arrival => arrival.1 = source).map Prod.snd)
          (s.unread topic source) := by
  obtain ⟨s, hs, hlisten⟩ := exists_listening (T := T) serverIp serverPort hn sources
  obtain ⟨thread, hthread, hbound, htable⟩ := hlisten.thread
  have hloop : Reachable (receiverNext none) { table := s.threadTable thread } r := by
    rw [htable]
    exact h
  obtain ⟨t, ht, hfollows⟩ := receive_loop_simulated hthread hbound hlisten.defined hloop
  have ha := aligned_reachable h
  obtain ⟨taken, rest, harrived, -, henqueued⟩ := ha.split
  refine ⟨t, hs.trans ht, taken, rest, harrived, fun source hmem => ?_⟩
  obtain ⟨queue, hqueue⟩ := (QueueTable.wired_empty.prepareSources sources).exists_queueOf
    (QueueTable.mem_prepareSources (.inl hmem))
  have hunread : t.unread topic source = enqueuedOn r queue := by
    have hq : t.queueOf topic source = some queue := by
      have hsame : t.queueOf topic source = s.queueOf topic source := by
        simp only [Sink.queueOf, Sink.tableOf, QueueTable.queueOf, hfollows.recvs]
      rw [hsame, hlisten.queueOf, hqueue]
    rw [unread_eq hq, hfollows.contents, hlisten.empty, List.nil_append]
  rw [hunread]
  exact henqueued.of_source ha.wired (ha.kept source queue hqueue)

end MessagePass.SinkQueues
