import MessagePass.HeldUpRequests
import MessagePass.QueuedTopics

/-!
# What a topic does over its real queues

Each step of `task_thread` over the real queues is a step of the abstract thread or shows as
nothing, and a step that shows as nothing brings the thread nearer to one that does, unless it waits
in `zmq_send`. So the abstract topic has every run that the real one has, and the real thread gets
wherever the abstract one gets when no call of `zmq_send` waits for ever.
-/
namespace MessagePass.QueuedTopics
open SourceTasks RequestMessages DataMessages LabelledRuns BlockRings BlockingQueues

variable {T : Type} [IDataMessage T] {identity : UInt64} {s t : QueuedTopic T}

theorem taskThread_statement (identity : UInt64) {a : Topic T} (hawait : a.pc ≠ .await)
    (hget : ∀ req socket, a.pc ≠ .getWait req socket) :
    let b := SourceTasks.taskThread identity
      { running := a.running, pc := a.pc, locals := a.locals }
    SourceTasks.taskThread identity a = { a with pc := b.pc, locals := b.locals } := by
  obtain ⟨running, ready, requests, pc, locals, produced, arrived⟩ := a
  cases pc with
  | loop =>
    simp only [SourceTasks.taskThread]
    split <;> rfl
  | await => exact absurd rfl hawait
  | dispatch req =>
    simp only [SourceTasks.taskThread]
    split
    · rfl
    · rfl
    · split <;> rfl
    · rfl
  | getWait req socket => exact absurd rfl (hget req socket)
  | getExpired req socket =>
    simp only [SourceTasks.taskThread]
    split <;> rfl
  | getSend req socket msg => cases msg <;> rfl
  | getStore req socket msg => rfl
  | finished => rfl
  | undefined => rfl

theorem ready_refines {queue : BlockingQueues.State T}
    (h : Sends s.ready queue [] ∨ ∃ msg, Sends s.ready queue [msg]) :
    Reachable (SourceTasks.next identity) (abstract s) (abstract { s with ready := queue }) := by
  rcases h with h | ⟨msg, h⟩ <;> rw [abstract_ready h]
  · simpa using Reachable.refl _
  · exact ⟨[.send msg], rfl⟩

theorem requests_refines {queue : BlockingQueues.State RequestMessage}
    (h : Sends s.requests queue [] ∨ ∃ req, Sends s.requests queue [req]) :
    Reachable (SourceTasks.next identity) (abstract s) (abstract { s with requests := queue }) := by
  rcases h with h | ⟨req, h⟩ <;> rw [abstract_requests h]
  · simpa using Reachable.refl _
  · exact ⟨[.recvRequest req], rfl⟩

/-- What a step of `task_thread` does: the senders do not notice it, and it is a step of the
abstract thread, or shows as nothing and brings the thread nearer to such a step, or waits in
`zmq_send`. -/
structure TaskStep (identity : UInt64) (expired returned : Bool) (s t : QueuedTopic T) : Prop where
  sound : Sound t
  ready : SameProducer s.ready t.ready
  requests : SameProducer s.requests t.requests
  shows : abstract t = SourceTasks.taskThread identity (abstract s) ∨
    abstract t = abstract s ∧ (expired = true → Resting s → rank t < rank s) ∨
    t = s ∧ returned = false

/-- The wait for a request: it ends with the request that its unit stands for, or on an empty
queue. -/
theorem awaiting_step (h : Sound s) (hpc : s.pc = .awaiting) {expired returned : Bool}
    (hs : taskThread identity expired returned s = some t) :
    TaskStep identity expired returned s t := by
  have hstanding := h.standing
  simp only [Standing, hpc] at hstanding
  simp only [taskThread, hpc] at hs
  obtain ⟨queue, hnext, hs⟩ := Option.map_eq_some_iff.mp hs
  obtain ⟨hm, hsame, -, hsema, -⟩ := h.requests.consumerStep_move hnext
  have hqueue := h.requests.next hnext
  have hoffered := hsame.offered_eq
  have hready := SameProducer.refl s.ready
  have hlower : expired = true → Resting s → queue.remaining < rank s := by
    rintro rfl hrest
    simpa only [rank, hpc] using h.requests.remaining_lt hrest.2 hstanding.1 hnext
  have hthere := h.requests.consumer_standing hstanding.1 hnext
  cases h.requests.consumer_effect hm hsame hsema with
  | goOn hconsumer hpromised hbusy hvisible =>
    have ht : { s with requests := queue } = t := by
      cases hq : queue.consumer with
      | returned success => exact absurd hq (hbusy success)
      | _ => simpa only [hq, hpc] using hs
    subst ht
    have hcall : InCall queue := hthere.resolve_right fun hbetween =>
      hstanding.1.not_between (hbetween.congr hconsumer)
    refine ⟨⟨h.ready, hqueue, ?_⟩, hready, hsame, .inr (.inl ⟨?_, ?_⟩)⟩
    · simp only [Standing, hpc]
      exact ⟨hcall, hstanding.2⟩
    · exact abstract_eq rfl rfl (abstractPc_requests ⟨hconsumer, fun _ => hpromised⟩) rfl rfl
        hvisible hoffered
    · simpa only [rank, hpc] using hlower
  | refuse op hwaiting hop hreturned hempty hvisible =>
    simp only [hreturned] at hs
    subst hs
    refine ⟨⟨h.ready, hqueue, .inr ⟨false, hreturned⟩, hstanding.2⟩, hready, hsame, .inl ?_⟩
    simp [SourceTasks.taskThread, abstract, abstractPc, hpc, hwaiting, hempty, hvisible, hoffered]
  | take op req hwaiting htaking hpromised hvisible =>
    have ht : { s with requests := queue } = t := by simpa only [htaking, hpc] using hs
    subst ht
    refine ⟨⟨h.ready, hqueue, ?_⟩, hready, hsame, .inl ?_⟩
    · simp only [Standing, hpc]
      exact ⟨.inr htaking, hstanding.2⟩
    · simp [SourceTasks.taskThread, abstract, abstractPc, hpc, hwaiting, htaking, hpromised,
        hvisible, hoffered]
  | finish htaking hreturned hlast hvisible =>
    obtain ⟨req, hpromised⟩ := h.requests.exists_promised htaking
    simp only [hreturned, hlast, hpromised] at hs
    subst hs
    refine ⟨⟨h.ready, hqueue, .inr ⟨true, hreturned⟩, hstanding.2⟩, hready, hsame,
      .inr (.inl ⟨?_, ?_⟩)⟩
    · exact abstract_eq rfl rfl (by simp only [abstractPc, hpc, htaking, hpromised]) rfl rfl
        hvisible hoffered
    · exact fun hexpired hrest => Nat.zero_lt_of_lt (hlower hexpired hrest)
  | peek hpeeking => exact absurd hpeeking hstanding.1.not_peeking

theorem getting_step (h : Sound s) {req : RequestMessage} {socket : Socket}
    (hpc : s.pc = .getting req socket) {expired returned : Bool}
    (hs : taskThread identity expired returned s = some t) :
    TaskStep identity expired returned s t := by
  have hstanding := h.standing
  simp only [Standing, hpc] at hstanding
  simp only [taskThread, hpc] at hs
  obtain ⟨queue, hnext, hs⟩ := Option.map_eq_some_iff.mp hs
  obtain ⟨hm, hsame, -, hsema, -⟩ := h.ready.consumerStep_move hnext
  have hqueue := h.ready.next hnext
  have hoffered := hsame.offered_eq
  have hrequests := SameProducer.refl s.requests
  have hlower : expired = true → Resting s → queue.remaining < rank s := by
    rintro rfl hrest
    simpa only [rank, hpc] using h.ready.remaining_lt hrest.1 hstanding.2 hnext
  have hthere := h.ready.consumer_standing hstanding.2 hnext
  cases h.ready.consumer_effect hm hsame hsema with
  | goOn hconsumer hpromised hbusy hvisible =>
    have ht : { s with ready := queue } = t := by
      cases hq : queue.consumer with
      | returned success => exact absurd hq (hbusy success)
      | _ => simpa only [hq, hpc] using hs
    subst ht
    have hcall : InCall queue := hthere.resolve_right fun hbetween =>
      hstanding.2.not_between (hbetween.congr hconsumer)
    refine ⟨⟨hqueue, h.requests, ?_⟩, hsame, hrequests, .inr (.inl ⟨?_, ?_⟩)⟩
    · simp only [Standing, hpc]
      exact ⟨hstanding.1, hcall⟩
    · exact abstract_eq rfl rfl (abstractPc_ready ⟨hconsumer, fun _ => hpromised⟩) hvisible
        hoffered rfl rfl
    · simpa only [rank, hpc] using hlower
  | refuse op hwaiting hop hreturned hempty hvisible =>
    simp only [hreturned] at hs
    subst hs
    refine ⟨⟨hqueue, h.requests, hstanding.1, .inr ⟨false, hreturned⟩⟩, hsame, hrequests,
      .inl ?_⟩
    simp [SourceTasks.taskThread, abstract, abstractPc, hpc, hwaiting, hempty, hvisible, hoffered]
  | take op msg hwaiting htaking hpromised hvisible =>
    have ht : { s with ready := queue } = t := by simpa only [htaking, hpc] using hs
    subst ht
    refine ⟨⟨hqueue, h.requests, ?_⟩, hsame, hrequests, .inl ?_⟩
    · simp only [Standing, hpc]
      exact ⟨hstanding.1, .inr htaking⟩
    · simp [SourceTasks.taskThread, abstract, abstractPc, hpc, hwaiting, htaking, hpromised,
        hvisible, hoffered]
  | finish htaking hreturned hlast hvisible =>
    simp only [hreturned, hlast] at hs
    subst hs
    refine ⟨⟨hqueue, h.requests, hstanding.1, .inr ⟨true, hreturned⟩⟩, hsame, hrequests,
      .inr (.inl ⟨?_, ?_⟩)⟩
    · exact abstract_eq rfl rfl (by simp only [abstractPc, hpc, htaking]) hvisible hoffered rfl rfl
    · exact fun hexpired hrest => Nat.zero_lt_of_lt (hlower hexpired hrest)
  | peek hpeeking => exact absurd hpeeking hstanding.2.not_peeking

theorem before_step (h : Sound s) {pc : Pc T} (hpc : s.pc = .before pc) {expired returned : Bool}
    (hs : taskThread identity expired returned s = some t) :
    TaskStep identity expired returned s t := by
  have hstanding := h.standing
  simp only [Standing, hpc] at hstanding
  have hready := SameProducer.refl s.ready
  have hrequests := SameProducer.refl s.requests
  by_cases hawait : pc = .await
  · -- the call of `wait_dequeue_timed` does not take effect yet
    subst hawait
    simp only [taskThread, hpc] at hs
    obtain ⟨queue, hnext, rfl⟩ := Option.map_eq_some_iff.mp hs
    obtain ⟨-, hconsumer, -, hoffered, hvisible⟩ := Coupled.dequeue_effect hnext
    obtain ⟨hcall, hremaining, hsame⟩ := Coupled.dequeue_inCall bounded_timeout hnext
    refine ⟨⟨h.ready, h.requests.next hnext, hcall, hstanding.2⟩, hready, hsame,
      .inr (.inl ⟨?_, ?_⟩)⟩
    · exact abstract_eq rfl rfl (by simp only [abstractPc, hpc, hconsumer]) rfl rfl hvisible
        hoffered
    · simp [rank, hpc, hremaining]
  by_cases hget : ∃ req socket, pc = .getWait req socket
  · obtain ⟨req, socket, rfl⟩ := hget
    simp only [taskThread, hpc] at hs
    obtain ⟨queue, hnext, rfl⟩ := Option.map_eq_some_iff.mp hs
    obtain ⟨-, hconsumer, -, hoffered, hvisible⟩ := Coupled.dequeue_effect hnext
    obtain ⟨hcall, hremaining, hsame⟩ := Coupled.dequeue_inCall bounded_timeout hnext
    refine ⟨⟨h.ready.next hnext, h.requests, hstanding.1, hcall⟩, hsame, hrequests,
      .inr (.inl ⟨?_, ?_⟩)⟩
    · exact abstract_eq rfl rfl (by simp only [abstractPc, hpc, hconsumer]) hvisible hoffered rfl
        rfl
    · simp [rank, hpc, hremaining]
  · have hnext : some (if returned = true ∨
        (statement identity pc s).locals.sent.length = s.locals.sent.length
          then statement identity pc s else s) = some t := by
      rw [← hs]
      cases pc with
      | await => exact absurd rfl hawait
      | getWait req socket => exact absurd ⟨req, socket, rfl⟩ hget
      | _ => simp only [taskThread, hpc, apply_ite some]
    split at hnext <;> rename_i hreturn <;> cases hnext
    · have habstract : (abstract s).pc = pc := by simp only [abstract, abstractPc, hpc]
      have hstep := taskThread_statement identity (a := abstract s) (habstract ▸ hawait)
        (fun req socket hcase => hget ⟨req, socket, habstract ▸ hcase⟩)
      refine ⟨⟨h.ready, h.requests, hstanding⟩, hready, hrequests, .inl ?_⟩
      rw [hstep, habstract]
      rfl
    · exact ⟨h, hready, hrequests, .inr (.inr ⟨rfl, by simpa using (not_or.mp hreturn).1⟩)⟩

theorem task_step (h : Sound s) {expired returned : Bool}
    (hs : taskThread identity expired returned s = some t) :
    TaskStep identity expired returned s t := by
  cases hpc : s.pc with
  | before pc => exact before_step h hpc hs
  | awaiting => exact awaiting_step h hpc hs
  | getting req socket => exact getting_step h hpc hs

theorem Sound.next {a : Label T} (h : Sound s) (hs : next identity s a = some t) : Sound t := by
  cases a with
  | send msg =>
    obtain ⟨queue, hnext, rfl⟩ := Option.map_eq_some_iff.mp hs
    exact ⟨h.ready.next hnext, h.requests,
      standing_ready h.standing (Coupled.enqueue_effect hnext).2.2.same⟩
  | sender malloc =>
    obtain ⟨queue, hnext, rfl⟩ := Option.map_eq_some_iff.mp hs
    exact ⟨h.ready.next hnext, h.requests,
      standing_ready h.standing (h.ready.producerStep_move hnext).2.1⟩
  | recvRequest req =>
    obtain ⟨queue, hnext, rfl⟩ := Option.map_eq_some_iff.mp hs
    exact ⟨h.ready, h.requests.next hnext,
      standing_requests h.standing (Coupled.enqueue_effect hnext).2.2.same⟩
  | receiver malloc =>
    obtain ⟨queue, hnext, rfl⟩ := Option.map_eq_some_iff.mp hs
    exact ⟨h.ready, h.requests.next hnext,
      standing_requests h.standing (h.requests.producerStep_move hnext).2.1⟩
  | task expired returned => exact (task_step h hs).sound
  | stop =>
    cases hs
    exact ⟨h.ready, h.requests, h.standing⟩

theorem sound_reachable (h : Reachable (next identity) (make T) s) : Sound s :=
  h.invariant sound_make fun _ _ _ hu hv => hu.next hv

theorem next_refines {a : Label T} (h : Sound s) (hs : next identity s a = some t) :
    Reachable (SourceTasks.next identity) (abstract s) (abstract t) := by
  cases a with
  | send msg =>
    obtain ⟨queue, hnext, rfl⟩ := Option.map_eq_some_iff.mp hs
    exact ready_refines (.inl (Coupled.enqueue_effect hnext).2.2)
  | sender malloc =>
    obtain ⟨queue, hnext, rfl⟩ := Option.map_eq_some_iff.mp hs
    exact ready_refines (h.ready.producer_sends hnext)
  | recvRequest req =>
    obtain ⟨queue, hnext, rfl⟩ := Option.map_eq_some_iff.mp hs
    exact requests_refines (.inl (Coupled.enqueue_effect hnext).2.2)
  | receiver malloc =>
    obtain ⟨queue, hnext, rfl⟩ := Option.map_eq_some_iff.mp hs
    exact requests_refines (h.requests.producer_sends hnext)
  | task expired returned =>
    rcases (task_step h hs).shows with hshow | ⟨hshow, -⟩ | ⟨rfl, -⟩
    · exact ⟨[.task], by simp [SourceTasks.next, hshow]⟩
    · rw [hshow]
      exact .refl _
    · exact .refl _
  | stop =>
    cases hs
    exact ⟨[.stop], rfl⟩

/-- What the threads of a topic do over their real queues, the abstract topic does as well. -/
theorem abstract_reachable (h : Reachable (next identity) (make T) s) :
    Reachable (SourceTasks.next identity) {} (abstract s) := by
  refine h.invariant_with (I := fun u => Reachable (SourceTasks.next identity) {} (abstract u))
    (fun u hu => sound_reachable hu) (.refl _) ?_
  intro u a v hu hrun hv
  exact hrun.trans (next_refines hu hv)

theorem taskThread_isSome (identity : UInt64) (returned : Bool) (h : Sound s) (hrest : Resting s) :
    ∃ t, taskThread identity true returned s = some t := by
  have hstanding := h.standing
  cases hpc : s.pc with
  | before pc =>
    simp only [Standing, hpc] at hstanding
    cases pc with
    | await =>
      obtain ⟨queue, hnext⟩ := Option.isSome_iff_exists.mp
        (Coupled.dequeue_isSome maxBlockSize hstanding.1 (.waitDequeueTimed timeout))
      simp [taskThread, hpc, hnext]
    | getWait req socket =>
      obtain ⟨queue, hnext⟩ := Option.isSome_iff_exists.mp
        (Coupled.dequeue_isSome maxBlockSize hstanding.2 (.waitDequeueTimed timeout))
      simp [taskThread, hpc, hnext]
    | _ => simp only [taskThread, hpc, ← apply_ite some, Option.some.injEq, exists_eq']
  | awaiting =>
    simp only [Standing, hpc] at hstanding
    obtain ⟨queue, hnext, -⟩ := h.requests.consumer_ends maxBlockSize hrest.2 hstanding.1
    simp [taskThread, hpc, hnext]
  | getting req socket =>
    simp only [Standing, hpc] at hstanding
    obtain ⟨queue, hnext, -⟩ := h.ready.consumer_ends maxBlockSize hrest.1 hstanding.2
    simp [taskThread, hpc, hnext]

structure Alone (s t : QueuedTopic T) : Prop where
  sound : Sound t
  resting : Resting t
  ready : SameProducer s.ready t.ready
  requests : SameProducer s.requests t.requests

theorem Alone.step (h : Alone s t) (returned : Bool) :
    ∃ u, next identity t (.task true returned) = some u ∧ Alone s u ∧
      (Moves abstract (SourceTasks.taskThread identity) rank t u ∨ u = t ∧ returned = false) := by
  obtain ⟨u, hu⟩ := taskThread_isSome identity returned h.sound h.resting
  have hstep := task_step h.sound hu
  refine ⟨u, hu, ⟨hstep.sound, ⟨hstep.ready.atRest h.resting.1, hstep.requests.atRest h.resting.2⟩,
    h.ready.trans hstep.ready, h.requests.trans hstep.requests⟩, ?_⟩
  rcases hstep.shows with hshow | ⟨hshow, hlower⟩ | hwait
  · exact .inl (.inl hshow)
  · exact .inl (.inr ⟨hshow, hlower rfl h.resting⟩)
  · exact .inr hwait

/-- The real queues are as good as the lists of the abstract topic: running flag, maps and logs are
those of a run of the abstract topic, in which everything was enqueued whose `enqueue` has returned
with success. -/
theorem queued_topic_refines (h : Reachable (next identity) (make T) s) :
    ∃ a : Topic T, Reachable (SourceTasks.next identity) {} a ∧ a.running = s.running ∧
      a.locals = s.locals ∧ (∀ pc, s.pc = .before pc → a.pc = pc) ∧
      a.produced <+: s.ready.inner.enqueued ∧ s.ready.completed ≤ a.produced.length ∧
      a.arrived <+: s.requests.inner.enqueued ∧ s.requests.completed ≤ a.arrived.length := by
  have hsound := sound_reachable h
  refine ⟨abstract s, abstract_reachable h, rfl, rfl, ?_, List.take_prefix ..,
    completed_le_offered hsound.ready, List.take_prefix .., completed_le_offered hsound.requests⟩
  intro pc hpc
  simp only [abstract, abstractPc, hpc]

private def queuedSchedule : List (Label ByteMessage) :=
  [.send (.ofBytes [1]), .recvRequest (getRequest [83])] ++ List.replicate 3 (.sender true) ++
    List.replicate 3 (.receiver true) ++ List.replicate 16 (.task false true)

theorem queued_topic_refines_example :
    ∃ s, run (next 7) (make ByteMessage) queuedSchedule = some s ∧
      s.locals.handled.map (·.msg) = [some (.ofBytes [1])] ∧
      ∃ a : Topic ByteMessage, Reachable (SourceTasks.next 7) {} a ∧ a.running = s.running ∧
        a.locals = s.locals ∧ (∀ pc, s.pc = .before pc → a.pc = pc) ∧
        a.produced <+: s.ready.inner.enqueued ∧ s.ready.completed ≤ a.produced.length ∧
        a.arrived <+: s.requests.inner.enqueued ∧ s.requests.completed ≤ a.arrived.length := by
  have hserved : (run (next 7) (make ByteMessage) queuedSchedule).map
      (fun s => s.locals.handled.map (·.msg)) = some [some (.ofBytes [1])] := by decide +kernel
  obtain ⟨s, hs, heq⟩ := Option.map_eq_some_iff.mp hserved
  exact ⟨s, hs, heq, queued_topic_refines ⟨_, hs⟩⟩

private theorem exists_queued :
    ∃ s, run (next 7) (make ByteMessage) (queuedSchedule.take 8) = some s ∧ Resting s ∧
      s.running = true ∧ s.requests.inner.enqueued = [getRequest [83]] ∧
      s.ready.inner.enqueued = [.ofBytes [1]] := by
  have hqueued : (run (next 7) (make ByteMessage) (queuedSchedule.take 8)).map
      (fun s => (s.ready.producer, s.requests.producer, s.running, s.requests.inner.enqueued,
        s.ready.inner.enqueued)) =
        some (.returned true, .returned true, true, [getRequest [83]], [.ofBytes [1]]) := by
    decide +kernel
  obtain ⟨s, hs, heq⟩ := Option.map_eq_some_iff.mp hqueued
  simp only [Prod.mk.injEq] at heq
  exact ⟨s, hs, ⟨.inr ⟨true, heq.1⟩, .inr ⟨true, heq.2.1⟩⟩, heq.2.2⟩

/-- The turns of a task thread that is left alone; `returned` says at which of them a call of
`zmq_send` that is on returns. -/
def turns (T : Type) (returned : ℕ → Bool) (steps : ℕ) : List (Label T) :=
  (List.range steps).map fun i => .task true (returned i)

private theorem exists_odd (m : ℕ) : ∃ k ≥ m, k.bodd = true :=
  ⟨2 * m + 1, by omega, by simp⟩

/-- Left alone, `task_thread` takes each step of the abstract thread, provided no call of `zmq_send`
waits for ever; and it takes 1040 steps of its own at most for each, the waits apart. -/
theorem queued_topic_progresses (h : Reachable (next identity) (make T) s) (hrest : Resting s)
    {returned : ℕ → Bool} (hreturn : ∀ m, ∃ k ≥ m, returned k = true) (n : ℕ) :
    ∃ steps t, (List.range steps).countP returned ≤ n * 1040 ∧
      run (next identity) s (turns T returned steps) = some t ∧
      abstract t = (SourceTasks.taskThread identity)^[n] (abstract s) := by
  have halone : Alone s s := ⟨sound_reachable h, hrest, .refl _, .refl _⟩
  obtain ⟨steps, t, hcount, hrun, -, ht⟩ := exists_run_to_iterate
    (fun _ m hu => hu.step (returned m)) hreturn (fun _ hu => rank_le hu.sound) halone n
  exact ⟨steps, t, hcount, hrun, ht⟩

/-- Every second turn finds the pipe full. -/
theorem queued_topic_progresses_example :
    ∃ s, run (next 7) (make ByteMessage) (queuedSchedule.take 8) = some s ∧
      ∃ steps t, (List.range steps).countP Nat.bodd ≤ 5 * 1040 ∧
        run (next 7) s (turns ByteMessage Nat.bodd steps) = some t ∧
        abstract t = (SourceTasks.taskThread 7)^[5] (abstract s) := by
  obtain ⟨s, hs, hrest, -⟩ := exists_queued
  exact ⟨s, hs, queued_topic_progresses ⟨_, hs⟩ hrest exists_odd 5⟩

/-- Messages and requests go through the queues in order, without loss or duplication: those
enqueued are the processed ones, then those in the hands of the thread, then those in the atomic
queues. -/
theorem queued_messages_conserved (h : Reachable (next identity) (make T) s)
    (hrun : s.running = true) :
    offered s.ready = s.locals.handled.filterMap (·.msg) ++
        ((abstractPc s).inHand ++ visible s.ready) ∧
      offered s.requests = s.locals.handled.map (·.req) ++
        ((abstractPc s).inFlight ++ visible s.requests) ∧
      (AtRest s.ready → offered s.ready = s.ready.inner.enqueued) ∧
      (AtRest s.requests → offered s.requests = s.requests.inner.enqueued) := by
  have habstract := abstract_reachable h
  have hsound := sound_reachable h
  have hdefined := (coherent_reachable habstract).defined hrun
  have hconserved := conserved_reachable habstract hdefined.1
  exact ⟨hconserved.messages, hconserved.requests, offered_of_atRest hsound.ready,
    offered_of_atRest hsound.requests⟩

theorem queued_messages_conserved_example :
    ∃ s, run (next 7) (make ByteMessage) (queuedSchedule.take 8) = some s ∧
      [.ofBytes [1]] = s.locals.handled.filterMap (·.msg) ++
        ((abstractPc s).inHand ++ visible s.ready) := by
  obtain ⟨s, hs, hrest, hrun, -, hready⟩ := exists_queued
  obtain ⟨hmessages, -, hall, -⟩ := queued_messages_conserved ⟨_, hs⟩ hrun
  rw [hall hrest.1, hready] at hmessages
  exact ⟨s, hs, hmessages⟩

/-- Left alone, a running `task_thread` goes on until every request is processed or a GET has no
message left to take, provided no call of `zmq_send` waits for ever. -/
theorem queued_topic_serves (h : Reachable (next identity) (make T) s) (hrun : s.running = true)
    (hrest : Resting s) {returned : ℕ → Bool} (hreturn : ∀ m, ∃ k ≥ m, returned k = true) :
    ∃ steps t, run (next identity) s (turns T returned steps) = some t ∧
      (t.locals.handled.map (·.req) = s.requests.inner.enqueued ∨
        t.locals.handled.filterMap (·.msg) = s.ready.inner.enqueued) := by
  have habstract := abstract_reachable h
  have hsound := sound_reachable h
  obtain ⟨n, hidle⟩ := exists_idle (coherent_reachable habstract) hrun
  have halone : Alone s s := ⟨hsound, hrest, .refl _, .refl _⟩
  obtain ⟨steps, t, -, hsteps, -, ht⟩ := exists_run_to_iterate
    (fun _ m hu => hu.step (returned m)) hreturn (fun _ hu => rank_le hu.sound) halone n
  refine ⟨steps, t, hsteps, ?_⟩
  have hreachable := habstract.trans (reachable_iterate identity (abstract s) n)
  obtain ⟨hrunning, harrived, hproduced, -⟩ := iterate_inputs identity (abstract s) n
  rw [← ht] at hidle hreachable hrunning harrived hproduced
  have hcoherent := coherent_reachable hreachable
  have hdefined := hcoherent.defined (hrunning.trans hrun)
  have hconserved := conserved_reachable hreachable hdefined.1
  rcases idle_cases hcoherent hidle with hnone | ⟨req, -, -, hnone⟩
  · left
    have hrequests := hconserved.requests
    unfold Topic.unprocessed at hnone
    rw [hnone, List.append_nil, harrived] at hrequests
    exact hrequests.symm.trans (offered_of_atRest hsound.requests hrest.2)
  · right
    have hmessages := hconserved.messages
    unfold Topic.available at hnone
    rw [hnone, List.append_nil, hproduced] at hmessages
    exact hmessages.symm.trans (offered_of_atRest hsound.ready hrest.1)

theorem queued_topic_serves_example :
    ∃ s, run (next 7) (make ByteMessage) (queuedSchedule.take 8) = some s ∧
      ∃ steps t, run (next 7) s (turns ByteMessage Nat.bodd steps) = some t ∧
        (t.locals.handled.map (·.req) = [getRequest [83]] ∨
          t.locals.handled.filterMap (·.msg) = [.ofBytes [1]]) := by
  obtain ⟨s, hs, hrest, hrun, hrequests, hready⟩ := exists_queued
  have hserves := queued_topic_serves ⟨_, hs⟩ hrun hrest exists_odd
  rw [hrequests, hready] at hserves
  exact ⟨s, hs, hserves⟩

end MessagePass.QueuedTopics
