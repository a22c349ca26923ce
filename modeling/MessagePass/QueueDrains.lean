import MessagePass.QueueProgress

/-!
# Queues drained by a destructor

`~MessageSource` and `~MessageSink` empty each of their queues with `try_dequeue`, delete the
messages they get, and then delete the queue. By then every thread that used the queues has been
joined.
-/
namespace MessagePass.BlockingQueues
open LabelledRuns BlockRings LightSemaphores

variable {E : Type}

/-- The queues that are still to be deleted, the first of which is being drained; the messages
deleted; and what the destructor of each deleted queue destroyed and freed. -/
structure Drain (E : Type) where
  queues : List (State E)
  deleted : List E := []
  freed : List (List E × List ℕ) := []

/-- `while (true) { ret = queue->try_dequeue(msg); if (ret) delete msg; else break; } delete queue;`
for one queue after the other. -/
def drainNext (maxBlockSize : ℕ) (s : Drain E) (expired : Bool) : Option (Drain E) :=
  match s.queues with
  | [] => none
  | queue :: rest =>
      match queue.consumer with
      | .idle | .returned _ =>
          (next maxBlockSize queue (.dequeue .tryDequeue)).map fun queue =>
            { s with queues := queue :: rest }
      | _ =>
          (next maxBlockSize queue (.consumer expired)).bind fun queue =>
            match queue.consumer with
            | .returned true => queue.inner.dequeued.getLast?.map fun msg =>
                { s with queues := queue :: rest, deleted := s.deleted ++ [msg] }
            | .returned false => queue.inner.queue.destroy.map fun out =>
                { s with queues := rest, freed := s.freed ++ [out] }
            | _ => some { s with queues := queue :: rest }

def State.left (s : State E) : List E :=
  match s.consumer with
  | .taking => (promised s).toList ++ visible s
  | _ => visible s

def State.drainRank (s : State E) : ℕ :=
  1040 * s.left.length + match s.consumer with
    | .idle | .returned _ => 1039
    | _ => s.remaining

structure Quiet (capacity : ℕ) (s : State E) : Prop where
  coupled : Coupled capacity s
  atRest : AtRest s
  standing : InCall s ∨ Between s

namespace Quiet
variable {capacity : ℕ} {s t : State E}

theorem call (maxBlockSize : ℕ) (h : Quiet capacity s) (hbetween : Between s) :
    ∃ t, next maxBlockSize s (.dequeue .tryDequeue) = some t ∧ Quiet capacity t ∧
      t.left = s.left ∧ t.inner.queue.allocated = s.inner.queue.allocated ∧
      t.drainRank < s.drainRank := by
  obtain ⟨t, ht⟩ := Option.isSome_iff_exists.mp
    (Coupled.dequeue_isSome maxBlockSize hbetween .tryDequeue)
  have hbounded : Op.tryDequeue.Bounded := trivial
  obtain ⟨hcall, hremaining, hsame⟩ := Coupled.dequeue_inCall hbounded ht
  obtain ⟨-, hpc, -, -, hvisible⟩ := Coupled.dequeue_effect ht
  have hleft : t.left = s.left := by
    rcases hbetween with hs | ⟨success, hs⟩ <;> simp only [State.left, hpc, hs, hvisible]
  refine ⟨t, ht, ⟨h.coupled.next ht, hsame.atRest h.atRest, .inl hcall⟩, hleft, ?_, ?_⟩
  · simp only [BlockingQueues.next] at ht
    split at ht <;> cases ht <;> rfl
  · rcases hbetween with hs | ⟨success, hs⟩ <;>
      simp [State.drainRank, hleft, hpc, hs, hremaining]

theorem take (maxBlockSize : ℕ) (h : Quiet capacity s) (hcall : InCall s) :
    ∃ t, next maxBlockSize s (.consumer true) = some t ∧ Quiet capacity t ∧
      t.inner.queue.allocated = s.inner.queue.allocated ∧
      ((∀ success, t.consumer ≠ .returned success) ∧ t.left = s.left ∧
          t.drainRank < s.drainRank ∨
        (∃ msg, t.consumer = .returned true ∧ t.inner.dequeued.getLast? = some msg ∧
          s.left = msg :: t.left ∧ t.drainRank < s.drainRank) ∨
        t.consumer = .returned false ∧ s.left = [] ∧ t.left = []) := by
  obtain ⟨t, ht, hlt⟩ := h.coupled.consumer_ends maxBlockSize h.atRest hcall
  obtain ⟨hm, hsame, hinner, hsema, -⟩ := h.coupled.consumerStep_move ht
  refine ⟨t, ht, ⟨h.coupled.next ht, hsame.atRest h.atRest,
    h.coupled.consumer_standing hcall ht⟩, hsame.allocated, ?_⟩
  cases h.coupled.consumer_effect hm hsame hsema with
  | goOn hpc hpromised hbusy hvisible =>
    have hleft : t.left = s.left := by simp only [State.left, hpc, hpromised, hvisible]
    refine .inl ⟨hbusy, hleft, ?_⟩
    rcases hcall with ⟨op, hs, -⟩ | hs <;> simpa [State.drainRank, hleft, hpc, hs] using hlt
  | refuse op hpc hop hreturned hempty hvisible =>
    refine .inr (.inr ⟨hreturned, ?_, ?_⟩)
    · simpa only [State.left, hpc] using hempty
    · simpa only [State.left, hreturned] using hvisible.trans hempty
  | take op v hpc htaking hpromised hvisible =>
    have hleft : t.left = s.left := by
      simp only [State.left, hpc, htaking, hpromised, hvisible, Option.toList_some,
        List.singleton_append]
    exact .inl ⟨by simp [htaking], hleft, by simpa [State.drainRank, hleft, hpc, htaking] using hlt⟩
  | finish hpc hreturned hlast hvisible =>
    obtain ⟨msg, hpromised⟩ := h.coupled.exists_promised hpc
    have hleft : s.left = msg :: t.left := by
      simp only [State.left, hpc, hreturned, hpromised, hvisible, Option.toList_some,
        List.singleton_append]
    refine .inr (.inl ⟨msg, hreturned, hlast.trans hpromised, hleft, ?_⟩)
    simp only [State.drainRank, hleft, hpc, hreturned, List.length_cons]
    omega
  | peek hpc => exact absurd hpc hcall.not_peeking

theorem left_eq (h : Quiet capacity s) (hbetween : Between s) :
    s.left = s.inner.enqueued.drop s.inner.dequeued.length := by
  have hat := h.coupled.consumer
  have hoffered := offered_of_atRest h.coupled h.atRest
  rcases hbetween with hpc | ⟨success, hpc⟩ <;> simp only [ConsumerAt, hpc] at hat <;>
    simp only [State.left, hpc, visible, hoffered, hat.2.2]

/-- An empty queue gives its own destructor nothing to destroy, and it frees all its blocks. -/
theorem destroy (h : Quiet capacity s) (hbetween : Between s) (hleft : s.left = []) :
    ∃ blocks, s.inner.queue.destroy = some ([], blocks) ∧
      blocks.Perm (List.range s.inner.queue.allocated) := by
  have hremaining : s.inner.consumer.remaining = 0 := by
    have hat := h.coupled.consumer
    rcases hbetween with hpc | ⟨success, hpc⟩ <;> simp only [ConsumerAt, hpc] at hat <;>
      exact hat.1
  have hproducer : s.inner.producer.remaining = 0 := by
    have hat := h.coupled.producer
    have hnone : s.inner.producer.value? = none := by
      rcases h.atRest with hpc | ⟨success, hpc⟩ <;> simp only [ProducerAt, hpc] at hat <;>
        exact hat.2
    cases hcase : s.inner.producer <;> simp_all [ProducerPc.value?, ProducerPc.remaining]
  obtain ⟨elements, blocks, hdestroy, hqueue, hperm⟩ :=
    destroy_eq h.coupled.inner hproducer hremaining
  have helements : elements = [] := by
    rw [h.left_eq hbetween, hqueue, List.drop_left] at hleft
    exact hleft
  exact ⟨blocks, helements ▸ hdestroy, hperm⟩

end Quiet

/-- What holds while the queues `qs` are drained: the messages deleted and those still to come are
those of the queues, and so are the blocks. -/
structure Draining (capacity : ℕ) (qs : List (State E)) (s : Drain E) : Prop where
  queues : ∀ queue ∈ s.queues, Quiet capacity queue
  deleted : s.deleted ++ s.queues.flatMap State.left = qs.flatMap State.left
  blocks : s.freed.map (fun out => out.2.length) ++
    s.queues.map (fun queue => queue.inner.queue.allocated) =
      qs.map fun queue => queue.inner.queue.allocated
  freed : ∀ out ∈ s.freed, out.1 = [] ∧ out.2.Perm (List.range out.2.length)

def Drain.rank (s : Drain E) : ℕ := (s.queues.map fun queue => queue.drainRank + 1).sum

namespace Draining
variable {capacity maxBlockSize : ℕ} {qs : List (State E)} {s : Drain E}

theorem step (h : Draining capacity qs s) (hrank : s.rank ≠ 0) :
    ∃ t, drainNext maxBlockSize s true = some t ∧ Draining capacity qs t ∧ t.rank < s.rank := by
  cases hqueues : s.queues with
  | nil => simp [Drain.rank, hqueues] at hrank
  | cons queue rest =>
    have hdeleted := h.deleted
    have hblocks := h.blocks
    rw [hqueues] at hdeleted hblocks
    simp only [List.flatMap_cons, List.map_cons] at hdeleted hblocks
    have hquiet : Quiet capacity queue := h.queues queue (by simp [hqueues])
    have hrest : ∀ q ∈ rest, Quiet capacity q := fun q hq =>
      h.queues q (by simp [hqueues, hq])
    have hsame : ∀ q : State E, Quiet capacity q → q.left = queue.left →
        q.inner.queue.allocated = queue.inner.queue.allocated → q.drainRank < queue.drainRank →
        Draining capacity qs { s with queues := q :: rest } ∧
          Drain.rank { s with queues := q :: rest } < s.rank := by
      intro q hq hleft hallocated hlt
      refine ⟨⟨List.forall_mem_cons.mpr ⟨hq, hrest⟩, ?_, ?_, h.freed⟩, ?_⟩
      · simpa only [List.flatMap_cons, hleft] using hdeleted
      · simpa only [List.map_cons, hallocated] using hblocks
      · simpa [Drain.rank, hqueues] using hlt
    rcases hquiet.standing with hcall | hbetween
    · obtain ⟨q, hq, hquiet', hallocated, hcase⟩ := hquiet.take maxBlockSize hcall
      have hnext : drainNext maxBlockSize s true =
          match q.consumer with
          | .returned true => q.inner.dequeued.getLast?.map fun msg =>
              { s with queues := q :: rest, deleted := s.deleted ++ [msg] }
          | .returned false => q.inner.queue.destroy.map fun out =>
              { s with queues := rest, freed := s.freed ++ [out] }
          | _ => some { s with queues := q :: rest } := by
        rcases hcall with ⟨op, hpc, -⟩ | hpc <;> simp only [drainNext, hqueues, hpc, hq] <;> rfl
      rcases hcase with ⟨hbusy, hleft, hlt⟩ | ⟨msg, hreturned, hlast, hleft, hlt⟩ |
        ⟨hreturned, hleft, hempty⟩
      · obtain ⟨hkept, hrank⟩ := hsame q hquiet' hleft hallocated hlt
        refine ⟨_, ?_, hkept, hrank⟩
        rw [hnext]
        cases hpc : q.consumer with
        | returned success => exact absurd hpc (hbusy success)
        | _ => rfl
      · refine ⟨{ s with queues := q :: rest, deleted := s.deleted ++ [msg] }, ?_,
          ⟨List.forall_mem_cons.mpr ⟨hquiet', hrest⟩, ?_, ?_, h.freed⟩, ?_⟩
        · simp [hnext, hreturned, hlast]
        · simpa [hleft] using hdeleted
        · simpa only [List.map_cons, hallocated] using hblocks
        · simpa [Drain.rank, hqueues] using hlt
      · have hthere : Between q := .inr ⟨false, hreturned⟩
        obtain ⟨blocks, hdestroy, hperm⟩ := hquiet'.destroy hthere hempty
        have hlength : blocks.length = queue.inner.queue.allocated := by
          rw [hperm.length_eq, List.length_range, hallocated]
        refine ⟨{ s with queues := rest, freed := s.freed ++ [([], blocks)] }, ?_,
          ⟨hrest, ?_, ?_, ?_⟩, ?_⟩
        · simp [hnext, hreturned, hdestroy]
        · simpa [hleft] using hdeleted
        · simpa [hlength] using hblocks
        · refine forall_mem_concat h.freed ⟨rfl, ?_⟩
          rwa [hlength, ← hallocated]
        · simp [Drain.rank, hqueues]
    · obtain ⟨q, hq, hquiet', hleft, hallocated, hlt⟩ := hquiet.call maxBlockSize hbetween
      obtain ⟨hkept, hrank⟩ := hsame q hquiet' hleft hallocated hlt
      refine ⟨_, ?_, hkept, hrank⟩
      rcases hbetween with hpc | ⟨success, hpc⟩ <;> simp [drainNext, hqueues, hpc, hq]

end Draining

/-- Draining queues whose threads are done ends, and deletes the messages that are left in them, in
order and each once; then the destructors of the queues find nothing to destroy, and free every
block exactly once. -/
theorem destructor_drains {maxBlockSize size : ℕ} (qs : List (State E))
    (h : ∀ queue ∈ qs, Reachable (next maxBlockSize) (make E maxBlockSize size) queue ∧
      AtRest queue ∧ Between queue)
    (hmax : ∃ k, maxBlockSize = 2 ^ (k + 1)) (hpos : 0 < size) (hsize : size < 2 ^ 63) :
    ∃ steps t, run (drainNext maxBlockSize) { queues := qs } (List.replicate steps true) = some t ∧
      t.queues = [] ∧
      t.deleted = qs.flatMap (fun queue => queue.inner.enqueued.drop queue.inner.dequeued.length) ∧
      t.freed.map (fun out => out.2.length) = qs.map (fun queue => queue.inner.queue.allocated) ∧
      ∀ out ∈ t.freed, out.1 = [] ∧ out.2.Perm (List.range out.2.length) := by
  have hstart : Draining size qs { queues := qs } := by
    refine ⟨?_, rfl, rfl, by simp⟩
    intro queue hq
    obtain ⟨hreachable, hrest, hbetween⟩ := h queue hq
    exact ⟨coupled_reachable hreachable hmax hpos hsize, hrest, .inr hbetween⟩
  obtain ⟨steps, -, t, hrun, ht, hzero⟩ := exists_run_to_zero (drainNext maxBlockSize) true
    (Draining size qs) Drain.rank (fun _ hu hne => hu.step hne) hstart
  have hqueues : t.queues = [] := by
    cases hcase : t.queues with
    | nil => rfl
    | cons queue rest => simp [Drain.rank, hcase] at hzero
  have hdeleted := ht.deleted
  have hblocks := ht.blocks
  rw [hqueues] at hdeleted hblocks
  refine ⟨steps, t, hrun, hqueues, ?_, by simpa using hblocks, ht.freed⟩
  simp only [List.flatMap_nil, List.append_nil] at hdeleted
  rw [hdeleted]
  exact List.flatMap_congr fun queue hq => (hstart.queues queue hq).left_eq (h queue hq).2.2

/-- Two elements were enqueued, and the first one was dequeued. -/
private def keptSchedule : List (Label ℕ) :=
  .enqueue 7 .canAlloc :: List.replicate 3 (.producer true) ++
    .enqueue 8 .canAlloc :: List.replicate 6 (.producer true) ++
      .dequeue .tryDequeue :: List.replicate 5 (.consumer false)

/-- The second of the two queues is empty. -/
theorem destructor_drains_example :
    ∃ s, run (next 2) (make ℕ 2 1) keptSchedule = some s ∧
      ∃ steps t, run (drainNext 2) { queues := [s, make ℕ 2 1] } (List.replicate steps true) =
        some t ∧ t.queues = [] ∧ t.deleted = [8] := by
  have hkept : (run (next 2) (make ℕ 2 1) keptSchedule).map
      (fun s => (s.producer, s.consumer, s.inner.enqueued, s.inner.dequeued)) =
        some (.returned true, .returned true, [7, 8], [7]) := by decide +kernel
  obtain ⟨s, hs, heq⟩ := Option.map_eq_some_iff.mp hkept
  simp only [Prod.mk.injEq] at heq
  obtain ⟨hproducer, hconsumer, henqueued, hdequeued⟩ := heq
  obtain ⟨steps, t, hrun, hqueues, hdeleted, -⟩ := destructor_drains [s, make ℕ 2 1]
    (List.forall_mem_cons.mpr ⟨⟨⟨_, hs⟩, .inr ⟨true, hproducer⟩, .inr ⟨true, hconsumer⟩⟩,
      List.forall_mem_singleton.mpr ⟨.refl _, .inl rfl, .inl rfl⟩⟩)
    ⟨0, rfl⟩ (by decide) (by decide)
  refine ⟨s, hs, steps, t, hrun, hqueues, ?_⟩
  simpa [henqueued, hdequeued, make, BlockRings.make] using hdeleted

end MessagePass.BlockingQueues
