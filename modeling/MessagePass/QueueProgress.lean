import MessagePass.QueueLinearization

/-!
# Calls that end

A dequeueing with a time limit, or without a wait, ends after a bounded number of steps of its own
while the producer rests between two calls.
-/
namespace MessagePass.BlockingQueues
open LabelledRuns BlockRings LightSemaphores

variable {T : Type}

def Between (s : State T) : Prop := s.consumer = .idle ∨ ∃ success, s.consumer = .returned success

/-- The consumer is in a dequeueing whose wait is bounded. -/
def InCall (s : State T) : Prop :=
  (∃ op, s.consumer = .waiting op ∧ op ≠ .waitDequeue ∧ s.sema.waiter.Limited) ∨
    s.consumer = .taking

def AtRest (s : State T) : Prop := s.producer = .idle ∨ ∃ success, s.producer = .returned success

def State.remaining (s : State T) : ℕ :=
  match s.consumer with
  | .idle | .returned _ => 0
  | .waiting _ => s.sema.waiter.remaining + 8
  | .taking | .peeking => s.inner.consumer.remaining

/-- Only `wait_dequeue` may wait without an end. -/
def Op.Bounded : Op → Prop
  | .tryDequeue | .pop => True
  | .waitDequeue => False
  | .waitDequeueTimed timeout => 0 ≤ timeout

section Standing
variable {s t : State T}

theorem SameConsumer.between (h : SameConsumer s t) (hs : Between s) : Between t := by
  unfold Between at hs ⊢
  rwa [h.pc]

theorem SameConsumer.inCall (h : SameConsumer s t) (hs : InCall s) : InCall t := by
  unfold InCall at hs ⊢
  rwa [h.pc, h.waiter]

theorem SameProducer.atRest (h : SameProducer s t) (hs : AtRest s) : AtRest t := by
  unfold AtRest at hs ⊢
  rwa [h.pc]

theorem InCall.not_between (h : InCall s) : ¬ Between s := by
  rintro (hpc | ⟨success, hpc⟩) <;> rcases h with ⟨op, hcall, -⟩ | hcall <;> simp [hpc] at hcall

theorem InCall.not_peeking (h : InCall s) : s.consumer ≠ .peeking := by
  rcases h with ⟨op, hcall, -⟩ | hcall <;> simp [hcall]

theorem Between.congr (h : Between t) (hpc : t.consumer = s.consumer) : Between s := by
  unfold Between at h ⊢
  rwa [hpc] at h

theorem InCall.remaining_le (h : InCall s) : s.remaining ≤ 1038 := by
  rcases h with ⟨op, hpc, -, hlimited⟩ | hpc
  · have hle := hlimited.remaining_le
    simp only [State.remaining, hpc]
    omega
  · simp only [State.remaining, hpc]
    cases s.inner.consumer <;> simp [ConsumerPc.remaining]

theorem SameProducer.trans {u : State T} (h : SameProducer s t) (h' : SameProducer t u) :
    SameProducer s u :=
  ⟨h'.pc.trans h.pc, h'.inner.trans h.inner, h'.enqueued.trans h.enqueued,
    h'.signaller.trans h.signaller, h'.signalled.trans h.signalled,
    h'.completed.trans h.completed, h'.allocated.trans h.allocated⟩

theorem SameProducer.refl (s : State T) : SameProducer s s :=
  ⟨rfl, rfl, rfl, rfl, rfl, rfl, rfl⟩

end Standing

namespace Coupled
variable {capacity maxBlockSize : ℕ} {s t : State T}

theorem dequeue_isSome (maxBlockSize : ℕ) (hs : Between s) (op : Op) :
    (BlockingQueues.next maxBlockSize s (.dequeue op)).isSome := by
  rcases hs with hpc | ⟨success, hpc⟩ <;> simp [BlockingQueues.next, hpc]

theorem dequeue_inCall {op : Op} (hop : op.Bounded)
    (hs : BlockingQueues.next maxBlockSize s (.dequeue op) = some t) :
    InCall t ∧ t.remaining = 1038 ∧ SameProducer s t := by
  simp only [BlockingQueues.next] at hs
  split at hs <;> cases hs
  all_goals
    refine ⟨.inl ⟨op, rfl, ?_, ?_⟩, rfl, ⟨rfl, rfl, rfl, rfl, rfl, rfl, rfl⟩⟩
    · rintro rfl
      exact hop
    · cases op with
      | waitDequeue => exact hop.elim
      | _ => exact hop

theorem consumer_standing (h : Coupled capacity s) {expired : Bool} (hcall : InCall s)
    (hs : BlockingQueues.next maxBlockSize s (.consumer expired) = some t) :
    InCall t ∨ Between t := by
  obtain ⟨hm, -⟩ := h.consumerStep_move hs
  cases hm with
  | wait op sema hpc hidle hbusy hlimited hkept =>
    rcases hcall with ⟨op', hpc', hop, hwaiter⟩ | hpc'
    · exact .inl (.inl ⟨op', hpc', hop, hlimited hwaiter⟩)
    · simp [hpc] at hpc'
  | retry sema hpc hkept =>
    rcases hcall with ⟨op', hpc', hop, -⟩ | hpc'
    · exact absurd (DequeuePc.waiting.inj (hpc'.symm.trans hpc)) hop
    · simp [hpc] at hpc'
  | refuse => exact .inr (.inr ⟨false, rfl⟩)
  | take => exact .inl (.inr rfl)
  | seek call inner hpc => exact .inl (.inr hpc)
  | moveOut call v inner hpc => exact .inl (.inr hpc)
  | finish => exact .inr (.inr ⟨true, rfl⟩)
  | look call inner hpc => exact absurd hpc hcall.not_peeking
  | seen success inner hpc => exact absurd hpc hcall.not_peeking

theorem rest_signaller (h : Coupled capacity s) (hrest : AtRest s) : s.sema.signaller ≠ .post := by
  have hat := h.producer
  rcases hrest with hpc | ⟨success, hpc⟩ <;> simp only [ProducerAt, hpc] at hat <;> simp [hat.1]

/-- While the producer rests, a step of a consumer whose time is up brings its call nearer to the
end. -/
theorem consumer_ends (maxBlockSize : ℕ) (h : Coupled capacity s) (hrest : AtRest s)
    (hcall : InCall s) :
    ∃ t, BlockingQueues.next maxBlockSize s (.consumer true) = some t ∧
      t.remaining < s.remaining := by
  have hat := h.consumer
  rcases hcall with ⟨op, hpc, hop, hlimited⟩ | hpc
  · simp only [ConsumerAt, hpc] at hat
    have hne := WaiterPc.remaining_ne_zero hat.2.1 hat.2.2.1
    obtain ⟨sema, hstep, -, hlt, -⟩ :=
      h.sema.waiterStep_ends (h.rest_signaller hrest) hlimited hne
    have hs : s.remaining = s.sema.waiter.remaining + 8 := by simp only [State.remaining, hpc]
    have hstart : (s.inner.startCall op.take).consumer.remaining ≤ 8 := by
      simp only [BlockRings.State.startCall]
      split <;> simp [ConsumerPc.remaining]
    simp only [BlockingQueues.next, State.consumerStep, hpc, LightSemaphores.next, hstep,
      Option.map_some]
    refine ⟨_, rfl, ?_⟩
    rw [hs]
    obtain ⟨-, -, ⟨hwaiter, -⟩ | ⟨hwaiter, -, -⟩ | ⟨hbusy, hidle, -⟩⟩ := waiterStep_cases hstep
    · simp only [hwaiter, State.remaining]
      omega
    · cases op with
      | waitDequeue => exact absurd rfl hop
      | _ => simp [hwaiter, State.remaining]
    · cases hwaiter : sema.waiter with
      | idle => exact absurd hwaiter hidle
      | returned success => exact absurd hwaiter (hbusy success)
      | _ =>
        rw [hwaiter] at hlt
        simpa [hwaiter, State.remaining] using hlt
  · simp only [ConsumerAt, hpc] at hat
    have hne : s.inner.consumer.remaining ≠ 0 := by
      rcases hat.2.2 with ⟨hout, -⟩ | ⟨call, hcall, -⟩
      · simp [hout, ConsumerPc.remaining]
      · cases hconsumer : s.inner.consumer <;>
          simp_all [ConsumerPc.call?, ConsumerPc.remaining]
    have hs : s.remaining = s.inner.consumer.remaining := by simp only [State.remaining, hpc]
    obtain ⟨_, _, _, hinner⟩ := id h.inner
    obtain ⟨inner, hnext⟩ : ∃ inner, BlockRings.next maxBlockSize s.inner .consumer = some inner :=
      Option.isSome_iff_exists.mp ((next_isSome hinner.fault).2 hne)
    have hlt : inner.consumer.remaining + 1 ≤ s.inner.consumer.remaining := by
      simpa [BlockRings.Label.ofConsumer] using (next_remaining h.inner hnext).2 (by simp)
    simp only [BlockingQueues.next, State.consumerStep, hpc, hnext, Option.map_some]
    refine ⟨_, rfl, ?_⟩
    rw [hs]
    cases hconsumer : inner.consumer with
    | returned success =>
      simp only [State.remaining]
      omega
    | _ =>
      rw [hconsumer] at hlt
      simp only [State.remaining, hconsumer]
      omega

theorem remaining_lt (h : Coupled capacity s) (hrest : AtRest s) (hcall : InCall s)
    (hs : BlockingQueues.next maxBlockSize s (.consumer true) = some t) :
    t.remaining < s.remaining := by
  obtain ⟨u, hu, hlt⟩ := h.consumer_ends maxBlockSize hrest hcall
  rw [hs] at hu
  cases hu
  exact hlt

end Coupled

theorem offered_of_atRest {capacity : ℕ} {s : State T} (h : Coupled capacity s)
    (hrest : AtRest s) : offered s = s.inner.enqueued := by
  have henqueued := h.enqueued
  have hzero : unsignalled s = 0 := by
    rcases hrest with hpc | ⟨success, hpc⟩ <;> simp [unsignalled, hpc]
  rw [hzero] at henqueued
  exact List.take_of_length_le (Nat.le_of_eq henqueued)

end MessagePass.BlockingQueues
