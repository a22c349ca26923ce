import MessagePass.LightSemaphores
import MessagePass.RingGuarantees

/-!
# Blocking reader-writer queues

A `BlockingReaderWriterQueue` is a `ReaderWriterQueue` with a `LightweightSemaphore` that counts the
elements in it. An enqueueing that succeeds is followed by a signal, a dequeueing is preceded by a
wait; after a wait that succeeded the queue is assumed, and asserted, to have an element. Only
`peek` does not ask the semaphore.
-/
namespace MessagePass.BlockingQueues
open LabelledRuns BlockRings LightSemaphores

variable {T : Type}

inductive Op | tryDequeue | pop | waitDequeue | waitDequeueTimed (timeout : ℤ) deriving DecidableEq

def Op.wait : Op → WaitOp
  | .tryDequeue | .pop => .tryWait
  | .waitDequeue => .wait (-1)
  | .waitDequeueTimed timeout => .wait timeout

def Op.take : Op → ConsumerOp
  | .pop => .pop
  | .tryDequeue | .waitDequeue | .waitDequeueTimed _ => .tryDequeue

inductive EnqueuePc | idle | returned (success : Bool) | enqueuing | signalling deriving DecidableEq

/-- Whether the consumer works on the semaphore or on the queue, for a dequeueing or in `peek`. -/
inductive DequeuePc | idle | returned (success : Bool) | waiting (op : Op) | taking | peeking
  deriving DecidableEq

/-- The two members and the two threads, how many elements were enqueued by calls that have
returned, and that number beside the elements dequeued at the end of each call that returned
without one. -/
structure State (T : Type) where
  inner : BlockRings.State T
  sema : LightSemaphores.State
  producer : EnqueuePc := .idle
  consumer : DequeuePc := .idle
  assertionFailed : Bool := false
  completed : ℕ := 0
  refused : List (ℕ × ℕ) := []

def make (T : Type) (maxBlockSize size : ℕ) : State T where
  inner := BlockRings.make T maxBlockSize size
  sema := LightSemaphores.make 0

namespace State

/-- `if (inner.enqueue(element)) { sema->signal(); return true; } return false;` -/
def producerStep (maxBlockSize : ℕ) (malloc : Bool) (s : State T) : Option (State T) :=
  match s.producer with
  | .idle | .returned _ => none
  | .enqueuing =>
      (BlockRings.next maxBlockSize s.inner (.producer malloc)).map fun inner =>
        match inner.producer with
        | .returned true =>
            { s with inner := inner, sema := s.sema.startSignal 1, producer := .signalling }
        | .returned false => { s with inner := inner, producer := .returned false }
        | _ => { s with inner := inner }
  | .signalling =>
      (LightSemaphores.next s.sema .signaller).map fun sema =>
        match sema.signaller with
        | .idle =>
            { s with sema := sema, producer := .returned true, completed := s.completed + 1 }
        | _ => { s with sema := sema }

/-- The wait, which `wait_dequeue` repeats until it succeeds, and then the dequeueing; or a step of
`peek`. -/
def consumerStep (maxBlockSize : ℕ) (expired : Bool) (s : State T) : Option (State T) :=
  match s.consumer with
  | .idle | .returned _ => none
  | .waiting op =>
      (LightSemaphores.next s.sema (.waiter expired)).map fun sema =>
        match sema.waiter with
        | .returned true =>
            { s with inner := s.inner.startCall op.take, sema := sema, consumer := .taking }
        | .returned false =>
            match op with
            | .waitDequeue => { s with sema := sema.startWait (.wait (-1)) }
            | _ =>
                { s with
                  sema := sema
                  consumer := .returned false
                  refused := s.refused ++ [(s.completed, s.inner.dequeued.length)] }
        | _ => { s with sema := sema }
  | .taking =>
      (BlockRings.next maxBlockSize s.inner .consumer).map fun inner =>
        match inner.consumer with
        | .returned success =>
            { s with
              inner := inner
              consumer := .returned true
              assertionFailed := s.assertionFailed || !success }
        | _ => { s with inner := inner }
  | .peeking =>
      (BlockRings.next maxBlockSize s.inner .consumer).map fun inner =>
        match inner.consumer with
        | .returned success => { s with inner := inner, consumer := .returned success }
        | _ => { s with inner := inner }

def sizeApprox (s : State T) : ℕ := s.sema.availableApprox

end State

inductive Label (T : Type) where
  | enqueue (v : T) (mode : AllocationMode)
  | producer (malloc : Bool)
  | dequeue (op : Op)
  | peek
  | consumer (expired : Bool)
  deriving DecidableEq

def next (maxBlockSize : ℕ) (s : State T) : Label T → Option (State T)
  | .enqueue v mode =>
      match s.producer with
      | .idle | .returned _ =>
          some { s with inner := s.inner.startEnqueue v mode, producer := .enqueuing }
      | _ => none
  | .producer malloc => s.producerStep maxBlockSize malloc
  | .dequeue op =>
      match s.consumer with
      | .idle | .returned _ =>
          some { s with sema := s.sema.startWait op.wait, consumer := .waiting op }
      | _ => none
  | .peek =>
      match s.consumer with
      | .idle | .returned _ =>
          some { s with inner := s.inner.startCall .peek, consumer := .peeking }
      | _ => none
  | .consumer expired => s.consumerStep maxBlockSize expired

def unsignalled (s : State T) : ℕ :=
  match s.producer with
  | .signalling => if s.sema.signaller = .add 1 then 1 else 0
  | _ => 0

def unreturned (s : State T) : ℕ :=
  match s.producer with
  | .signalling => 1
  | _ => 0

def ProducerAt (s : State T) : Prop :=
  match s.producer with
  | .idle | .returned _ => s.sema.signaller = .idle ∧ s.inner.producer.value? = none
  | .enqueuing => s.sema.signaller = .idle ∧ ∃ v, s.inner.producer.value? = some v
  | .signalling => (s.sema.signaller = .add 1 ∨ s.sema.signaller = .post) ∧
      s.inner.producer.value? = none

/-- Where the consumer stands in the two members. A call that has taken a unit but not its element
began when that element was in the queue. -/
def ConsumerAt (s : State T) : Prop :=
  match s.consumer with
  | .idle | .returned _ => s.inner.consumer.remaining = 0 ∧
      (s.sema.waiter = .idle ∨ ∃ success, s.sema.waiter = .returned success) ∧
      s.sema.taken = s.inner.dequeued.length
  | .waiting _ => s.inner.consumer.remaining = 0 ∧ s.sema.waiter ≠ .idle ∧
      (∀ success, s.sema.waiter ≠ .returned success) ∧ s.sema.taken = s.inner.dequeued.length
  | .taking => s.sema.waiter = .returned true ∧ s.sema.taken ≠ 0 ∧
      (s.inner.consumer = .publishFront ∧ s.sema.taken = s.inner.dequeued.length ∨
        ∃ call, s.inner.consumer.call? = some call ∧ call.op ≠ .peek ∧
          s.inner.dequeued.length < call.since ∧ s.sema.taken = s.inner.dequeued.length + 1)
  | .peeking =>
      (∃ call, s.inner.consumer.call? = some call ∧ call.op = .peek) ∧
        (s.sema.waiter = .idle ∨ ∃ success, s.sema.waiter = .returned success) ∧
        s.sema.taken = s.inner.dequeued.length

structure SameProducer (s t : State T) : Prop where
  pc : t.producer = s.producer
  inner : t.inner.producer = s.inner.producer
  enqueued : t.inner.enqueued = s.inner.enqueued
  signaller : t.sema.signaller = s.sema.signaller
  signalled : t.sema.signalled = s.sema.signalled
  completed : t.completed = s.completed
  allocated : t.inner.queue.allocated = s.inner.queue.allocated

/-- What a step of the producer leaves alone. -/
structure SameConsumer (s t : State T) : Prop where
  pc : t.consumer = s.consumer
  inner : t.inner.consumer = s.inner.consumer
  dequeued : t.inner.dequeued = s.inner.dequeued
  waiter : t.sema.waiter = s.sema.waiter
  taken : t.sema.taken = s.sema.taken
  refused : t.refused = s.refused
  assertion : t.assertionFailed = s.assertionFailed

inductive ProducerMove (s : State T) : State T → Prop
  | work (v inner) (hpc : s.producer = .enqueuing) (hv : s.inner.producer.value? = some v)
      (hstill : inner.producer.value? = some v) (hsame : inner.enqueued = s.inner.enqueued) :
      ProducerMove s { s with inner := inner }
  | fail (v inner) (hpc : s.producer = .enqueuing) (hv : s.inner.producer.value? = some v)
      (hdone : inner.producer = .returned false) (hsame : inner.enqueued = s.inner.enqueued) :
      ProducerMove s { s with inner := inner, producer := .returned false }
  | store (v inner) (hpc : s.producer = .enqueuing) (hv : s.inner.producer.value? = some v)
      (hdone : inner.producer = .returned true)
      (hmore : inner.enqueued = s.inner.enqueued ++ [v]) :
      ProducerMove s
        { s with inner := inner, sema := s.sema.startSignal 1, producer := .signalling }
  | add (sema) (hpc : s.producer = .signalling) (hadd : s.sema.signaller = .add 1)
      (hpost : sema.signaller = .post) (hmore : sema.signalled = s.sema.signalled + 1) :
      ProducerMove s { s with sema := sema }
  | finish (sema) (hpc : s.producer = .signalling) (hidle : sema.signaller = .idle)
      (hcount : sema.signalled = s.sema.signalled + unsignalled s) :
      ProducerMove s
        { s with sema := sema, producer := .returned true, completed := s.completed + 1 }

/-- The steps of the consumer, when the two members agree. -/
inductive ConsumerMove (s : State T) : State T → Prop
  | wait (op) (sema : LightSemaphores.State) (hpc : s.consumer = .waiting op)
      (hidle : sema.waiter ≠ .idle) (hbusy : ∀ success, sema.waiter ≠ .returned success)
      (hlimited : s.sema.waiter.Limited → sema.waiter.Limited)
      (hsame : sema.taken = s.sema.taken) : ConsumerMove s { s with sema := sema }
  | retry (sema : LightSemaphores.State) (hpc : s.consumer = .waiting .waitDequeue)
      (hsame : sema.taken = s.sema.taken) :
      ConsumerMove s { s with sema := sema.startWait (.wait (-1)) }
  | refuse (op) (sema : LightSemaphores.State) (hpc : s.consumer = .waiting op)
      (hop : op ≠ .waitDequeue) (hwaiter : sema.waiter = .returned false)
      (hsame : sema.taken = s.sema.taken) (hall : s.sema.signalled = s.sema.taken) :
      ConsumerMove s { s with
        sema := sema
        consumer := .returned false
        refused := s.refused ++ [(s.completed, s.inner.dequeued.length)] }
  | take (op) (sema : LightSemaphores.State) (hpc : s.consumer = .waiting op)
      (hwaiter : sema.waiter = .returned true) (hmore : sema.taken = s.sema.taken + 1) :
      ConsumerMove s
        { s with inner := s.inner.startCall op.take, sema := sema, consumer := .taking }
  | seek (call inner) (hpc : s.consumer = .taking) (hcall : s.inner.consumer.call? = some call)
      (hstill : inner.consumer.call? = some call) (hsame : inner.dequeued = s.inner.dequeued) :
      ConsumerMove s { s with inner := inner }
  | moveOut (call v inner) (hpc : s.consumer = .taking) (hcall : s.inner.consumer.call? = some call)
      (hout : inner.consumer = .publishFront) (hmore : inner.dequeued = s.inner.dequeued ++ [v]) :
      ConsumerMove s { s with inner := inner }
  | finish (inner) (hpc : s.consumer = .taking) (hout : s.inner.consumer = .publishFront)
      (hdone : inner.consumer = .returned true) (hsame : inner.dequeued = s.inner.dequeued) :
      ConsumerMove s { s with inner := inner, consumer := .returned true }
  | look (call inner) (hpc : s.consumer = .peeking) (hcall : s.inner.consumer.call? = some call)
      (hstill : inner.consumer.call? = some call) (hsame : inner.dequeued = s.inner.dequeued) :
      ConsumerMove s { s with inner := inner }
  | seen (success inner) (hpc : s.consumer = .peeking)
      (hdone : inner.consumer = .returned success) (hsame : inner.dequeued = s.inner.dequeued) :
      ConsumerMove s { s with inner := inner, consumer := .returned success }

/-- The two members agree on how many elements came and went. -/
structure Coupled (capacity : ℕ) (s : State T) : Prop where
  inner : Described capacity s.inner
  sema : Balanced s.sema
  assertion : s.assertionFailed = false
  enqueued : s.inner.enqueued.length = s.sema.signalled + unsignalled s
  completed : s.inner.enqueued.length = s.completed + unreturned s
  producer : ProducerAt s
  consumer : ConsumerAt s
  refused : ∀ entry ∈ s.refused, entry.1 ≤ entry.2

namespace SameProducer
variable {s t : State T}

theorem unsignalled_eq (h : SameProducer s t) : unsignalled t = unsignalled s := by
  unfold unsignalled
  rw [h.pc, h.signaller]

theorem unreturned_eq (h : SameProducer s t) : unreturned t = unreturned s := by
  unfold unreturned
  rw [h.pc]

theorem producerAt (h : SameProducer s t) (hat : ProducerAt s) : ProducerAt t := by
  unfold ProducerAt at hat ⊢
  rwa [h.pc, h.inner, h.signaller]

theorem coupled {capacity : ℕ} (h : SameProducer s t) (hs : Coupled capacity s)
    (hinner : Described capacity t.inner) (hsema : Balanced t.sema)
    (hassertion : t.assertionFailed = false) (hconsumer : ConsumerAt t)
    (hrefused : ∀ entry ∈ t.refused, entry.1 ≤ entry.2) : Coupled capacity t where
  inner := hinner
  sema := hsema
  assertion := hassertion
  enqueued := by
    rw [h.enqueued, h.signalled, h.unsignalled_eq]
    exact hs.enqueued
  completed := by
    rw [h.enqueued, h.completed, h.unreturned_eq]
    exact hs.completed
  producer := h.producerAt hs.producer
  consumer := hconsumer
  refused := hrefused

end SameProducer

namespace SameConsumer
variable {s t : State T}

theorem consumerAt (h : SameConsumer s t) (hat : ConsumerAt s) : ConsumerAt t := by
  unfold ConsumerAt at hat ⊢
  rwa [h.pc, h.inner, h.dequeued, h.waiter, h.taken]

theorem coupled {capacity : ℕ} (h : SameConsumer s t) (hs : Coupled capacity s)
    (hinner : Described capacity t.inner) (hsema : Balanced t.sema)
    (henqueued : t.inner.enqueued.length = t.sema.signalled + unsignalled t)
    (hcompleted : t.inner.enqueued.length = t.completed + unreturned t)
    (hproducer : ProducerAt t) : Coupled capacity t where
  inner := hinner
  sema := hsema
  assertion := h.assertion.trans hs.assertion
  enqueued := henqueued
  completed := hcompleted
  producer := hproducer
  consumer := h.consumerAt hs.consumer
  refused := h.refused ▸ hs.refused

end SameConsumer

namespace Coupled
variable {capacity maxBlockSize : ℕ} {s t : State T}

theorem completed_le (h : Coupled capacity s) : s.completed ≤ s.sema.signalled := by
  have henqueued := h.enqueued
  have hcompleted := h.completed
  have hone : unsignalled s ≤ unreturned s := by
    unfold unsignalled unreturned
    split
    · split <;> omega
    · exact Nat.le_refl _
  omega

theorem startEnqueue (h : Coupled capacity s)
    (hpc : s.producer = .idle ∨ ∃ success, s.producer = .returned success) (v : T)
    (mode : AllocationMode) :
    Coupled capacity { s with inner := s.inner.startEnqueue v mode, producer := .enqueuing } := by
  have hat := h.producer
  have hzero : unsignalled s = 0 ∧ unreturned s = 0 ∧ s.sema.signaller = .idle ∧
      s.inner.producer.value? = none := by
    rcases hpc with hpc | ⟨success, hpc⟩ <;>
      simp only [ProducerAt, hpc] at hat <;>
      exact ⟨by simp [unsignalled, hpc], by simp [unreturned, hpc], hat⟩
  obtain ⟨hunsignalled, hunreturned, hsignaller, hnone⟩ := hzero
  obtain ⟨active, free, contents, hinner⟩ := h.inner
  have hready : s.inner.producer = .idle ∨ ∃ success, s.inner.producer = .returned success := by
    cases hproducer : s.inner.producer <;> simp_all [ProducerPc.value?]
  have henqueued := h.enqueued
  have hcompleted := h.completed
  rw [hunsignalled] at henqueued
  rw [hunreturned] at hcompleted
  have hsame : SameConsumer s
      { s with inner := s.inner.startEnqueue v mode, producer := .enqueuing } :=
    ⟨rfl, rfl, rfl, rfl, rfl, rfl, rfl⟩
  refine hsame.coupled h ⟨active, free, contents, hinner.startEnqueue hready v mode⟩ h.sema
    henqueued hcompleted ⟨hsignaller, v, ?_⟩
  simp only [BlockRings.State.startEnqueue]
  split <;> rfl

theorem producerStep_move (h : Coupled capacity s) {malloc : Bool}
    (hs : s.producerStep maxBlockSize malloc = some t) :
    ProducerMove s t ∧ SameConsumer s t ∧ Described capacity t.inner ∧ Balanced t.sema := by
  have hat := h.producer
  unfold State.producerStep at hs
  cases hpc : s.producer with
  | idle => simp [hpc] at hs
  | returned success => simp [hpc] at hs
  | enqueuing =>
    simp only [hpc] at hs
    simp only [ProducerAt, hpc] at hat
    obtain ⟨inner, hnext, hs⟩ := Option.map_eq_some_iff.mp hs
    have hinner := described_next h.inner hnext
    obtain ⟨_, _, _, hstart⟩ := h.inner
    obtain ⟨_, _, _, hend⟩ := id hinner
    simp only [BlockRings.next, hstart.fault, Option.isSome_none, Bool.false_eq_true, if_false]
      at hnext
    obtain ⟨-, hconsumer, hdequeued, v, hv, heffect⟩ := producerStep_effect hnext hend.fault
    rcases heffect with ⟨hdone, hmore⟩ | ⟨hdone, hsame⟩ | ⟨hstill, hsame⟩
    · simp only [hdone] at hs
      subst hs
      exact ⟨.store v inner hpc hv hdone hmore, ⟨rfl, hconsumer, hdequeued, rfl, rfl, rfl, rfl⟩,
        hinner, h.sema.startSignal hat.1 Nat.one_pos⟩
    · simp only [hdone] at hs
      subst hs
      exact ⟨.fail v inner hpc hv hdone hsame, ⟨rfl, hconsumer, hdequeued, rfl, rfl, rfl, rfl⟩,
        hinner, h.sema⟩
    · have ht : t = { s with inner := inner } := by
        rw [← hs]
        cases hproducer : inner.producer <;> simp_all [ProducerPc.value?]
      subst ht
      exact ⟨.work v inner hpc hv hstill hsame, ⟨rfl, hconsumer, hdequeued, rfl, rfl, rfl, rfl⟩,
        hinner, h.sema⟩
  | signalling =>
    simp only [hpc] at hs
    obtain ⟨sema, hnext, hs⟩ := Option.map_eq_some_iff.mp hs
    simp only [ProducerAt, hpc] at hat
    have hsema := h.sema.signallerStep hnext
    obtain ⟨hwaiter, htaken, heffect⟩ := signallerStep_cases hnext
    have heffect : s.sema.signaller = .add 1 ∧ sema.signalled = s.sema.signalled + 1 ∧
          (∀ count, sema.signaller ≠ .add count) ∨
        s.sema.signaller = .post ∧ sema.signalled = s.sema.signalled ∧ sema.signaller = .idle := by
      rcases heffect with ⟨⟨count, hadd, hmore⟩, hdone⟩ | hpost
      · obtain rfl : count = 1 := by simpa [hadd] using hat.1
        exact .inl ⟨hadd, hmore, hdone⟩
      · exact .inr hpost
    have hcount : sema.signalled = s.sema.signalled + unsignalled s ∧
        ∀ count, sema.signaller ≠ .add count := by
      rcases heffect with ⟨hadd, hmore, hdone⟩ | ⟨hpost, hsame, hidle⟩
      · exact ⟨by simp [unsignalled, hpc, hadd, hmore], hdone⟩
      · exact ⟨by simp [unsignalled, hpc, hpost, hsame], by simp [hidle]⟩
    cases hsignaller : sema.signaller with
    | idle =>
      simp only [hsignaller] at hs
      subst hs
      exact ⟨.finish sema hpc hsignaller hcount.1, ⟨rfl, rfl, rfl, hwaiter, htaken, rfl, rfl⟩,
        h.inner, hsema⟩
    | add count => exact absurd hsignaller (hcount.2 count)
    | post =>
      have ht : t = { s with sema := sema } := by
        rw [← hs, hsignaller, ← hpc]
      subst ht
      rcases heffect with ⟨hadd, hmore, -⟩ | ⟨-, -, hidle⟩
      · exact ⟨.add sema hpc hadd hsignaller hmore, ⟨rfl, rfl, rfl, hwaiter, htaken, rfl, rfl⟩,
          h.inner, hsema⟩
      · simp [hsignaller] at hidle

theorem producerStep (h : Coupled capacity s) {malloc : Bool}
    (hs : s.producerStep maxBlockSize malloc = some t) : Coupled capacity t := by
  obtain ⟨hm, hsame, hinner, hsema⟩ := h.producerStep_move hs
  have hat := h.producer
  have henqueued := h.enqueued
  have hcompleted := h.completed
  cases hm with
  | work v inner hpc hv hstill hkept =>
    simp only [ProducerAt, hpc] at hat
    simp only [unsignalled, unreturned, hpc] at henqueued hcompleted
    refine hsame.coupled h hinner hsema ?_ ?_ ?_
    · simpa [unsignalled, hpc, hkept] using henqueued
    · simpa [unreturned, hpc, hkept] using hcompleted
    · simp only [ProducerAt, hpc]
      exact ⟨hat.1, v, hstill⟩
  | fail v inner hpc hv hdone hkept =>
    simp only [ProducerAt, hpc] at hat
    simp only [unsignalled, unreturned, hpc] at henqueued hcompleted
    refine hsame.coupled h hinner hsema ?_ ?_ ⟨hat.1, by simp [hdone, ProducerPc.value?]⟩
    · simpa [unsignalled, hkept] using henqueued
    · simpa [unreturned, hkept] using hcompleted
  | store v inner hpc hv hdone hmore =>
    -- the element is in the queue, and the signal for it follows
    simp only [unsignalled, unreturned, hpc] at henqueued hcompleted
    refine hsame.coupled h hinner hsema ?_ ?_
      ⟨.inl rfl, by simp [hdone, ProducerPc.value?]⟩
    · simp [unsignalled, LightSemaphores.State.startSignal, hmore, henqueued]
    · simp [unreturned, hmore, hcompleted]
  | add sema hpc hadd hpost hmore =>
    simp only [ProducerAt, hpc] at hat
    simp only [unsignalled, unreturned, hpc, hadd, if_true] at henqueued hcompleted
    refine hsame.coupled h hinner hsema ?_ ?_ ?_
    · simpa [unsignalled, hpc, hpost, hmore] using henqueued
    · simpa [unreturned, hpc] using hcompleted
    · simp only [ProducerAt, hpc]
      exact ⟨.inr hpost, hat.2⟩
  | finish sema hpc hidle hcount =>
    simp only [ProducerAt, hpc] at hat
    simp only [unreturned, hpc] at hcompleted
    refine hsame.coupled h hinner hsema ?_ ?_ ⟨hidle, hat.2⟩
    · simpa [unsignalled, hcount] using henqueued
    · simpa [unreturned] using hcompleted

theorem between (h : Coupled capacity s)
    (hpc : s.consumer = .idle ∨ ∃ success, s.consumer = .returned success) :
    s.inner.consumer.remaining = 0 ∧
      (s.sema.waiter = .idle ∨ ∃ success, s.sema.waiter = .returned success) ∧
      s.sema.taken = s.inner.dequeued.length := by
  have hat := h.consumer
  rcases hpc with hpc | ⟨success, hpc⟩ <;> simpa only [ConsumerAt, hpc] using hat

theorem startWait (h : Coupled capacity s)
    (hpc : s.consumer = .idle ∨ ∃ success, s.consumer = .returned success) (op : Op) :
    Coupled capacity { s with sema := s.sema.startWait op.wait, consumer := .waiting op } := by
  obtain ⟨hremaining, hwaiter, htaken⟩ := h.between hpc
  have hsame : SameProducer s
      { s with sema := s.sema.startWait op.wait, consumer := .waiting op } :=
    ⟨rfl, rfl, rfl, rfl, rfl, rfl, rfl⟩
  exact hsame.coupled h h.inner (h.sema.startWait hwaiter op.wait) h.assertion
    ⟨hremaining, by simp [LightSemaphores.State.startWait],
      by simp [LightSemaphores.State.startWait], htaken⟩ h.refused

theorem consumer_ready (hremaining : s.inner.consumer.remaining = 0) :
    s.inner.consumer = .idle ∨ ∃ success, s.inner.consumer = .returned success := by
  cases hconsumer : s.inner.consumer <;> simp_all [ConsumerPc.remaining]

theorem startPeek (h : Coupled capacity s)
    (hpc : s.consumer = .idle ∨ ∃ success, s.consumer = .returned success) :
    Coupled capacity { s with inner := s.inner.startCall .peek, consumer := .peeking } := by
  obtain ⟨hremaining, hwaiter, htaken⟩ := h.between hpc
  obtain ⟨active, free, contents, hinner⟩ := h.inner
  have hsame : SameProducer s { s with inner := s.inner.startCall .peek, consumer := .peeking } :=
    ⟨rfl, rfl, rfl, rfl, rfl, rfl, rfl⟩
  refine hsame.coupled h
    ⟨active, free, contents, hinner.startCall (consumer_ready hremaining) .peek⟩ h.sema h.assertion
    ⟨⟨⟨.peek, s.inner.enqueued.length⟩, ?_, rfl⟩, hwaiter, htaken⟩ h.refused
  simp only [BlockRings.State.startCall]
  split <;> rfl

/-- What a step of the consumer does: after a wait that succeeded the queue has the element. -/
theorem consumerStep_move (h : Coupled capacity s) {expired : Bool}
    (hs : s.consumerStep maxBlockSize expired = some t) :
    ConsumerMove s t ∧ SameProducer s t ∧ Described capacity t.inner ∧ Balanced t.sema ∧
      t.assertionFailed = false := by
  have hat := h.consumer
  unfold State.consumerStep at hs
  cases hpc : s.consumer with
  | idle => simp [hpc] at hs
  | returned success => simp [hpc] at hs
  | waiting op =>
    simp only [hpc] at hs
    simp only [ConsumerAt, hpc] at hat
    obtain ⟨hremaining, -, -, hcount⟩ := hat
    obtain ⟨sema, hnext, hs⟩ := Option.map_eq_some_iff.mp hs
    have hsema := h.sema.waiterStep hnext
    obtain ⟨hsignaller, hsignalled, heffect⟩ := waiterStep_cases hnext
    rcases heffect with ⟨hwaiter, hmore⟩ | ⟨hwaiter, hkept, hrefused⟩ | ⟨hbusy, hidle, hkept⟩
    · simp only [hwaiter] at hs
      subst hs
      obtain ⟨active, free, contents, hinner⟩ := h.inner
      have hready := consumer_ready hremaining
      exact ⟨.take op sema hpc hwaiter hmore, ⟨rfl, rfl, rfl, hsignaller, hsignalled, rfl, rfl⟩,
        ⟨active, free, contents, hinner.startCall hready op.take⟩, hsema, h.assertion⟩
    · have hall : s.sema.signalled = s.sema.taken := by
        have hall := hsema.refused _ hrefused
        simp only [hsignalled, hkept] at hall
        exact hall
      simp only [hwaiter] at hs
      by_cases hop : op = .waitDequeue
      · subst hop
        have ht : t = { s with sema := sema.startWait (.wait (-1)) } := by rw [← hs, hpc]
        subst ht
        exact ⟨.retry sema hpc hkept, ⟨rfl, rfl, rfl, hsignaller, hsignalled, rfl, rfl⟩, h.inner,
          hsema.startWait (.inr ⟨false, hwaiter⟩) _, h.assertion⟩
      · have ht : t = { s with
            sema := sema
            consumer := .returned false
            refused := s.refused ++ [(s.completed, s.inner.dequeued.length)] } := by
          rw [← hs]
          cases op <;> first | rfl | exact absurd rfl hop
        subst ht
        exact ⟨.refuse op sema hpc hop hwaiter hkept hall,
          ⟨rfl, rfl, rfl, hsignaller, hsignalled, rfl, rfl⟩, h.inner, hsema, h.assertion⟩
    · have ht : t = { s with sema := sema } := by
        rw [← hs]
        cases hwaiter : sema.waiter <;> simp_all
      subst ht
      exact ⟨.wait op sema hpc hidle hbusy (fun hwait => waiterStep_limited hwait hnext) hkept,
        ⟨rfl, rfl, rfl, hsignaller, hsignalled, rfl, rfl⟩, h.inner, hsema, h.assertion⟩
  | taking =>
    simp only [hpc] at hs
    simp only [ConsumerAt, hpc] at hat
    obtain ⟨-, -, hstage⟩ := hat
    obtain ⟨inner, hnext, hs⟩ := Option.map_eq_some_iff.mp hs
    have hinner := described_next h.inner hnext
    obtain ⟨_, _, _, hstart⟩ := h.inner
    obtain ⟨_, _, _, hend⟩ := id hinner
    simp only [BlockRings.next, hstart.fault, Option.isSome_none, Bool.false_eq_true, if_false]
      at hnext
    have hallocated := (consumerStep_allocated hnext).1
    obtain ⟨-, hproducer, henqueued, heffect⟩ := consumerStep_effect hnext hend.fault
    rcases heffect with ⟨hout, hdone, hkept⟩ | ⟨call, hcall, heffect⟩
    · simp only [hdone, Bool.not_true, Bool.or_false] at hs
      subst hs
      exact ⟨.finish inner hpc hout hdone hkept,
        ⟨rfl, hproducer, henqueued, rfl, rfl, rfl, hallocated⟩, hinner, h.sema, h.assertion⟩
    · obtain ⟨hop, hsince⟩ : call.op ≠ .peek ∧ s.inner.dequeued.length < call.since := by
        rcases hstage with ⟨hout, -⟩ | ⟨call', hcall', hop, hsince, -⟩
        · simp [hout, ConsumerPc.call?] at hcall
        · obtain rfl : call = call' := Option.some.inj (hcall.symm.trans hcall')
          exact ⟨hop, hsince⟩
      rcases heffect with ⟨hstill, hkept⟩ | ⟨hout, -, v, hmore⟩ | ⟨-, hpeek, -⟩ |
        ⟨-, hkept, hlogged⟩
      · have ht : t = { s with inner := inner } := by
          rw [← hs]
          cases hconsumer : inner.consumer <;> simp_all [ConsumerPc.call?]
        subst ht
        exact ⟨.seek call inner hpc hcall hstill hkept,
          ⟨rfl, hproducer, henqueued, rfl, rfl, rfl, hallocated⟩, hinner, h.sema, h.assertion⟩
      · have ht : t = { s with inner := inner } := by rw [← hs, hout, hpc]
        subst ht
        exact ⟨.moveOut call v inner hpc hcall hout hmore,
          ⟨rfl, hproducer, henqueued, rfl, rfl, rfl, hallocated⟩, hinner, h.sema, h.assertion⟩
      · exact absurd hpeek hop
      · -- the queue would have been empty, but the element was there when the call began
        have hmissed : call.since ≤ inner.dequeued.length := hend.misses _ hlogged
        rw [hkept] at hmissed
        omega
  | peeking =>
    simp only [hpc] at hs
    simp only [ConsumerAt, hpc] at hat
    obtain ⟨⟨call, hcall, hpeek⟩, -⟩ := hat
    obtain ⟨inner, hnext, hs⟩ := Option.map_eq_some_iff.mp hs
    have hinner := described_next h.inner hnext
    obtain ⟨_, _, _, hstart⟩ := h.inner
    obtain ⟨_, _, _, hend⟩ := id hinner
    simp only [BlockRings.next, hstart.fault, Option.isSome_none, Bool.false_eq_true, if_false]
      at hnext
    have hallocated := (consumerStep_allocated hnext).1
    obtain ⟨-, hproducer, henqueued, heffect⟩ := consumerStep_effect hnext hend.fault
    have hfinish : ∀ success, inner.consumer = .returned success →
        inner.dequeued = s.inner.dequeued →
        ConsumerMove s t ∧ SameProducer s t ∧ Described capacity t.inner ∧ Balanced t.sema ∧
          t.assertionFailed = false := by
      intro success hdone hkept
      simp only [hdone] at hs
      subst hs
      exact ⟨.seen success inner hpc hdone hkept,
        ⟨rfl, hproducer, henqueued, rfl, rfl, rfl, hallocated⟩, hinner, h.sema, h.assertion⟩
    rcases heffect with ⟨hout, -⟩ | ⟨call', hcall', heffect⟩
    · simp [hout, ConsumerPc.call?] at hcall
    · obtain rfl : call = call' := Option.some.inj (hcall.symm.trans hcall')
      rcases heffect with ⟨hstill, hkept⟩ | ⟨-, hop, -⟩ | ⟨hdone, -, hkept⟩ | ⟨hdone, hkept, -⟩
      · have ht : t = { s with inner := inner } := by
          rw [← hs]
          cases hconsumer : inner.consumer <;> simp_all [ConsumerPc.call?]
        subst ht
        exact ⟨.look call inner hpc hcall hstill hkept,
          ⟨rfl, hproducer, henqueued, rfl, rfl, rfl, hallocated⟩, hinner, h.sema, h.assertion⟩
      · exact absurd hpeek hop
      · exact hfinish true hdone hkept
      · exact hfinish false hdone hkept

theorem consumerStep (h : Coupled capacity s) {expired : Bool}
    (hs : s.consumerStep maxBlockSize expired = some t) : Coupled capacity t := by
  obtain ⟨hm, hsame, hinner, hsema, hassertion⟩ := h.consumerStep_move hs
  have hat := h.consumer
  cases hm with
  | wait op sema hpc hidle hbusy hlimited hkept =>
    simp only [ConsumerAt, hpc] at hat
    refine hsame.coupled h hinner hsema hassertion ?_ h.refused
    simp only [ConsumerAt, hpc]
    exact ⟨hat.1, hidle, hbusy, hkept.trans hat.2.2.2⟩
  | retry sema hpc hkept =>
    simp only [ConsumerAt, hpc] at hat
    refine hsame.coupled h hinner hsema hassertion ?_ h.refused
    simp only [ConsumerAt, hpc]
    exact ⟨hat.1, by simp [LightSemaphores.State.startWait],
      by simp [LightSemaphores.State.startWait], hkept.trans hat.2.2.2⟩
  | refuse op sema hpc hop hwaiter hkept hall =>
    -- every unit that was signalled is taken, so every completed element is gone
    simp only [ConsumerAt, hpc] at hat
    exact hsame.coupled h hinner hsema hassertion
      ⟨hat.1, .inr ⟨false, hwaiter⟩, hkept.trans hat.2.2.2⟩
      (forall_mem_concat h.refused (h.completed_le.trans (Nat.le_of_eq (hall.trans hat.2.2.2))))
  | take op sema hpc hwaiter hmore =>
    simp only [ConsumerAt, hpc] at hat
    have hcount := hat.2.2.2
    have henqueued := h.enqueued
    have hsignalled : sema.signalled = s.sema.signalled := hsame.signalled
    have hle := hsema.taken_le
    simp only at hle
    refine hsame.coupled h hinner hsema hassertion ⟨hwaiter, ?_, .inr
      ⟨⟨op.take, s.inner.enqueued.length⟩, ?_, ?_, ?_, ?_⟩⟩ h.refused
    · simp [hmore]
    · simp only [BlockRings.State.startCall]
      split <;> rfl
    · cases op <;> simp [Op.take]
    · change s.inner.dequeued.length < s.inner.enqueued.length
      omega
    · change sema.taken = s.inner.dequeued.length + 1
      omega
  | seek call inner hpc hcall hstill hkept =>
    simp only [ConsumerAt, hpc] at hat
    obtain ⟨hwaiter, hne, ⟨hout, -⟩ | ⟨call', hcall', hrest⟩⟩ := hat
    · simp [hout, ConsumerPc.call?] at hcall
    · obtain rfl : call = call' := Option.some.inj (hcall.symm.trans hcall')
      refine hsame.coupled h hinner hsema hassertion ?_ h.refused
      simp only [ConsumerAt, hpc, hkept]
      exact ⟨hwaiter, hne, .inr ⟨call, hstill, hrest⟩⟩
  | moveOut call v inner hpc hcall hout hmore =>
    simp only [ConsumerAt, hpc] at hat
    obtain ⟨hwaiter, hne, ⟨hout', -⟩ | ⟨call', -, -, -, htaken⟩⟩ := hat
    · simp [hout', ConsumerPc.call?] at hcall
    · refine hsame.coupled h hinner hsema hassertion ?_ h.refused
      simp only [ConsumerAt, hpc, hout, hmore, List.length_append, List.length_singleton]
      exact ⟨hwaiter, hne, .inl ⟨trivial, htaken⟩⟩
  | finish inner hpc hout hdone hkept =>
    simp only [ConsumerAt, hpc] at hat
    obtain ⟨hwaiter, -, ⟨-, htaken⟩ | ⟨call, hcall, -⟩⟩ := hat
    · refine hsame.coupled h hinner hsema hassertion ⟨?_, .inr ⟨true, hwaiter⟩, ?_⟩ h.refused
      · simp [hdone, ConsumerPc.remaining]
      · rw [hkept]
        exact htaken
    · simp [hout, ConsumerPc.call?] at hcall
  | look call inner hpc hcall hstill hkept =>
    simp only [ConsumerAt, hpc] at hat
    obtain ⟨⟨call', hcall', hpeek⟩, hwaiter, htaken⟩ := hat
    obtain rfl : call = call' := Option.some.inj (hcall.symm.trans hcall')
    refine hsame.coupled h hinner hsema hassertion ?_ h.refused
    simp only [ConsumerAt, hpc, hkept]
    exact ⟨⟨call, hstill, hpeek⟩, hwaiter, htaken⟩
  | seen success inner hpc hdone hkept =>
    simp only [ConsumerAt, hpc] at hat
    refine hsame.coupled h hinner hsema hassertion ⟨?_, hat.2.1, ?_⟩ h.refused
    · simp [hdone, ConsumerPc.remaining]
    · rw [hkept]
      exact hat.2.2

theorem next {label : Label T} (h : Coupled capacity s)
    (hs : next maxBlockSize s label = some t) : Coupled capacity t := by
  cases label with
  | enqueue v mode =>
    simp only [BlockingQueues.next] at hs
    split at hs <;> rename_i hpc <;> cases hs
    · exact h.startEnqueue (.inl hpc) v mode
    · exact h.startEnqueue (.inr ⟨_, hpc⟩) v mode
  | producer malloc => exact h.producerStep hs
  | dequeue op =>
    simp only [BlockingQueues.next] at hs
    split at hs <;> rename_i hpc <;> cases hs
    · exact h.startWait (.inl hpc) op
    · exact h.startWait (.inr ⟨_, hpc⟩) op
  | peek =>
    simp only [BlockingQueues.next] at hs
    split at hs <;> rename_i hpc <;> cases hs
    · exact h.startPeek (.inl hpc)
    · exact h.startPeek (.inr ⟨_, hpc⟩)
  | consumer expired => exact h.consumerStep hs

end Coupled

theorem coupled_initial {capacity : ℕ} {inner : BlockRings.State T} (h : Described capacity inner)
    (henqueued : inner.enqueued = []) (hdequeued : inner.dequeued = [])
    (hproducer : inner.producer = .idle) (hconsumer : inner.consumer = .idle) :
    Coupled capacity { inner := inner, sema := LightSemaphores.make 0 } where
  inner := h
  sema := balanced_make 0
  assertion := rfl
  enqueued := congrArg List.length henqueued
  completed := congrArg List.length henqueued
  producer := ⟨rfl, congrArg ProducerPc.value? hproducer⟩
  consumer := ⟨congrArg ConsumerPc.remaining hconsumer, .inl rfl,
    (congrArg List.length hdequeued).symm⟩
  refused := by simp

theorem coupled_make {maxBlockSize size : ℕ} (hmax : ∃ k, maxBlockSize = 2 ^ (k + 1))
    (hpos : 0 < size) (hsize : size < 2 ^ 63) : Coupled size (make T maxBlockSize size) :=
  coupled_initial (described_make hmax hpos hsize) rfl rfl rfl rfl

theorem coupled_reachable {maxBlockSize size : ℕ} {s : State T}
    (h : Reachable (next maxBlockSize) (make T maxBlockSize size) s)
    (hmax : ∃ k, maxBlockSize = 2 ^ (k + 1)) (hpos : 0 < size) (hsize : size < 2 ^ 63) :
    Coupled size s :=
  h.invariant (coupled_make hmax hpos hsize) fun _ _ _ hu hv => hu.next hv

section Runs
variable {maxBlockSize size : ℕ} {s : State T}

/-- The consumer sleeps until an element comes, takes it, and finds no other one. -/
private def sleptSchedule : List (Label ℕ) :=
  .dequeue .waitDequeue :: List.replicate 1026 (.consumer false) ++
    [.enqueue 7 .canAlloc, .producer false, .producer false, .producer false, .producer false] ++
      List.replicate 4 (.consumer false) ++ [.dequeue .tryDequeue, .consumer false]

/-- The next element is seen while its signal is missing, and not yet dequeued. -/
private def peekedSchedule : List (Label ℕ) :=
  sleptSchedule ++ .enqueue 8 .canAlloc :: List.replicate 3 (.producer false) ++ .peek ::
    List.replicate 2 (.consumer false) ++ [.dequeue .tryDequeue, .consumer false]

end Runs

end MessagePass.BlockingQueues
