import MessagePass.AtomicObjects
import MessagePass.BlockingQueues

/-!
# Blocking reader-writer queues as atomic queues

An enqueueing takes effect when its signal is counted, a dequeueing when its wait takes a unit or
gives up. An element that was stored without its signal, or whose unit was taken while it has not
been moved out yet, is in the inner queue but no longer, or not yet, in the atomic one. `peek` looks
at the inner queue, so it is no call of the atomic one: it may see an element that `try_dequeue`
does not find afterwards.
-/
namespace MessagePass.BlockingQueues
open LabelledRuns BlockRings LightSemaphores

variable {T : Type}

inductive Party | producer | consumer deriving DecidableEq

inductive QueueCall (T : Type) | enqueue (v : T) | dequeue (op : Op)

inductive QueueResult (T : Type) | enqueued (success : Bool) | dequeued (element : Option T)

/-- The sequential queue. An enqueueing may fail, for want of memory, and leaves the queue as it is;
a dequeueing fails only on an empty queue, where `wait_dequeue` waits. -/
def fifo : List T → QueueCall T → Bool → Option (List T × QueueResult T)
  | q, .enqueue v, true => some (q ++ [v], .enqueued true)
  | q, .enqueue _, false => some (q, .enqueued false)
  | v :: q, .dequeue _, _ => some (q, .dequeued (some v))
  | [], .dequeue .waitDequeue, _ => none
  | [], .dequeue _, _ => some ([], .dequeued none)

def offered (s : State T) : List T := s.inner.enqueued.take s.sema.signalled

def visible (s : State T) : List T := (offered s).drop s.sema.taken

/-- The element whose unit was taken last. -/
def promised (s : State T) : Option T := s.inner.enqueued[s.sema.taken - 1]?

/-- The element of a call of the producer that has not taken effect yet. -/
def offering (s : State T) : Option T :=
  match s.producer with
  | .idle | .returned _ => none
  | .enqueuing => s.inner.producer.value?
  | .signalling => if s.sema.signaller = .add 1 then s.inner.enqueued.getLast? else none

def port (s : State T) : Party → AtomicObjects.Port (QueueCall T) (QueueResult T)
  | .producer =>
      match s.producer with
      | .idle | .returned _ => .idle
      | .enqueuing | .signalling =>
          match offering s with
          | some v => .called (.enqueue v)
          | none => .done (.enqueued true)
  | .consumer =>
      match s.consumer with
      | .idle | .returned _ | .peeking => .idle
      | .waiting op => .called (.dequeue op)
      | .taking => .done (.dequeued (promised s))

/-- The invocations, and the responses where a call returns. A call of `peek` shows nothing. -/
def event (s : State T) (label : Label T) (t : State T) :
    Option (AtomicObjects.Event Party (QueueCall T) (QueueResult T)) :=
  match label with
  | .enqueue v _ => some (.invoke .producer (.enqueue v))
  | .dequeue op => some (.invoke .consumer (.dequeue op))
  | .producer _ =>
      match t.producer with
      | .returned success => some (.respond .producer (.enqueued success))
      | _ => none
  | .peek => none
  | .consumer _ =>
      match s.consumer, t.consumer with
      | .peeking, _ => none
      | _, .returned true => some (.respond .consumer (.dequeued t.inner.dequeued.getLast?))
      | _, .returned false => some (.respond .consumer (.dequeued none))
      | _, _ => none

structure SameCall (s t : State T) : Prop where
  pc : t.consumer = s.consumer
  promised : s.consumer = .taking → promised t = promised s

/-- A step of a producer, seen from the atomic queue: some elements more were offered. -/
structure Sends (s t : State T) (more : List T) : Prop where
  same : SameConsumer s t
  call : SameCall s t
  offered : offered t = offered s ++ more
  visible : visible t = visible s ++ more

inductive ProducerEffect (s t : State T) : Prop
  | goOn (hport : port t .producer = port s .producer)
      (hbusy : ∀ success, t.producer ≠ .returned success) (hoffered : offered t = offered s)
  | fail (v) (hport : port s .producer = .called (.enqueue v))
      (hpc : t.producer = .returned false) (hoffered : offered t = offered s)
  | put (v) (hport : port s .producer = .called (.enqueue v))
      (hdone : port t .producer = .done (.enqueued true))
      (hbusy : ∀ success, t.producer ≠ .returned success) (hoffered : offered t = offered s ++ [v])
  | putAndReturn (v) (hport : port s .producer = .called (.enqueue v))
      (hpc : t.producer = .returned true) (hoffered : offered t = offered s ++ [v])
  | return (hport : port s .producer = .done (.enqueued true))
      (hpc : t.producer = .returned true) (hoffered : offered t = offered s)

/-- What a step of the consumer means to the atomic queue. -/
inductive ConsumerEffect (s t : State T) : Prop
  | goOn (hpc : t.consumer = s.consumer) (hpromised : promised t = promised s)
      (hbusy : ∀ success, t.consumer ≠ .returned success)
      (hvisible : visible t = visible s)
  | refuse (op) (hpc : s.consumer = .waiting op) (hop : op ≠ .waitDequeue)
      (hreturned : t.consumer = .returned false) (hempty : visible s = [])
      (hvisible : visible t = visible s)
  | take (op v) (hpc : s.consumer = .waiting op) (htaking : t.consumer = .taking)
      (hpromised : promised t = some v) (hvisible : visible s = v :: visible t)
  | finish (hpc : s.consumer = .taking) (hreturned : t.consumer = .returned true)
      (hlast : t.inner.dequeued.getLast? = promised s) (hvisible : visible t = visible s)
  | peek (hpc : s.consumer = .peeking) (hidle : port t .consumer = .idle)
      (hvisible : visible t = visible s)

section Views
variable {s t : State T}

theorem port_of_producer {x : AtomicObjects.Port (QueueCall T) (QueueResult T)}
    (hproducer : port t .producer = x) (hconsumer : port t .consumer = port s .consumer) :
    port t = Function.update (port s) .producer x := by
  funext p
  cases p with
  | producer => simpa using hproducer
  | consumer => simpa using hconsumer

theorem port_of_consumer {x : AtomicObjects.Port (QueueCall T) (QueueResult T)}
    (hconsumer : port t .consumer = x) (hproducer : port t .producer = port s .producer) :
    port t = Function.update (port s) .consumer x := by
  funext p
  cases p with
  | producer => simpa using hproducer
  | consumer => simpa using hconsumer

theorem SameProducer.offered_eq (h : SameProducer s t) : offered t = offered s := by
  unfold offered
  rw [h.enqueued, h.signalled]

theorem SameProducer.port_eq (h : SameProducer s t) : port t .producer = port s .producer := by
  have hoffering : offering t = offering s := by
    unfold offering
    rw [h.pc, h.inner, h.enqueued, h.signaller]
  simp only [port, h.pc, hoffering]

theorem SameProducer.promised_eq (h : SameProducer s t) (htaken : t.sema.taken = s.sema.taken) :
    promised t = promised s := by
  unfold promised
  rw [h.enqueued, htaken]

theorem SameCall.port_eq (h : SameCall s t) : port t .consumer = port s .consumer := by
  simp only [port, h.pc]
  cases hpc : s.consumer with
  | taking => simp only [h.promised hpc]
  | _ => rfl

theorem port_of_returned {success : Bool} (hpc : t.producer = .returned success) :
    port t .producer = .idle := by
  simp only [port, hpc]

theorem event_of_busy {malloc : Bool} (hbusy : ∀ success, t.producer ≠ .returned success) :
    event s (.producer malloc) t = none := by
  cases hpc : t.producer with
  | returned success => exact absurd hpc (hbusy success)
  | _ => simp only [event, hpc]

theorem event_of_busy_consumer {expired : Bool}
    (hbusy : ∀ success, t.consumer ≠ .returned success) : event s (.consumer expired) t = none := by
  cases hpc : t.consumer with
  | returned success => exact absurd hpc (hbusy success)
  | _ => cases hs : s.consumer <;> simp only [event, hpc, hs]

theorem event_of_returned {malloc success : Bool} (hpc : t.producer = .returned success) :
    event s (.producer malloc) t = some (.respond .producer (.enqueued success)) := by
  simp only [event, hpc]

end Views

namespace Coupled
variable {capacity maxBlockSize : ℕ} {s t : State T}

theorem signalled_le (h : Coupled capacity s) : s.sema.signalled ≤ s.inner.enqueued.length := by
  rw [h.enqueued]
  exact Nat.le_add_right ..

theorem length_offered (h : Coupled capacity s) : (offered s).length = s.sema.signalled :=
  List.length_take_of_le h.signalled_le

theorem visible_append (h : Coupled capacity s) (more : List T)
    (hoffered : offered t = offered s ++ more) (htaken : t.sema.taken = s.sema.taken) :
    visible t = visible s ++ more := by
  unfold visible
  rw [hoffered, htaken, List.drop_append_of_le_length]
  rw [h.length_offered]
  exact h.sema.taken_le

/-- The element that a wait has taken its unit for does not change any more. -/
theorem promised_eq (h : Coupled capacity s) (hpc : s.consumer = .taking)
    (hgrow : s.inner.enqueued <+: t.inner.enqueued) (htaken : t.sema.taken = s.sema.taken) :
    promised t = promised s := by
  have hat := h.consumer
  simp only [ConsumerAt, hpc] at hat
  have hle := h.sema.taken_le
  have hsignalled := h.signalled_le
  obtain ⟨more, hmore⟩ := hgrow
  unfold promised
  rw [htaken, ← hmore, List.getElem?_append_left (by omega)]

theorem sameCall (h : Coupled capacity s) (hm : ProducerMove s t) (hsame : SameConsumer s t) :
    SameCall s t := by
  have hgrow : s.inner.enqueued <+: t.inner.enqueued := by
    cases hm with
    | work v inner hpc hv hstill hkept => simp [hkept]
    | fail v inner hpc hv hdone hkept => simp [hkept]
    | store v inner hpc hv hdone hmore => simp [hmore]
    | add => exact List.prefix_refl _
    | finish => exact List.prefix_refl _
  exact ⟨hsame.pc, fun hpc => h.promised_eq hpc hgrow hsame.taken⟩

theorem exists_promised (h : Coupled capacity s) (hpc : s.consumer = .taking) :
    ∃ v, promised s = some v := by
  have hat := h.consumer
  simp only [ConsumerAt, hpc] at hat
  have hle := h.sema.taken_le
  have hsignalled := h.signalled_le
  have hlt : s.sema.taken - 1 < s.inner.enqueued.length := by omega
  exact ⟨_, List.getElem?_eq_getElem hlt⟩

theorem put (h : Coupled capacity s) (hpc : s.producer = .signalling)
    (hadd : s.sema.signaller = .add 1) :
    ∃ v, port s .producer = .called (.enqueue v) ∧ ∀ t : State T,
      t.inner.enqueued = s.inner.enqueued → t.sema.signalled = s.sema.signalled + 1 →
        offered t = offered s ++ [v] := by
  have henqueued := h.enqueued
  simp only [unsignalled, hpc, hadd, if_true] at henqueued
  obtain ⟨v, hlast⟩ : ∃ v, s.inner.enqueued.getLast? = some v := by
    cases hcase : s.inner.enqueued with
    | nil => simp [hcase] at henqueued
    | cons a as => exact ⟨_, List.getLast?_eq_some_getLast (List.cons_ne_nil a as)⟩
  refine ⟨v, by simp [port, offering, hpc, hadd, hlast], ?_⟩
  intro t hkept hmore
  obtain ⟨front, hfront⟩ := List.getLast?_eq_some_iff.mp hlast
  have hsignalled : s.sema.signalled = front.length := by
    rw [hfront, List.length_append, List.length_singleton] at henqueued
    omega
  unfold offered
  rw [hkept, hmore, hsignalled, hfront]
  simp

theorem producer_effect (h : Coupled capacity s) (hm : ProducerMove s t) :
    ProducerEffect s t := by
  have henqueued := h.enqueued
  cases hm with
  | work v inner hpc hv hstill hkept =>
    refine .goOn ?_ (by simp [hpc]) (by simp [offered, hkept])
    simp [port, offering, hpc, hv, hstill]
  | fail v inner hpc hv hdone hkept =>
    exact .fail v (by simp [port, offering, hpc, hv]) rfl (by simp [offered, hkept])
  | store v inner hpc hv hdone hmore =>
    simp only [unsignalled, hpc, Nat.add_zero] at henqueued
    refine .goOn ?_ (by simp) ?_
    · simp [port, offering, LightSemaphores.State.startSignal, hpc, hv, hmore]
    · simp [offered, LightSemaphores.State.startSignal, hmore, ← henqueued]
  | add sema hpc hadd hpost hmore =>
    obtain ⟨v, hport, hput⟩ := h.put hpc hadd
    exact .put v hport (by simp [port, offering, hpc, hpost]) (by simp [hpc]) (hput _ rfl hmore)
  | finish sema hpc hidle hcount =>
    by_cases hadd : s.sema.signaller = .add 1
    · obtain ⟨v, hport, hput⟩ := h.put hpc hadd
      refine .putAndReturn v hport rfl (hput _ rfl ?_)
      simpa [unsignalled, hpc, hadd] using hcount
    · refine .return (by simp [port, offering, hpc, hadd]) rfl ?_
      have hsame : sema.signalled = s.sema.signalled := by
        simpa [unsignalled, hpc, hadd] using hcount
      simp [offered, hsame]

theorem consumer_effect (h : Coupled capacity s) (hm : ConsumerMove s t)
    (hsame : SameProducer s t) (hsema : Balanced t.sema) : ConsumerEffect s t := by
  have hoffered := hsame.offered_eq
  have hpromised := hsame.promised_eq
  have hsignalled := hsame.signalled
  have hle := hsema.taken_le
  have hat := h.consumer
  have hvisible : t.sema.taken = s.sema.taken → visible t = visible s := by
    intro htaken
    unfold visible
    rw [hoffered, htaken]
  cases hm with
  | wait op sema hpc hidle hbusy hlimited hkept =>
    exact .goOn rfl (hpromised hkept) (by simp [hpc]) (hvisible hkept)
  | retry sema hpc hkept =>
    exact .goOn rfl (hpromised hkept) (by simp [hpc]) (hvisible hkept)
  | refuse op sema hpc hop hwaiter hkept hall =>
    refine .refuse op hpc hop rfl ?_ (hvisible hkept)
    refine List.drop_eq_nil_of_le ?_
    rw [h.length_offered, hall]
  | take op sema hpc hwaiter hmore =>
    simp only at hmore hsignalled hle
    have hlt : s.sema.taken < (offered s).length := by
      rw [h.length_offered]
      omega
    refine .take op (offered s)[s.sema.taken] hpc rfl ?_ ?_
    · have htake : s.inner.enqueued[s.sema.taken]? = (offered s)[s.sema.taken]? :=
        (List.getElem?_take_of_lt (by omega)).symm
      simp only [promised, hmore, Nat.add_sub_cancel]
      exact htake.trans (List.getElem?_eq_getElem hlt)
    · have hstill : visible { s with
          inner := s.inner.startCall op.take, sema := sema, consumer := .taking } =
            (offered s).drop (s.sema.taken + 1) := by
        unfold visible
        rw [hoffered, hmore]
      rw [hstill]
      exact List.drop_eq_getElem_cons hlt
  | seek call inner hpc hcall hstill hkept =>
    exact .goOn rfl (hpromised rfl) (by simp [hpc]) (hvisible rfl)
  | moveOut call v inner hpc hcall hout hmore =>
    exact .goOn rfl (hpromised rfl) (by simp [hpc]) (hvisible rfl)
  | finish inner hpc hout hdone hkept =>
    -- the element moved out last is the one that the unit was taken for
    simp only [ConsumerAt, hpc] at hat
    obtain ⟨-, hne, ⟨-, htaken⟩ | ⟨call, hcall, -⟩⟩ := hat
    · obtain ⟨active, free, contents, hinner⟩ := h.inner
      refine .finish hpc rfl ?_ (hvisible rfl)
      unfold promised
      rw [hkept, hinner.queue, htaken, List.getElem?_append_left (by omega)]
      exact List.getLast?_eq_getElem?
    · simp [hout, ConsumerPc.call?] at hcall
  | look call inner hpc hcall hstill hkept =>
    exact .peek hpc (by simp only [port, hpc]) (hvisible rfl)
  | seen success inner hpc hdone hkept => exact .peek hpc rfl (hvisible rfl)

theorem enqueue_effect {v : T} {mode : AllocationMode}
    (hs : BlockingQueues.next maxBlockSize s (.enqueue v mode) = some t) :
    port s .producer = .idle ∧ port t .producer = .called (.enqueue v) ∧ Sends s t [] := by
  have hv : (s.inner.startEnqueue v mode).producer.value? = some v := by
    simp only [BlockRings.State.startEnqueue]
    split <;> rfl
  simp only [BlockingQueues.next] at hs
  split at hs <;> rename_i hpc <;> cases hs <;>
    exact ⟨by simp only [port, hpc], by simp [port, offering, hv],
      ⟨rfl, rfl, rfl, rfl, rfl, rfl, rfl⟩, ⟨rfl, fun _ => rfl⟩, (List.append_nil _).symm,
      (List.append_nil _).symm⟩

theorem dequeue_effect {op : Op} (hs : BlockingQueues.next maxBlockSize s (.dequeue op) = some t) :
    port s .consumer = .idle ∧ t.consumer = .waiting op ∧ port t .producer = port s .producer ∧
      offered t = offered s ∧ visible t = visible s := by
  simp only [BlockingQueues.next] at hs
  split at hs <;> rename_i hpc <;> cases hs <;>
    exact ⟨by simp only [port, hpc], rfl, rfl, rfl, rfl⟩

theorem peek_effect (hs : BlockingQueues.next maxBlockSize s .peek = some t) :
    port t = port s ∧ visible t = visible s := by
  simp only [BlockingQueues.next] at hs
  split at hs <;> rename_i hpc <;> cases hs
  all_goals
    refine ⟨?_, rfl⟩
    funext p
    cases p with
    | producer => rfl
    | consumer => simp only [port, hpc]

theorem producer_sends (h : Coupled capacity s) {malloc : Bool}
    (hs : BlockingQueues.next maxBlockSize s (.producer malloc) = some t) :
    Sends s t [] ∨ ∃ v, Sends s t [v] := by
  obtain ⟨hm, hsame, -, -⟩ := h.producerStep_move hs
  have hsends : ∀ more, offered t = offered s ++ more → Sends s t more := fun more hoffered =>
    ⟨hsame, h.sameCall hm hsame, hoffered, h.visible_append more hoffered hsame.taken⟩
  cases h.producer_effect hm with
  | goOn _ _ hoffered => exact .inl (hsends [] (by simpa using hoffered))
  | fail _ _ _ hoffered => exact .inl (hsends [] (by simpa using hoffered))
  | put v _ _ _ hoffered => exact .inr ⟨v, hsends [v] hoffered⟩
  | putAndReturn v _ _ hoffered => exact .inr ⟨v, hsends [v] hoffered⟩
  | «return» _ _ hoffered => exact .inl (hsends [] (by simpa using hoffered))

theorem view {label : Label T} (h : Coupled capacity s)
    (hs : BlockingQueues.next maxBlockSize s label = some t)
    (history : List (AtomicObjects.Event Party (QueueCall T) (QueueResult T))) :
    Reachable (AtomicObjects.next fifo) ⟨visible s, port s, history⟩
      ⟨visible t, port t, history ++ (event s label t).toList⟩ := by
  cases label with
  | enqueue v mode =>
    obtain ⟨hidle, hcalled, hsends⟩ := enqueue_effect hs
    rw [hsends.visible, List.append_nil, port_of_producer hcalled hsends.call.port_eq]
    exact AtomicObjects.reachable_invoke hidle
  | dequeue op =>
    obtain ⟨hidle, hpc, hport, -, hvisible⟩ := dequeue_effect hs
    have hcalled : port t .consumer = .called (.dequeue op) := by simp only [port, hpc]
    rw [hvisible, port_of_consumer hcalled hport]
    exact AtomicObjects.reachable_invoke hidle
  | peek =>
    obtain ⟨hport, hvisible⟩ := peek_effect hs
    rw [hvisible, hport]
    simpa [event] using Reachable.refl _
  | producer malloc =>
    obtain ⟨hm, hsame, -, -⟩ := h.producerStep_move hs
    have hport := (h.sameCall hm hsame).port_eq
    have hvisible := fun more hoffered => h.visible_append more hoffered hsame.taken
    cases h.producer_effect hm with
    | goOn hkept hbusy hoffered =>
      rw [event_of_busy hbusy, hvisible [] (by simpa using hoffered),
        port_of_producer hkept hport]
      simpa using Reachable.refl _
    | fail v hcalled hpc hoffered =>
      rw [event_of_returned hpc, hvisible [] (by simpa using hoffered),
        port_of_producer (port_of_returned hpc) hport]
      exact AtomicObjects.reachable_perform_respond false hcalled (by simp [fifo])
    | put v hcalled hdone hbusy hoffered =>
      rw [event_of_busy hbusy, hvisible [v] hoffered, port_of_producer hdone hport]
      simpa using AtomicObjects.reachable_perform true hcalled rfl
    | putAndReturn v hcalled hpc hoffered =>
      rw [event_of_returned hpc, hvisible [v] hoffered,
        port_of_producer (port_of_returned hpc) hport]
      exact AtomicObjects.reachable_perform_respond true hcalled rfl
    | «return» hdone hpc hoffered =>
      rw [event_of_returned hpc, hvisible [] (by simpa using hoffered),
        port_of_producer (port_of_returned hpc) hport]
      simpa using AtomicObjects.reachable_respond hdone
  | consumer expired =>
    obtain ⟨hm, hsame, -, hsema, -⟩ := h.consumerStep_move hs
    have hport := hsame.port_eq
    cases h.consumer_effect hm hsame hsema with
    | goOn hpc hpromised hbusy hvisible =>
      have hkept : SameCall s t := ⟨hpc, fun _ => hpromised⟩
      rw [event_of_busy_consumer hbusy, hvisible, port_of_consumer hkept.port_eq hport]
      simpa using Reachable.refl _
    | refuse op hpc hop hreturned hempty hvisible =>
      have hevent : event s (.consumer expired) t =
          some (.respond .consumer (.dequeued none)) := by simp only [event, hpc, hreturned]
      have hspec : fifo ([] : List T) (.dequeue op) false = some ([], .dequeued none) := by
        cases op <;> first | rfl | exact absurd rfl hop
      have hidle : port t .consumer = .idle := by simp only [port, hreturned]
      rw [hevent, hvisible, hempty, port_of_consumer hidle hport]
      exact AtomicObjects.reachable_perform_respond false (by simp only [port, hpc]) hspec
    | take op v hpc htaking hpromised hvisible =>
      have hevent : event s (.consumer expired) t = none := by simp only [event, hpc, htaking]
      have hdone : port t .consumer = .done (.dequeued (some v)) := by
        simp only [port, htaking, hpromised]
      rw [hevent, hvisible, port_of_consumer hdone hport]
      have hcalled : port s .consumer = .called (.dequeue op) := by simp only [port, hpc]
      simpa using AtomicObjects.reachable_perform false hcalled rfl
    | finish hpc hreturned hlast hvisible =>
      have hevent : event s (.consumer expired) t =
          some (.respond .consumer (.dequeued (promised s))) := by
        simp only [event, hpc, hreturned, hlast]
      have hidle : port t .consumer = .idle := by simp only [port, hreturned]
      rw [hevent, hvisible, port_of_consumer hidle hport]
      exact AtomicObjects.reachable_respond (by simp only [port, hpc])
    | peek hpc hidle hvisible =>
      have hevent : event s (.consumer expired) t = none := by simp only [event, hpc]
      have hsame : port t .consumer = port s .consumer :=
        hidle.trans (by simp only [port, hpc])
      have hports : port t = port s := by
        funext p
        cases p with
        | producer => exact hport
        | consumer => exact hsame
      rw [hevent, hvisible, hports]
      simpa using Reachable.refl _

end Coupled

end MessagePass.BlockingQueues
