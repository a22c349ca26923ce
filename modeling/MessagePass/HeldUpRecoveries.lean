import MessagePass.BackPressure
import MessagePass.HeldUpRequests

/-!
# Recoveries held up

Two things can keep `task_thread` from a RECOVER or a DEL: a GET in front of it that waits for data,
and a call of `zmq_send` that waits for room in the pipe of a sink that takes nothing any more. The
executions here are endless. Only the task thread and the receivers move, and the thread gets its
turn again and again.
-/
namespace MessagePass.BackPressure
open Std RequestMessages DataMessages LabelledRuns SourceTasks

variable {T : Type} [IDataMessage T] {identity : UInt64} {sendFixed : Option UInt64} {hwm : ℕ}
variable {states : ℕ → Sender T} {labels : ℕ → Label T}

def threadStep (identity : UInt64) (sendFixed : Option UInt64) (hwm : ℕ) (s : Sender T) :
    Sender T :=
  match s.outbox with
  | [] => s.advance identity sendFixed
  | call :: rest => zmqSend hwm s call rest

theorem senderNext_task (s : Sender T) :
    senderNext identity sendFixed hwm s (.source .task) =
      some (threadStep identity sendFixed hwm s) := by
  cases h : s.outbox <;> simp [senderNext, threadStep, h]

structure ThreadAlone (identity : UInt64) (sendFixed : Option UInt64) (hwm : ℕ)
    (states : ℕ → Sender T) (labels : ℕ → Label T) : Prop where
  execution : Execution (senderNext identity sendFixed hwm) states labels
  parties : ∀ n, labels n = .source .task ∨ ∃ sink, labels n = .drain sink
  turns : ∀ m, ∃ n ≥ m, labels n = .source .task

/-- Every call of `zmq_send` returns. -/
def SendsReturn (states : ℕ → Sender T) : Prop :=
  ∀ m call rest, (states m).outbox = call :: rest → ∃ n > m, (states n).outbox = rest

omit [IDataMessage T] in
theorem zmqSend_cases (hwm : ℕ) (s : Sender T) (call : ZmqSend T) (rest : List (ZmqSend T)) :
    (zmqSend hwm s call rest).topic = s.topic ∧
      ((zmqSend hwm s call rest).outbox = rest ∨ zmqSend hwm s call rest = s) := by
  unfold zmqSend
  split
  · exact ⟨rfl, .inl rfl⟩
  · split
    · exact ⟨rfl, .inl rfl⟩
    · exact ⟨rfl, .inr rfl⟩

/-- What a step can change: the thread goes on with its topic when it has nothing to send, and the
calls it has to make only become fewer. -/
theorem ThreadAlone.step (h : ThreadAlone identity sendFixed hwm states labels) (n : ℕ) :
    ((states n).outbox = [] ∧ labels n = .source .task ∧
        (states (n + 1)).topic = taskThread identity (states n).topic ∧
        (states (n + 1)).outbox =
          ((taskThread identity (states n).topic).locals.sent.drop
            (states n).topic.locals.sent.length).flatMap (sendMsg sendFixed)) ∨
      (states (n + 1)).topic = (states n).topic ∧
        ((states (n + 1)).outbox = (states n).outbox ∧
            ((states n).outbox = [] → labels n ≠ .source .task) ∨
          ∃ call, (states n).outbox = call :: (states (n + 1)).outbox) := by
  have hnext := h.execution n
  rcases h.parties n with hlabel | ⟨sink, hlabel⟩
  · rw [hlabel, senderNext_task, Option.some.injEq, threadStep] at hnext
    split at hnext <;> rename_i hout
    · left
      rw [← hnext]
      exact ⟨hout, hlabel, rfl, rfl⟩
    · rename_i call rest
      obtain ⟨htopic, hcase⟩ := zmqSend_cases hwm (states n) call rest
      rw [hnext] at htopic hcase
      refine .inr ⟨htopic, ?_⟩
      rcases hcase with hrest | hsame
      · exact .inr ⟨call, by rw [hout, hrest]⟩
      · exact .inl ⟨by rw [hsame], fun hempty => absurd (hout.symm.trans hempty) (by simp)⟩
  · rw [hlabel] at hnext
    simp only [senderNext, Option.ite_none_right_eq_some, Option.some.injEq] at hnext
    obtain ⟨-, hnext⟩ := hnext
    right
    rw [← hnext]
    exact ⟨rfl, .inl ⟨rfl, fun _ => by simp [hlabel]⟩⟩

namespace ThreadAlone

theorem topic_iterate (h : ThreadAlone identity sendFixed hwm states labels) {m n : ℕ}
    (hle : m ≤ n) : ∃ k, (states n).topic = (taskThread identity)^[k] (states m).topic := by
  induction n, hle using Nat.le_induction with
  | base => exact ⟨0, rfl⟩
  | succ n _ ih =>
    obtain ⟨k, hk⟩ := ih
    rcases h.step n with ⟨-, -, htopic, -⟩ | ⟨htopic, -⟩
    · exact ⟨k + 1, by rw [htopic, hk, Function.iterate_succ_apply']⟩
    · exact ⟨k, htopic.trans hk⟩

omit [IDataMessage T] in
theorem exists_sent (hreturn : SendsReturn states) (m : ℕ) : ∃ n ≥ m, (states n).outbox = [] := by
  induction hout : (states m).outbox generalizing m with
  | nil => exact ⟨m, Nat.le_refl _, hout⟩
  | cons call rest ih =>
    obtain ⟨n, hlt, hrest⟩ := hreturn m call rest hout
    obtain ⟨k, hle, hempty⟩ := ih n hrest
    exact ⟨k, hle.trans' hlt.le, hempty⟩

theorem exists_iterate (h : ThreadAlone identity sendFixed hwm states labels)
    (hreturn : SendsReturn states) (k : ℕ) :
    ∃ n, (states n).outbox = [] ∧
      ∃ j ≥ k, (states n).topic = (taskThread identity)^[j] (states 0).topic := by
  induction k with
  | zero =>
    obtain ⟨n, -, hempty⟩ := exists_sent hreturn 0
    obtain ⟨j, hj⟩ := h.topic_iterate (Nat.zero_le n)
    exact ⟨n, hempty, j, Nat.zero_le j, hj⟩
  | succ k ih =>
    obtain ⟨m, hempty, j, hj, htopic⟩ := ih
    obtain ⟨n, -, hturn, hout, hsame⟩ := exists_turn
      (P := fun s : Sender T => s.outbox = [] ∧ s.topic = (states m).topic) (by
        rintro n - hturn ⟨hout, hsame⟩
        rcases h.step n with ⟨-, hlabel, -⟩ | ⟨htopic, ⟨hrest, -⟩ | ⟨call, hcall⟩⟩
        · exact absurd hlabel hturn
        · exact ⟨hrest.trans hout, htopic.trans hsame⟩
        · simp [hout] at hcall) (h.turns m) ⟨hempty, rfl⟩
    obtain ⟨n', hle, hempty'⟩ := exists_sent hreturn (n + 1)
    obtain ⟨i, hi⟩ := h.topic_iterate hle
    have hnext : (states (n + 1)).topic = (taskThread identity)^[j + 1] (states 0).topic := by
      rcases h.step n with ⟨-, -, hadvance, -⟩ | ⟨-, ⟨-, hno⟩ | ⟨call, hcall⟩⟩
      · rw [hadvance, hsame, htopic, Function.iterate_succ_apply']
      · exact absurd hturn (hno hout)
      · simp [hout] at hcall
    refine ⟨n', hempty', i + (j + 1), by omega, ?_⟩
    rw [hi, hnext, ← Function.iterate_add_apply]

end ThreadAlone

theorem idle_taskThread (identity : UInt64) {s : Topic T} (hidle : Idle s)
    (hrun : s.running = true) :
    Idle (taskThread identity s) ∧ (taskThread identity s).locals = s.locals := by
  unfold Idle at hidle
  split at hidle <;> rename_i hpc
  · simp [taskThread, hpc, hrun, Idle, hidle]
  · simp [taskThread, hpc, Idle, hidle]
  · simp [taskThread, hpc, Idle, hidle]
  · simp [taskThread, hpc, hrun, Idle, hidle]
  · exact hidle.elim

theorem idle_iterate {s : Topic T} (hidle : Idle s) (hrun : s.running = true) (k : ℕ) :
    Idle ((taskThread identity)^[k] s) := by
  induction k with
  | zero => exact hidle
  | succ k ih =>
    rw [Function.iterate_succ_apply']
    exact (idle_taskThread identity ih ((iterate_inputs identity s k).1.trans hrun)).1

namespace ThreadAlone

theorem exists_atRest (h : ThreadAlone identity sendFixed hwm states labels)
    (hstart : Reachable (next identity) {} (states 0).topic)
    (hrun : (states 0).topic.running = true) (hreturn : SendsReturn states) :
    ∃ n, AtRest (states n) := by
  obtain ⟨k, hidle⟩ := exists_idle (coherent_reachable hstart) hrun
  obtain ⟨n, hempty, j, hj, htopic⟩ := h.exists_iterate hreturn k
  refine ⟨n, ?_, hempty⟩
  obtain ⟨i, rfl⟩ := Nat.exists_eq_add_of_le' hj
  rw [htopic, Function.iterate_add_apply]
  exact idle_iterate hidle ((iterate_inputs identity _ k).1.trans hrun) i

theorem atRest_later (h : ThreadAlone identity sendFixed hwm states labels)
    (hrun : (states 0).topic.running = true) {m n : ℕ} (hrest : AtRest (states m)) (hle : m ≤ n) :
    AtRest (states n) := by
  induction n, hle using Nat.le_induction with
  | base => exact hrest
  | succ n _ ih =>
    obtain ⟨k, hk⟩ := h.topic_iterate (Nat.zero_le n)
    have hrunning : (states n).topic.running = true := by
      rw [hk]
      exact (iterate_inputs identity _ k).1.trans hrun
    obtain ⟨hidle, hlocals⟩ := idle_taskThread identity ih.idle hrunning
    rcases h.step n with ⟨-, -, htopic, hout⟩ | ⟨htopic, ⟨hout, -⟩ | ⟨call, hcall⟩⟩
    · refine ⟨by rwa [htopic], ?_⟩
      rw [hout, hlocals]
      simp
    · exact ⟨by rw [htopic]; exact ih.idle, hout.trans ih.sent⟩
    · simp [ih.sent] at hcall

theorem sendsReturn_of_atRest (h : ThreadAlone identity sendFixed hwm states labels)
    (hrun : (states 0).topic.running = true) {n : ℕ} (hrest : AtRest (states n)) :
    SendsReturn states := by
  intro m call rest hout
  by_contra hno
  -- the call would still be the next one when the thread is at rest
  have hwaits : ∀ k ≥ m, (states k).outbox = call :: rest := by
    intro k hk
    induction k, hk using Nat.le_induction with
    | base => exact hout
    | succ k hk ih =>
      rcases h.step k with ⟨hempty, -⟩ | ⟨-, ⟨hsame, -⟩ | ⟨call', hcall⟩⟩
      · simp [ih] at hempty
      · exact hsame.trans ih
      · refine absurd ⟨k + 1, Nat.lt_succ_of_le hk, ?_⟩ hno
        exact (List.cons.inj (hcall.symm.trans ih)).2
  have hlater := h.atRest_later hrun hrest (Nat.le_max_left n m)
  have hstill := hwaits (max n m) (Nat.le_max_right n m)
  simp [hlater.sent] at hstill

end ThreadAlone

/-- The thread comes to rest with every RECOVER and every DEL processed exactly when each call of
`zmq_send` returns and none of them stands behind more GETs than there are messages; and this
decides whether all are processed wherever it is at rest. -/
theorem all_processed_iff (h : ThreadAlone identity sendFixed hwm states labels)
    (hstart : Reachable (senderNext identity sendFixed hwm) {} (states 0))
    (hrun : (states 0).topic.running = true) :
    ((∃ n, AtRest (states n) ∧ AllProcessed (states 0).topic (states n).topic) ↔
      SendsReturn states ∧ EnoughReady (states 0).topic) ∧
    ∀ n, AtRest (states n) →
      (AllProcessed (states 0).topic (states n).topic ↔ EnoughReady (states 0).topic) := by
  have htopic := reachable_topic hstart
  have hprocessed : ∀ n, AtRest (states n) →
      (AllProcessed (states 0).topic (states n).topic ↔ EnoughReady (states 0).topic) := by
    intro n hrest
    obtain ⟨k, hk⟩ := h.topic_iterate (Nat.zero_le n)
    have hidle := hrest.idle
    rw [hk] at hidle ⊢
    exact processed_iff_enough_ready htopic hrun hidle
  refine ⟨⟨?_, ?_⟩, hprocessed⟩
  · rintro ⟨n, hrest, hall⟩
    exact ⟨h.sendsReturn_of_atRest hrun hrest, (hprocessed n hrest).mp hall⟩
  · rintro ⟨hreturn, henough⟩
    obtain ⟨n, hrest⟩ := h.exists_atRest htopic hrun hreturn
    exact ⟨n, hrest, (hprocessed n hrest).mpr henough⟩

theorem threadAlone_iterate (identity : UInt64) (sendFixed : Option UInt64) (hwm : ℕ)
    (s : Sender T) :
    ThreadAlone identity sendFixed hwm (fun n => (threadStep identity sendFixed hwm)^[n] s)
      (fun _ => .source .task) where
  execution _ :=
    (senderNext_task _).trans (congrArg some (Function.iterate_succ_apply' ..).symm)
  parties _ := .inl rfl
  turns m := ⟨m, Nat.le_refl m, rfl⟩

private def queued (requests : List RequestMessage) : Sender ByteMessage where
  topic :=
    { ready := [.ofBytes [1, 0, 0, 0, 0, 0, 0, 0]]
      requests := getRequest [83] :: requests
      produced := [.ofBytes [1, 0, 0, 0, 0, 0, 0, 0]]
      arrived := getRequest [83] :: requests }

private theorem reachable_queued (first second : RequestMessage) :
    Reachable (senderNext 7 none 0) {} (queued [first, second]) :=
  ⟨[.source (.send (.ofBytes [1, 0, 0, 0, 0, 0, 0, 0])), .source (.recvRequest (getRequest [83])),
    .source (.recvRequest first), .source (.recvRequest second)], rfl⟩

theorem all_processed_iff_example :
    ∃ n, AtRest ((threadStep 7 none 0)^[n] (queued [recoverRequest [83], delRequest [83] 1])) ∧
      AllProcessed (queued [recoverRequest [83], delRequest [83] 1]).topic
        ((threadStep 7 none 0)^[n] (queued [recoverRequest [83], delRequest [83] 1])).topic := by
  have halone := threadAlone_iterate 7 none 0 (queued [recoverRequest [83], delRequest [83] 1])
  have hrest : AtRest ((threadStep 7 none 0)^[16]
      (queued [recoverRequest [83], delRequest [83] 1])) := ⟨rfl, rfl⟩
  refine (all_processed_iff halone (reachable_queued _ _) rfl).1.mpr
    ⟨halone.sendsReturn_of_atRest rfl hrest, ?_⟩
  intro i req hi hneeds
  rcases i with _ | _ | _ | i
  · exact Nat.zero_le _
  · decide
  · decide
  · simp [Topic.unprocessed, queued, Pc.inFlight] at hi

/-- Every call returns. The second GET waits for a message that is never sent, and the RECOVER
behind it is never reached. -/
theorem recovery_held_up :
    ¬ ∀ (states : ℕ → Sender ByteMessage) labels, ThreadAlone 7 none 0 states labels →
      Reachable (senderNext 7 none 0) {} (states 0) → (states 0).topic.running = true →
      ∀ n, AtRest (states n) → AllProcessed (states 0).topic (states n).topic := by
  intro h
  obtain ⟨done, rest, hd, hr, hrest⟩ := h _ _
    (threadAlone_iterate 7 none 0 (queued [getRequest [83], recoverRequest [83]]))
    (reachable_queued _ _) rfl 11 ⟨rfl, rfl⟩
  have hdone : [getRequest [83]] = done := hd
  subst hdone
  have hqueue : [getRequest [83], recoverRequest [83]] = rest := (List.cons.inj hr).2
  subst hqueue
  exact hrest (recoverRequest [83]) (by simp) (.inr rfl)

end MessagePass.BackPressure
