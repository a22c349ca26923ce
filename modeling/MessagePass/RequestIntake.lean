import MessagePass.RequestCodec
import Mathlib.Data.List.Induction
import Mathlib.Data.List.Perm.Basic

/-!
# The objects of `recv_request`

Each round of `recv_request` obtains at most one Kafka message object, which it deletes at the end
of the round, and allocates a request for a message without error. A payload that does not parse
ends the round early, by `continue`, before the message object is deleted; the request that was
allocated for it is on no queue. Objects of each kind are numbered in the order they come.
-/
namespace MessagePass.RequestIntake
open RequestMessages RequestCodec

/-- What `consumer->consume` returns: `M` is what a payload is read from. -/
inductive Consumed (M : Type) where
  | null
  | timedOut
  | message (payload : M)
  | unknownTopic
  | unknownPartition
  | other

variable {M : Type}

namespace Consumed

def isObject : Consumed M → Bool
  | .null => false
  | _ => true

def request (parse : M → Option RequestMessage) : Consumed M → Option RequestMessage
  | .message payload => parse payload
  | _ => none

def isMalformed (parse : M → Option RequestMessage) : Consumed M → Bool
  | .message payload => (parse payload).isNone
  | _ => false

end Consumed

/-- Kafka message objects obtained and deleted; requests allocated, and the request queue with the
objects on it. `recv_request` deletes no request. -/
structure Intake where
  obtained : ℕ := 0
  deleted : List ℕ := []
  allocated : ℕ := 0
  queue : List (ℕ × RequestMessage) := []

namespace Intake

def deleteMsg (s : Intake) : Intake :=
  { s with obtained := s.obtained + 1, deleted := s.deleted ++ [s.obtained] }

def round (parse : M → Option RequestMessage) (s : Intake) : Consumed M → Intake
  | .null => s
  | .timedOut => s.deleteMsg
  | .message payload => match parse payload with
    | none => { s with obtained := s.obtained + 1, allocated := s.allocated + 1 }
    | some req => { s with
        allocated := s.allocated + 1
        queue := s.queue ++ [(s.allocated, req)] }.deleteMsg
  | .unknownTopic => s.deleteMsg
  | .unknownPartition => s.deleteMsg
  | .other => s.deleteMsg

/-- `while(running_)`: each round sees a value of `running_` and, if it is set, a result. -/
def recvRequest (parse : M → Option RequestMessage) : Intake → List (Bool × Consumed M) → Intake
  | s, [] => s
  | s, (false, _) :: _ => s
  | s, (true, result) :: rounds => recvRequest parse (s.round parse result) rounds

end Intake

def results (rounds : List (Bool × Consumed M)) : List (Consumed M) :=
  (rounds.takeWhile Prod.fst).map Prod.snd

/-- The queue holds exactly the requests of the well-formed messages, once each and in order; every
message object has been deleted exactly once; every request allocated is on the queue. -/
structure Ledger (parse : M → Option RequestMessage) (rounds : List (Bool × Consumed M))
    (s : Intake) : Prop where
  requests : s.queue.map Prod.snd = (results rounds).filterMap (Consumed.request parse)
  objects : s.deleted.Perm (List.range ((results rounds).countP Consumed.isObject))
  queued : (s.queue.map Prod.fst).Perm (List.range s.allocated)

namespace Intake
variable (parse : M → Option RequestMessage)

theorem recvRequest_eq (s : Intake) (rounds : List (Bool × Consumed M)) :
    recvRequest parse s rounds = (results rounds).foldl (round parse) s := by
  fun_induction recvRequest parse s rounds with
  | case1 => rfl
  | case2 => rfl
  | case3 s result rounds ih => simpa [results] using ih

/-- What some results leave behind: each malformed message lacks one deletion, and without any the
ledger is in order. -/
structure Counts (results : List (Consumed M)) (s : Intake) : Prop where
  requests : s.queue.map Prod.snd = results.filterMap (Consumed.request parse)
  obtained : s.obtained = results.countP Consumed.isObject
  deleted : s.deleted.length + results.countP (Consumed.isMalformed parse) = s.obtained
  clean : results.countP (Consumed.isMalformed parse) = 0 →
    s.deleted = List.range s.obtained ∧ s.queue.map Prod.fst = List.range s.allocated

variable {parse}

namespace Counts
variable {results : List (Consumed M)} {s : Intake}

theorem deleteMsg (h : Counts parse results s) {result : Consumed M}
    (hobject : result.isObject = true) (hformed : result.isMalformed parse = false)
    {queue : List (ℕ × RequestMessage)} {allocated : ℕ}
    (hrequests : queue.map Prod.snd =
      s.queue.map Prod.snd ++ (result.request parse).toList)
    (hqueued : s.queue.map Prod.fst = List.range s.allocated →
      queue.map Prod.fst = List.range allocated) :
    Counts parse (results ++ [result])
      { s with queue := queue, allocated := allocated }.deleteMsg where
  requests := by
    rw [List.filterMap_append, ← h.requests]
    cases hr : result.request parse <;> simp [Intake.deleteMsg, hrequests, hr]
  obtained := by simp [Intake.deleteMsg, h.obtained, hobject]
  deleted := by
    have := h.deleted
    simp [Intake.deleteMsg, hformed]
    omega
  clean := by
    intro hnone
    have hold : results.countP (Consumed.isMalformed parse) = 0 := by
      simpa [hformed] using hnone
    obtain ⟨hdeleted, hids⟩ := h.clean hold
    exact ⟨by simp [Intake.deleteMsg, hdeleted, List.range_succ], hqueued hids⟩

theorem round (h : Counts parse results s) (result : Consumed M) :
    Counts parse (results ++ [result]) (s.round parse result) := by
  cases result with
  | null =>
    rw [Intake.round]
    exact ⟨by simpa [List.filterMap_cons, Consumed.request] using h.requests,
      by simpa [Consumed.isObject] using h.obtained,
      by simpa [Consumed.isMalformed] using h.deleted,
      fun hnone => h.clean (by simpa [Consumed.isMalformed] using hnone)⟩
  | timedOut => exact h.deleteMsg rfl rfl (by simp [Consumed.request]) id
  | unknownTopic => exact h.deleteMsg rfl rfl (by simp [Consumed.request]) id
  | unknownPartition => exact h.deleteMsg rfl rfl (by simp [Consumed.request]) id
  | other => exact h.deleteMsg rfl rfl (by simp [Consumed.request]) id
  | message payload =>
    cases hparse : parse payload with
    | some req =>
      simp only [Intake.round, hparse]
      refine h.deleteMsg rfl (by simp [Consumed.isMalformed, hparse])
        (by simp [Consumed.request, hparse]) fun hids => ?_
      rw [List.map_append, hids, List.range_succ]
      rfl
    | none =>
      simp only [Intake.round, hparse]
      -- neither the message object nor its request is accounted for
      refine ⟨by simpa [Consumed.request, hparse] using h.requests,
        by simp [h.obtained, Consumed.isObject], ?_, by simp [Consumed.isMalformed, hparse]⟩
      have := h.deleted
      simp [Consumed.isMalformed, hparse]
      omega

theorem foldl (parse : M → Option RequestMessage) (results : List (Consumed M)) :
    Counts parse results (results.foldl (Intake.round parse) {}) := by
  induction results using List.reverseRecOn with
  | nil => exact ⟨rfl, rfl, rfl, fun _ => ⟨rfl, rfl⟩⟩
  | append_singleton results result ih =>
    rw [List.foldl_append]
    exact ih.round result

end Counts
end Intake

/-- The objects are conserved exactly if every message consumed before `running_` is seen false
has a payload that parses. -/
theorem ledger_iff_payloads_parse (parse : M → Option RequestMessage)
    (rounds : List (Bool × Consumed M)) :
    Ledger parse rounds (Intake.recvRequest parse {} rounds) ↔
      ∀ payload, Consumed.message payload ∈ results rounds → parse payload ≠ none := by
  rw [Intake.recvRequest_eq]
  have hcounts := Intake.Counts.foldl parse (results rounds)
  have hmalformed : (results rounds).countP (Consumed.isMalformed parse) = 0 ↔
      ∀ payload, Consumed.message payload ∈ results rounds → parse payload ≠ none := by
    rw [List.countP_eq_zero]
    constructor
    · intro h payload hmem hnone
      exact h _ hmem (by simp [Consumed.isMalformed, hnone])
    · intro h result hmem
      cases result with
      | message payload => simpa [Consumed.isMalformed] using h payload hmem
      | _ => simp [Consumed.isMalformed]
  rw [← hmalformed]
  constructor
  · intro h
    have hlength := h.objects.length_eq
    have hdeleted := hcounts.deleted
    rw [List.length_range] at hlength
    rw [hcounts.obtained] at hdeleted
    omega
  · intro hnone
    obtain ⟨hdeleted, hqueued⟩ := hcounts.clean hnone
    refine ⟨hcounts.requests, ?_, by rw [hqueued]⟩
    rw [hdeleted, hcounts.obtained]

/-- Kafka's empty answer, a request, and a payload that does not parse: no field has wire type 7. -/
theorem malformed_payload_leaks :
    let parse := parsePayload wireRuntime
    let rounds := [(true, .timedOut),
      (true, .message (SerializeToString wireRuntime (getRequest [97]) ++ [0])),
      (true, .message [7, 0]), (true, .null), (false, .timedOut)]
    let s := Intake.recvRequest parse {} rounds
    s.obtained = 3 ∧ s.deleted = [0, 1] ∧ s.allocated = 2 ∧
      s.queue = [(0, getRequest [97])] ∧ ¬ Ledger parse rounds s := by
  refine ⟨by decide +kernel, by decide +kernel, by decide +kernel, by decide +kernel, fun h => ?_⟩
  exact absurd h.objects.length_eq (by decide +kernel)

end MessagePass.RequestIntake
