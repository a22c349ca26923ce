import MessagePass.SourceOwnership
import Mathlib.Logic.Function.Basic

/-!
# Sources, one sink and the two channels between them

Every request the sink produces reaches the topic server's log. Each source is a consumer group
of its own, so every source may consume every request, in any order, any number of times, or
never. Data frames are in flight until the sink receives them or they are lost. A crash of the
sink empties its receive queues; a restart begins a new incarnation and issues a RECOVER.
-/
namespace MessagePass.DeliveryNetwork
open RequestMessages DataMessages LabelledRuns SourceTasks

variable {ι T : Type}

/-- The address of the sink, the routing ids of the sources, and which incarnations of the sink
application know what an earlier one obtained. -/
structure Deployment (ι : Type) where
  sink : Str
  identity : ι → UInt64
  remembers : ℕ → ℕ → Bool

structure Obtained (ι T : Type) where
  incarnation : ℕ
  source : ι
  msg : T
  deriving DecidableEq

structure Network (ι T : Type) where
  source : ι → Topic T := fun _ => {}
  topicServer : List RequestMessage := []
  inFlight : List (ι × T) := []
  queues : ι → List T := fun _ => []
  up : Bool := false
  incarnation : ℕ := 0
  obtained : List (Obtained ι T) := []
  /-- The DELs issued: the incarnation that issued it and its key. -/
  issued : List (ℕ × UInt64) := []

inductive NetworkLabel (ι T : Type) where
  | send (i : ι) (msg : T)
  | task (i : ι)
  | consume (i : ι) (n : ℕ)
  | lose (n : ℕ)
  | receive (n : ℕ)
  | getMsg (i : ι)
  | sendGetRequest
  | sendDelRequest (k : UInt64)
  | sendRecoverRequest
  | crash
  | start

section Machine
variable [DecidableEq ι]

def Network.setSource (s : Network ι T) (i : ι) (t : Topic T) : Network ι T :=
  { s with source := Function.update s.source i t }

def Network.request (s : Network ι T) (req : RequestMessage) : Network ι T :=
  { s with topicServer := s.topicServer ++ [req] }

variable [IDataMessage T]

/-- The application knows of a `get_msg` that returned a message with this key. -/
def Network.hasKey (d : Deployment ι) (s : Network ι T) (k : UInt64) : Bool :=
  s.obtained.any fun o => d.remembers o.incarnation s.incarnation && key o.msg == k

def newlySent (d : Deployment ι) (old new : TaskLocals T) : List T :=
  ((new.sent.drop old.sent.length).filter fun t => t.socket.endpoint = d.sink).map (·.msg)

def networkNext (d : Deployment ι) (s : Network ι T) : NetworkLabel ι T → Option (Network ι T)
  | .send i msg => (next (d.identity i) (s.source i) (.send msg)).map (s.setSource i)
  | .task i =>
      let t := taskThread (d.identity i) (s.source i)
      some { s.setSource i t with
        inFlight := s.inFlight ++
          (newlySent d (s.source i).locals t.locals).map fun msg => (i, msg) }
  | .consume i n => s.topicServer[n]?.bind fun req =>
      (next (d.identity i) (s.source i) (.recvRequest req)).map (s.setSource i)
  | .lose n => some { s with inFlight := s.inFlight.eraseIdx n }
  | .receive n =>
      if s.up then s.inFlight[n]?.map fun frame =>
        { s with
          inFlight := s.inFlight.eraseIdx n
          queues := Function.update s.queues frame.1 (s.queues frame.1 ++ [frame.2]) }
      else none
  | .getMsg i =>
      if s.up then match s.queues i with
        | [] => none
        | msg :: rest => some { s with
            queues := Function.update s.queues i rest
            obtained := s.obtained ++ [⟨s.incarnation, i, msg⟩] }
      else none
  | .sendGetRequest => if s.up then some (s.request (getRequest d.sink)) else none
  | .sendDelRequest k =>
      -- the application deletes only what it has obtained
      if s.up && s.hasKey d k then
        some { s.request (delRequest d.sink k) with issued := s.issued ++ [(s.incarnation, k)] }
      else none
  | .sendRecoverRequest => if s.up then some (s.request (recoverRequest d.sink)) else none
  | .crash => if s.up then some { s with up := false, queues := fun _ => [] } else none
  | .start =>
      if s.up then none
      else some { s.request (recoverRequest d.sink) with
        up := true, incarnation := s.incarnation + 1 }

end Machine

/-- Where everything in the network comes from: each source has run on requests from the topic
server, each DEL was issued after a `get_msg` with its key, and each message on its way to the
application, or obtained by it, was passed to `send` at its source. -/
structure Provenance [IDataMessage T] (d : Deployment ι) (s : Network ι T) : Prop where
  sources : ∀ i, Reachable (next (d.identity i)) {} (s.source i)
  running : ∀ i, (s.source i).running = true
  consumed : ∀ i, ∀ req ∈ (s.source i).arrived, req ∈ s.topicServer
  requests : ∀ req ∈ s.topicServer, req.sink = d.sink ∧
    (req.branch = .del → ∃ j, (j, req.key) ∈ s.issued)
  issued : ∀ j k, (j, k) ∈ s.issued →
    ∃ o ∈ s.obtained, d.remembers o.incarnation j = true ∧ key o.msg = k
  frames : ∀ frame ∈ s.inFlight, frame.2 ∈ (s.source frame.1).produced
  queued : ∀ i, ∀ msg ∈ s.queues i, msg ∈ (s.source i).produced
  obtained : ∀ o ∈ s.obtained, o.msg ∈ (s.source o.source).produced

namespace Provenance
variable [DecidableEq ι] [IDataMessage T] {d : Deployment ι} {s t : Network ι T}

omit [DecidableEq ι] in
theorem initial : Provenance d ({} : Network ι T) where
  sources _ := .refl _
  running _ := rfl
  consumed := by simp
  requests := by simp
  issued := by simp
  frames := by simp
  queued := by simp
  obtained := by simp

theorem setSource (h : Provenance d s) {i : ι} {a : Label T} {u : Topic T}
    (hs : next (d.identity i) (s.source i) a = some u) (hrun : u.running = true)
    (harr : ∀ req ∈ u.arrived, req ∈ s.topicServer)
    (hprod : ∀ msg ∈ (s.source i).produced, msg ∈ u.produced) : Provenance d (s.setSource i u) := by
  have hmono : ∀ j, ∀ msg ∈ (s.source j).produced,
      msg ∈ (Function.update s.source i u j).produced := by
    intro j
    rcases eq_or_ne j i with rfl | hne
    · simpa using hprod
    · simp [hne]
  refine
    { sources := ?_
      running := ?_
      consumed := ?_
      requests := h.requests
      issued := h.issued
      frames := fun frame hf => hmono _ _ (h.frames frame hf)
      queued := fun j msg hm => hmono j msg (h.queued j msg hm)
      obtained := fun o ho => hmono _ _ (h.obtained o ho) }
  · exact (Function.forall_update_iff _ fun j v => Reachable (next (d.identity j)) {} v).mpr
      ⟨(h.sources i).tail hs, fun j _ => h.sources j⟩
  · exact (Function.forall_update_iff _ fun _ (v : Topic T) => v.running = true).mpr
      ⟨hrun, fun j _ => h.running j⟩
  · exact (Function.forall_update_iff _ fun _ (v : Topic T) =>
      ∀ req ∈ v.arrived, req ∈ s.topicServer).mpr
      ⟨harr, fun j _ => h.consumed j⟩

omit [DecidableEq ι] in
theorem request (h : Provenance d s) (req : RequestMessage) (hsink : req.sink = d.sink)
    (hb : req.branch ≠ .del) : Provenance d (s.request req) where
  sources := h.sources
  running := h.running
  consumed i r hr := List.mem_append_left _ (h.consumed i r hr)
  requests := forall_mem_concat h.requests ⟨hsink, fun hdel => absurd hdel hb⟩
  issued := h.issued
  frames := h.frames
  queued := h.queued
  obtained := h.obtained

theorem task (h : Provenance d s) (i : ι) (hs : networkNext d s (.task i) = some t) :
    Provenance d t := by
  cases hs
  have hmove := move_taskThread (d.identity i) (s.source i)
  have hset : Provenance d (s.setSource i (taskThread (d.identity i) (s.source i))) := by
    refine h.setSource (a := .task) rfl ?_ ?_ ?_
    · exact hmove.running.trans (h.running i)
    · simpa only [hmove.inputs.1] using h.consumed i
    · simp only [hmove.inputs.2]; exact fun _ => id
  refine { hset with frames := ?_ }
  intro frame hf
  rcases List.mem_append.mp hf with hf | hf
  · exact hset.frames frame hf
  · -- the frames of this step carry messages that the source had transmitted
    obtain ⟨msg, hm, rfl⟩ := List.mem_map.mp hf
    obtain ⟨tr, htr, rfl⟩ := List.mem_map.mp hm
    exact (traced_reachable (hset.sources i)).genuine.sent tr (by
      simpa [Network.setSource] using List.mem_of_mem_drop (List.mem_of_mem_filter htr))

theorem consume (h : Provenance d s) {i : ι} {n : ℕ}
    (hs : networkNext d s (.consume i n) = some t) : Provenance d t := by
  obtain ⟨req, hreq, hs⟩ := Option.bind_eq_some_iff.mp hs
  cases hs
  exact h.setSource (a := .recvRequest req) rfl (h.running i)
    (forall_mem_concat (h.consumed i) (List.mem_of_getElem? hreq)) fun _ => id

theorem receive (h : Provenance d s) {n : ℕ} (hs : networkNext d s (.receive n) = some t) :
    Provenance d t := by
  simp only [networkNext, Option.ite_none_right_eq_some] at hs
  obtain ⟨-, hs⟩ := hs
  obtain ⟨frame, hframe, rfl⟩ := Option.map_eq_some_iff.mp hs
  have hproduced := h.frames frame (List.mem_of_getElem? hframe)
  exact
    { h with
      frames := fun f hf => h.frames f (List.mem_of_mem_eraseIdx hf)
      queued := (Function.forall_update_iff _ fun j (q : List T) =>
        ∀ msg ∈ q, msg ∈ (s.source j).produced).mpr
          ⟨forall_mem_concat (h.queued _) hproduced, fun j _ => h.queued j⟩ }

theorem getMsg (h : Provenance d s) {i : ι} (hs : networkNext d s (.getMsg i) = some t) :
    Provenance d t := by
  simp only [networkNext, Option.ite_none_right_eq_some] at hs
  obtain ⟨-, hs⟩ := hs
  split at hs
  · cases hs
  · rename_i msg rest hq
    cases hs
    obtain ⟨hhead, htail⟩ := List.forall_mem_cons.mp (hq ▸ h.queued i :
      ∀ m ∈ msg :: rest, m ∈ (s.source i).produced)
    refine { h with queued := ?_, issued := ?_, obtained := forall_mem_concat h.obtained hhead }
    · intro j k hjk
      obtain ⟨o, ho, hrest⟩ := h.issued j k hjk
      exact ⟨o, List.mem_append_left _ ho, hrest⟩
    · exact (Function.forall_update_iff _ fun j (q : List T) =>
        ∀ msg ∈ q, msg ∈ (s.source j).produced).mpr ⟨htail, fun j _ => h.queued j⟩

theorem sendDelRequest (h : Provenance d s) {k : UInt64}
    (hs : networkNext d s (.sendDelRequest k) = some t) : Provenance d t := by
  simp only [networkNext, Option.ite_none_right_eq_some, Bool.and_eq_true,
    Option.some.injEq] at hs
  obtain ⟨⟨-, hkey⟩, rfl⟩ := hs
  refine { h with consumed := ?_, requests := ?_, issued := ?_ }
  · exact fun i r hr => List.mem_append_left _ (h.consumed i r hr)
  · refine forall_mem_concat (fun r hr => ?_)
      ⟨rfl, fun _ => ⟨s.incarnation, List.mem_append_right _ (by simp)⟩⟩
    obtain ⟨hsink, hdel⟩ := h.requests r hr
    exact ⟨hsink, fun hb => (hdel hb).imp fun j hj => List.mem_append_left _ hj⟩
  · intro j k' hjk
    rcases List.mem_append.mp hjk with hjk | hjk
    · exact h.issued j k' hjk
    · cases List.mem_singleton.mp hjk
      obtain ⟨o, ho, hk⟩ := List.any_eq_true.mp hkey
      exact ⟨o, ho, by simpa using hk⟩

theorem step (h : Provenance d s) {a : NetworkLabel ι T} (hs : networkNext d s a = some t) :
    Provenance d t := by
  cases a with
  | send i msg =>
    cases hs
    exact h.setSource (a := .send msg) rfl (h.running i) (h.consumed i)
      fun m hm => List.mem_append_left _ hm
  | task i => exact h.task i hs
  | consume i n => exact h.consume hs
  | lose n =>
    cases hs
    exact { h with frames := fun frame hf => h.frames frame (List.mem_of_mem_eraseIdx hf) }
  | receive n => exact h.receive hs
  | getMsg i => exact h.getMsg hs
  | sendGetRequest =>
    simp only [networkNext, Option.ite_none_right_eq_some, Option.some.injEq] at hs
    obtain ⟨-, rfl⟩ := hs
    exact h.request _ rfl (by simp)
  | sendDelRequest k => exact h.sendDelRequest hs
  | sendRecoverRequest =>
    simp only [networkNext, Option.ite_none_right_eq_some, Option.some.injEq] at hs
    obtain ⟨-, rfl⟩ := hs
    exact h.request _ rfl (by simp)
  | crash =>
    simp only [networkNext, Option.ite_none_right_eq_some, Option.some.injEq] at hs
    obtain ⟨-, rfl⟩ := hs
    exact { h with queued := by simp }
  | start =>
    simp only [networkNext, Option.ite_none_left_eq_some, Option.some.injEq] at hs
    obtain ⟨-, rfl⟩ := hs
    exact { h.request (recoverRequest d.sink) rfl (by simp) with }

end Provenance

theorem provenance_reachable [DecidableEq ι] [IDataMessage T] {d : Deployment ι}
    {s : Network ι T} (h : Reachable (networkNext d) {} s) : Provenance d s :=
  h.invariant .initial fun _ _ _ hu hv => hu.step hv

end MessagePass.DeliveryNetwork
