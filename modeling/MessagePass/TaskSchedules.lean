import MessagePass.RequestBookkeeping
import Mathlib.Logic.Function.Iterate

/-!
# Schedules of the task thread

What the thread leaves behind when it can only time out is computed by `settle` from the two
input sequences, without any schedule. Each step of each thread leaves the value of `settle` on
what is still to be done unchanged, so every interleaving ends in the same outcome, and the
n-th GET takes the n-th message. The same accounting says which requests are reached at all: a
GET that waits for data that was never produced holds up everything behind it.
-/
namespace MessagePass.SourceTasks
open Std RequestMessages DataMessages OrderedMaps LabelledRuns

variable {T : Type} [IDataMessage T] {identity : UInt64}

def Idle (s : Topic T) : Prop :=
  match s.pc with
  | .loop | .await => s.requests = []
  | .getWait _ _ | .getExpired _ _ => s.ready = []
  | _ => False

/-- A bound on the steps left before the thread is idle. -/
def Topic.work (s : Topic T) : ℕ :=
  10 * s.requests.length + match s.pc with
    | .dispatch _ => 9
    | .getExpired _ _ => 8
    | .getWait _ _ => 7
    | .getSend _ _ _ => 6
    | .getStore _ _ _ => 5
    | .loop => 4
    | .await => 3
    | .finished | .undefined => 0

theorem work_lt {s t : Topic T} (hc : Coherent identity s) (hrun : s.running = true)
    (hidle : ¬ Idle s) (hm : Move identity s t) : t.work < s.work := by
  cases hm with
  | enter hpc _ => simp [Topic.work, hpc]
  | leave hpc hstop => simp [hrun] at hstop
  | idle hpc hq => simp [Idle, hpc, hq] at hidle
  | take req rest hpc hq => simp only [Topic.work, hpc, hq, List.length_cons]; omega
  | getFound req socket hpc hb hs => simp [Topic.work, hpc]
  | getFresh req hpc hb hs => simp [Topic.work, hpc]
  | del req hpc hb => simp [Topic.work, hpc]
  | recover req l hpc hb hl => simp [Topic.work, hpc]
  | recoverEnd req hpc hb hl => simp [Topic.work, hpc]
  | ignore req hpc hb => simp [Topic.work, hpc]
  | expire req socket hpc hq => simp [Idle, hpc, hq] at hidle
  | pop req socket msg rest hpc hq => simp [Topic.work, hpc]
  | again req socket hpc _ => simp [Topic.work, hpc]
  | giveUp req socket hpc hstop => simp [hrun] at hstop
  | sendUnset req socket hpc => simp [Topic.work, hpc]
  | send req socket msg hpc => simp [Topic.work, hpc]
  | store req socket msg hpc => simp [Topic.work, hpc]
  | halted hpc =>
    rcases hpc with hpc | hpc
    · exact absurd hpc (hc.defined hrun).2.1
    · exact absurd hpc (hc.defined hrun).1

theorem exists_idle {s : Topic T} (hc : Coherent identity s) (hrun : s.running = true) :
    ∃ n, Idle ((taskThread identity)^[n] s) := by
  induction hw : s.work using Nat.strongRecOn generalizing s with
  | ind w ih =>
    by_cases hidle : Idle s
    · exact ⟨0, hidle⟩
    · have hm := move_taskThread identity s
      have hlt := work_lt hc hrun hidle hm
      obtain ⟨n, hn⟩ := ih _ (hw ▸ hlt) (hc.move hm) (hm.running.trans hrun) rfl
      exact ⟨n + 1, by simpa [Function.iterate_succ_apply] using hn⟩

theorem reachable_iterate (identity : UInt64) (s : Topic T) (n : ℕ) :
    Reachable (next identity) s ((taskThread identity)^[n] s) := by
  induction n with
  | zero => exact .refl s
  | succ n ih => rw [Function.iterate_succ_apply']; exact ih.tail (a := .task) rfl

theorem Move.handled_prefix {s t : Topic T} (hm : Move identity s t) :
    s.locals.handled <+: t.locals.handled := by
  cases hm with
  | recover req l hpc hb hl =>
    unfold TaskLocals.recoverMsg at hl
    split at hl
    · cases hl; simp
    · split at hl
      · cases hl
      · split at hl <;> cases hl <;> simp
  | _ => simp

theorem sent_prefix_next {s t : Topic T} {a : Label T} (hc : Coherent identity s)
    (hs : next identity s a = some t) : s.locals.sent <+: t.locals.sent := by
  cases a with
  | task => cases hs; exact Move.sent_prefix (move_taskThread identity s) hc
  | _ => cases hs; exact List.prefix_refl _

theorem iterate_inputs (identity : UInt64) (s : Topic T) (n : ℕ) :
    ((taskThread identity)^[n] s).running = s.running ∧
      ((taskThread identity)^[n] s).arrived = s.arrived ∧
      ((taskThread identity)^[n] s).produced = s.produced ∧
      s.locals.handled <+: ((taskThread identity)^[n] s).locals.handled := by
  induction n with
  | zero => simp
  | succ n ih =>
    obtain ⟨hr, ha, hp, hh⟩ := ih
    rw [Function.iterate_succ_apply']
    have hm := move_taskThread identity ((taskThread identity)^[n] s)
    exact ⟨hm.running.trans hr, hm.inputs.1.trans ha, hm.inputs.2.trans hp,
      hh.trans hm.handled_prefix⟩

/-! ## Timing independence -/

/-- What the thread leaves: its maps and log, the GET it waits in, and the two queues. -/
structure Outcome (T : Type) where
  locals : TaskLocals T
  waiting : Option RequestMessage
  requests : List RequestMessage
  ready : List T

/-- Process the requests in order, each GET taking the next message, until a GET finds none. -/
def settle (identity : UInt64) (l : TaskLocals T) : List RequestMessage → List T → Outcome T
  | [], msgs => ⟨l, none, [], msgs⟩
  | req :: reqs, msgs => match req.branch with
    | .get =>
        let opened := l.openSocket identity req.sink
        match msgs with
        | [] => ⟨opened.2, some req, reqs, []⟩
        | msg :: rest => settle identity
            (((opened.2.sendMsg req opened.1 msg).storeMsg req msg).finish req (some msg)) reqs rest
    | .del => settle identity ((l.deleteMsg req).finish req none) reqs msgs
    | .recover => settle identity (((l.recoverMsg req).getD l).finish req none) reqs msgs
    | .other => settle identity (l.finish req none) reqs msgs

theorem settle_opened (l : TaskLocals T) {req : RequestMessage} (hb : req.branch = .get)
    (reqs : List RequestMessage) (msgs : List T) :
    settle identity (l.openSocket identity req.sink).2 (req :: reqs) msgs =
      settle identity l (req :: reqs) msgs := by
  have hidem : (l.openSocket identity req.sink).2.openSocket identity req.sink =
      l.openSocket identity req.sink := by
    cases hs : l.sockets[req.sink]? with
    | some socket =>
      rw [l.openSocket_found socket req.sink hs, l.openSocket_found socket req.sink hs]
    | none =>
      rw [l.openSocket_fresh req.sink hs]
      exact TaskLocals.openSocket_found _ _ _ (by simp)
  simp only [settle, hb, hidem]

/-- The outcome still to be expected in a state, when more requests and messages will follow. -/
def Topic.pending (identity : UInt64) (s : Topic T) (reqs : List RequestMessage) (msgs : List T) :
    Outcome T :=
  match s.pc with
  | .getStore req _ msg => settle identity ((s.locals.storeMsg req msg).finish req (some msg))
      (s.requests ++ reqs) (s.ready ++ msgs)
  | pc =>
      settle identity s.locals (pc.inFlight ++ s.requests ++ reqs) (pc.inHand ++ s.ready ++ msgs)

theorem Move.pending {s t : Topic T} (hm : Move identity s t) (hc : Coherent identity s)
    (hrun : s.running = true) (reqs : List RequestMessage) (msgs : List T) :
    t.pending identity reqs msgs = s.pending identity reqs msgs := by
  cases hm with
  | enter hpc _ => simp [Topic.pending, hpc, Pc.inFlight, Pc.inHand]
  | leave hpc hstop => simp [hrun] at hstop
  | idle hpc hq => simp [Topic.pending, hpc, Pc.inFlight, Pc.inHand]
  | take req rest hpc hq => simp [Topic.pending, hpc, hq, Pc.inFlight, Pc.inHand]
  | getFound req socket hpc hb hs => simp [Topic.pending, hpc, Pc.inFlight, Pc.inHand]
  | getFresh req hpc hb hs =>
    simpa [Topic.pending, hpc, Pc.inFlight, Pc.inHand] using settle_opened s.locals hb _ _
  | del req hpc hb => simp [Topic.pending, hpc, Pc.inFlight, Pc.inHand, settle, hb]
  | recover req l hpc hb hl => simp [Topic.pending, hpc, Pc.inFlight, Pc.inHand, settle, hb, hl]
  | recoverEnd req hpc hb hl => simp [hc.recoverMsg_eq req] at hl
  | ignore req hpc hb => simp [Topic.pending, hpc, Pc.inFlight, Pc.inHand, settle, hb]
  | expire req socket hpc hq => simp [Topic.pending, hpc, Pc.inFlight, Pc.inHand]
  | pop req socket msg rest hpc hq => simp [Topic.pending, hpc, hq, Pc.inFlight, Pc.inHand]
  | again req socket hpc _ => simp [Topic.pending, hpc, Pc.inFlight, Pc.inHand]
  | giveUp req socket hpc hstop => simp [hrun] at hstop
  | sendUnset req socket hpc => exact absurd hpc ((hc.defined hrun).2.2 req socket)
  | send req socket msg hpc =>
    obtain ⟨hb, hs⟩ := hc.serving req socket (by simp [hpc, Pc.serving])
    simp [Topic.pending, hpc, Pc.inFlight, Pc.inHand, settle, hb,
      s.locals.openSocket_found socket req.sink hs]
  | store req socket msg hpc => simp [Topic.pending, hpc, Pc.inFlight, Pc.inHand]
  | halted hpc => rfl

def Topic.outcome (s : Topic T) : Outcome T := ⟨s.locals, s.pc.inFlight.head?, s.requests, s.ready⟩

theorem pending_idle {s : Topic T} (hc : Coherent identity s) (hidle : Idle s) :
    s.pending identity [] [] = s.outcome := by
  have hserving := hc.serving
  unfold Idle at hidle
  split at hidle <;> rename_i hpc
  · simp [Topic.pending, Topic.outcome, hpc, hidle, Pc.inFlight, Pc.inHand, settle]
  · simp [Topic.pending, Topic.outcome, hpc, hidle, Pc.inFlight, Pc.inHand, settle]
  · rename_i req socket
    obtain ⟨hb, hs⟩ := hserving req socket (by simp [hpc, Pc.serving])
    simp [Topic.pending, Topic.outcome, hpc, hidle, Pc.inFlight, Pc.inHand, settle, hb,
      s.locals.openSocket_found socket req.sink hs]
  · rename_i req socket
    obtain ⟨hb, hs⟩ := hserving req socket (by simp [hpc, Pc.serving])
    simp [Topic.pending, Topic.outcome, hpc, hidle, Pc.inFlight, Pc.inHand, settle, hb,
      s.locals.openSocket_found socket req.sink hs]
  · exact hidle.elim

/-- In every reachable state the inputs so far, followed by any further ones, settle to what is
still to be expected. -/
theorem settle_reachable {s : Topic T} (h : Reachable (next identity) {} s)
    (hrun : s.running = true) (reqs : List RequestMessage) (msgs : List T) :
    settle identity {} (s.arrived ++ reqs) (s.produced ++ msgs) = s.pending identity reqs msgs := by
  refine h.invariant_with (I := fun u => u.running = true → ∀ reqs msgs,
      settle identity {} (u.arrived ++ reqs) (u.produced ++ msgs) = u.pending identity reqs msgs)
    (fun u hu => coherent_reachable hu) ?_ ?_ hrun reqs msgs
  · intro _ reqs msgs
    simp [Topic.pending, Pc.inFlight, Pc.inHand]
  · intro u a v hc hu hv hvrun reqs msgs
    have hold := hu (running_of_next hv hvrun)
    cases a with
    | send msg =>
      cases hv
      have hstep := hold reqs (msg :: msgs)
      simp only [Topic.pending, List.append_assoc, List.singleton_append] at hstep ⊢
      exact hstep
    | recvRequest req =>
      cases hv
      have hstep := hold (req :: reqs) msgs
      simp only [Topic.pending, List.append_assoc, List.singleton_append] at hstep ⊢
      exact hstep
    | task =>
      have hurun := running_of_next hv hvrun
      cases hv
      have hm := move_taskThread identity u
      rw [hm.pending hc hurun, hm.inputs.1, hm.inputs.2]
      exact hold reqs msgs
    | stop => cases hv; simp at hvrun

/-- The n-th GET of the requests, matched with the n-th message. -/
def pairing (identity : UInt64) (reqs : List RequestMessage) (msgs : List T) :
    List (Transmission T) :=
  List.zipWith (fun req msg => ⟨req, ⟨identity, req.sink⟩, msg⟩)
    (reqs.filter fun req => req.branch = .get) msgs

omit [IDataMessage T] in
theorem pairing_history (identity : UInt64) (history : List (Handled T))
    (hp : ∀ e ∈ history, e.msg.isSome = true ↔ e.req.branch = .get) :
    ((history.map (·.req)).filter fun req => req.branch = .get).length =
        (history.filterMap (·.msg)).length ∧
      getOutputs identity history =
        pairing identity (history.map (·.req)) (history.filterMap (·.msg)) := by
  induction history with
  | nil => simp [getOutputs, pairing]
  | cons e history ih =>
    obtain ⟨hlen, hout⟩ := ih fun e' he' => hp e' (List.mem_cons_of_mem _ he')
    have he := hp e List.mem_cons_self
    unfold getOutputs pairing at hout ⊢
    by_cases hb : e.req.branch = .get
    · obtain ⟨msg, hmsg⟩ := Option.isSome_iff_exists.mp (he.mpr hb)
      simp [hb, hmsg, hlen, hout]
    · have hnone : e.msg = none := by simpa [hb] using he
      simp [hb, hnone, hlen, hout]

omit [IDataMessage T] in
private theorem pairing_split {s : Topic T} (h : Conserved s) :
    pairing identity s.arrived s.produced = getOutputs identity s.locals.handled ++
      pairing identity (s.pc.inFlight ++ s.requests) (s.pc.inHand ++ s.ready) := by
  obtain ⟨hlen, hout⟩ := pairing_history identity s.locals.handled h.popped
  rw [hout, h.requests, h.messages]
  simp only [pairing, List.filter_append]
  rw [List.zipWith_append hlen]

theorem getSent_prefix {s : Topic T} (h : Conserved s) (hc : Coherent identity s)
    (hr : Recorded identity s) : s.locals.getSent <+: pairing identity s.arrived s.produced := by
  rw [hr.outputs, pairing_split h]
  refine List.prefix_append_right_inj _ |>.mpr ?_
  cases hpc : s.pc with
  | getStore req socket msg =>
    obtain ⟨hb, hs⟩ := hc.serving req socket (by simp [hpc, Pc.serving])
    simp [Pc.unstored, Pc.inFlight, Pc.inHand, pairing, hb, hc.socket _ _ hs]
  | _ => simp [Pc.unstored]

theorem getSent_idle {s : Topic T} (h : Conserved s) (hr : Recorded identity s) (hidle : Idle s) :
    s.locals.getSent = pairing identity s.arrived s.produced := by
  rw [hr.outputs, pairing_split h]
  unfold Idle at hidle
  split at hidle <;> rename_i hpc <;>
    simp_all [Pc.unstored, Pc.inFlight, Pc.inHand, pairing]

structure Final (identity : UInt64) (reqs : List RequestMessage) (msgs : List T) (s : Topic T) :
    Prop where
  reachable : Reachable (next identity) {} s
  running : s.running = true
  arrived : s.arrived = reqs
  produced : s.produced = msgs
  idle : Idle s

private theorem reachable_sends (identity : UInt64) (s : Topic T) (msgs : List T) :
    Reachable (next identity) s
      { s with ready := s.ready ++ msgs, produced := s.produced ++ msgs } := by
  induction msgs generalizing s with
  | nil => simpa using Reachable.refl s
  | cons msg msgs ih =>
    have hstep : Reachable (next identity) s
        { s with ready := s.ready ++ [msg], produced := s.produced ++ [msg] } :=
      (Reachable.refl s).tail (a := .send msg) rfl
    simpa using hstep.trans (ih _)

private theorem reachable_requests (identity : UInt64) (s : Topic T) (reqs : List RequestMessage) :
    Reachable (next identity) s
      { s with requests := s.requests ++ reqs, arrived := s.arrived ++ reqs } := by
  induction reqs generalizing s with
  | nil => simpa using Reachable.refl s
  | cons req reqs ih =>
    have hstep : Reachable (next identity) s
        { s with requests := s.requests ++ [req], arrived := s.arrived ++ [req] } :=
      (Reachable.refl s).tail (a := .recvRequest req) rfl
    simpa using hstep.trans (ih _)

/-- Every interleaving of part of the inputs can be completed. -/
theorem exists_final {s : Topic T} {reqs : List RequestMessage} {msgs : List T}
    (h : Reachable (next identity) {} s) (hrun : s.running = true) (hr : s.arrived <+: reqs)
    (hm : s.produced <+: msgs) :
    ∃ t, Reachable (next identity) s t ∧ Final identity reqs msgs t := by
  obtain ⟨reqs', rfl⟩ := hr
  obtain ⟨msgs', rfl⟩ := hm
  have hfed := (reachable_sends identity s msgs').trans (reachable_requests identity _ reqs')
  obtain ⟨n, hidle⟩ := exists_idle (coherent_reachable (h.trans hfed)) hrun
  have hin := iterate_inputs identity
    { s with
      ready := s.ready ++ msgs', produced := s.produced ++ msgs'
      requests := s.requests ++ reqs', arrived := s.arrived ++ reqs' } n
  have hreach := hfed.trans (reachable_iterate identity _ n)
  exact ⟨_, hreach, h.trans hreach, hin.1.trans hrun, hin.2.1, hin.2.2.1, hidle⟩

/-- The n-th GET transmits the n-th message, at every moment of every schedule; every schedule
can be run to its end; and the end is the same for all of them. -/
theorem timing_independence (identity : UInt64) (reqs : List RequestMessage) (msgs : List T) :
    (∀ s : Topic T, Reachable (next identity) {} s → s.running = true →
      s.locals.getSent <+: pairing identity s.arrived s.produced) ∧
    (∀ s : Topic T, Reachable (next identity) {} s → s.running = true → s.arrived <+: reqs →
      s.produced <+: msgs → ∃ t, Reachable (next identity) s t ∧ Final identity reqs msgs t) ∧
    (∀ s, Final identity reqs msgs s → s.outcome = settle identity {} reqs msgs ∧
      s.locals.getSent = pairing identity reqs msgs) := by
  refine ⟨fun s h hrun => ?_, fun s h hrun hr hm => exists_final h hrun hr hm, fun s hf => ?_⟩
  · have hc := coherent_reachable h
    exact getSent_prefix (conserved_reachable h (hc.defined hrun).1) hc (recorded_reachable h hrun)
  · have hc := coherent_reachable hf.reachable
    have hcons := conserved_reachable hf.reachable (hc.defined hf.running).1
    have hsettle := settle_reachable hf.reachable hf.running [] []
    rw [List.append_nil, List.append_nil, pending_idle hc hf.idle, hf.arrived,
      hf.produced] at hsettle
    have hget := getSent_idle hcons (recorded_reachable hf.reachable hf.running) hf.idle
    rw [hf.arrived, hf.produced] at hget
    exact ⟨hsettle.symm, hget⟩

/-- A schedule that completes: one message, a GET for it and the RECOVER of the same sink. -/
theorem timing_independence_example :
    ∃ s, Final 7 [getRequest [83], recoverRequest [83]] [ByteMessage.ofBytes [1]] s ∧
      s.outcome = settle 7 {} [getRequest [83], recoverRequest [83]] [ByteMessage.ofBytes [1]] ∧
      s.locals.getSent = [⟨getRequest [83], ⟨7, [83]⟩, .ofBytes [1]⟩] := by
  obtain ⟨-, hcomplete, hend⟩ := timing_independence 7 [getRequest [83], recoverRequest [83]]
    [ByteMessage.ofBytes [1]]
  obtain ⟨s, -, hfinal⟩ := hcomplete {} (.refl _) rfl (List.nil_prefix ..) (List.nil_prefix ..)
  exact ⟨s, hfinal, (hend s hfinal).1, (hend s hfinal).2⟩

end MessagePass.SourceTasks
