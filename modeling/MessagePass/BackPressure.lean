import MessagePass.ReceiveLoop
import MessagePass.SourceOwnership
import MessagePass.StoppedGets
import MessagePass.TaskSchedules

/-!
# Sending against back-pressure

The two modes of `send_msg` call `zmq_send` with different flags. With variable sizes the first
frame of a message waits until the pipe to the sink is below its high-water mark, and the second
follows it; with a fixed size the only frame is sent with `ZMQ_DONTWAIT`, so a full pipe drops it,
and the result of the call is not looked at. Here the calls of one task thread become steps of
their own, between which the pipes fill and drain.
-/
namespace MessagePass.BackPressure
open Std RequestMessages DataMessages OrderedMaps LabelledRuns LittleEndian SourceTasks
open ReceiveLoop (Frame)

variable {T : Type}

/-- One call of `zmq_send` with its flags, and the call of `send_msg` that makes it. -/
structure ZmqSend (T : Type) where
  tr : Transmission T
  frame : Frame
  dontWait : Bool := false
  sndMore : Bool := false
  deriving DecidableEq

def ZmqSend.endpoint (call : ZmqSend T) : Str := call.tr.socket.endpoint

/-- `send_msg`: only the data when sending is fixed to a size, otherwise the image of the size
and the data. -/
def sendMsg [IDataMessage T] (sendFixed : Option UInt64) (tr : Transmission T) : List (ZmqSend T) :=
  match sendFixed with
  | some fixedSize => [{ tr, frame := (constData tr.msg).take fixedSize.toNat, dontWait := true }]
  | none =>
      [{ tr, frame := image (size tr.msg), sndMore := true },
        { tr, frame := (constData tr.msg).take (size tr.msg).toNat, dontWait := true }]

/-- A topic with its sockets. `outbox` holds the calls that the task thread makes next, for what
it has logged as sent; `pipes` counts the messages that wait in the pipe to a sink, and `midway`
says that the frame the socket accepted last announced another one. -/
structure Sender (T : Type) where
  topic : Topic T := {}
  outbox : List (ZmqSend T) := []
  pipes : Str → ℕ := fun _ => 0
  midway : Str → Bool := fun _ => false
  accepted : List (ZmqSend T) := []

/-- The pipe is below its high-water mark, where 0 stands for no limit. -/
def Room (hwm : ℕ) (s : Sender T) (sink : Str) : Prop := hwm = 0 ∨ s.pipes sink < hwm

instance (hwm : ℕ) (s : Sender T) (sink : Str) : Decidable (Room hwm s sink) :=
  inferInstanceAs (Decidable (_ ∨ _))

def Sender.accept (s : Sender T) (call : ZmqSend T) (rest : List (ZmqSend T)) : Sender T :=
  { s with
    outbox := rest
    pipes := if call.sndMore then s.pipes
      else Function.update s.pipes call.endpoint (s.pipes call.endpoint + 1)
    midway := Function.update s.midway call.endpoint call.sndMore
    accepted := s.accepted ++ [call] }

/-- `zmq_send` accepts the later frames of an accepted message. A first frame needs room: without
it the call fails with `EAGAIN` or waits, as its flag says. -/
def zmqSend (hwm : ℕ) (s : Sender T) (call : ZmqSend T) (rest : List (ZmqSend T)) : Sender T :=
  if s.midway call.endpoint = true ∨ Room hwm s call.endpoint then s.accept call rest
  else if call.dontWait then { s with outbox := rest } -- `send_msg` ignores the result
  else s

theorem zmqSend_full {hwm : ℕ} {s : Sender T} {call : ZmqSend T} {rest : List (ZmqSend T)}
    (hmid : s.midway call.endpoint = false) (hroom : ¬ Room hwm s call.endpoint)
    (hflag : call.dontWait = true) : zmqSend hwm s call rest = { s with outbox := rest } := by
  simp [zmqSend, hmid, hroom, hflag]

/-- Who moves: the topic's parties as before, or the receiver, which takes a message. -/
inductive Label (T : Type) where
  | source (a : SourceTasks.Label T)
  | drain (sink : Str)

section Step
variable [IDataMessage T]

/-- One step of the task thread up to its next call of `zmq_send`. -/
def Sender.advance (identity : UInt64) (sendFixed : Option UInt64) (s : Sender T) : Sender T :=
  let topic := taskThread identity s.topic
  { s with
    topic := topic
    outbox := (topic.locals.sent.drop s.topic.locals.sent.length).flatMap (sendMsg sendFixed) }

/-- The task thread goes on only when the calls it has to make have returned. -/
def senderNext (identity : UInt64) (sendFixed : Option UInt64) (hwm : ℕ) (s : Sender T) :
    Label T → Option (Sender T)
  | .source .task => match s.outbox with
    | [] => some (s.advance identity sendFixed)
    | call :: rest => some (zmqSend hwm s call rest)
  | .source a => (next identity s.topic a).map fun topic => { s with topic := topic }
  | .drain sink =>
      if 0 < s.pipes sink then
        some { s with pipes := Function.update s.pipes sink (s.pipes sink - 1) }
      else none

end Step

/-- The condition on a step: with a fixed size, `zmq_send` is called when the pipe has room. -/
def roomy (sendFixed : Option UInt64) (hwm : ℕ) (s : Sender T) (a : Label T) : Bool :=
  match sendFixed, a, s.outbox with
  | some _, .source .task, call :: _ => decide (Room hwm s call.endpoint)
  | _, _, _ => true

/-- The runs whose steps all meet the condition. With variable sizes these are all runs. -/
def roomyNext [IDataMessage T] (identity : UInt64) (sendFixed : Option UInt64) (hwm : ℕ) :
    Sender T → Label T → Option (Sender T) :=
  guarded (fun s a => roomy sendFixed hwm s a = true) (senderNext identity sendFixed hwm)

/-! ## What is accepted -/

variable [IDataMessage T] {identity : UInt64} {sendFixed : Option UInt64} {hwm : ℕ}

theorem roomyNext_none : roomyNext (T := T) identity none hwm = senderNext identity none hwm := by
  funext s a
  simp [roomyNext, guarded, roomy]

theorem tr_of_mem_sendMsg {tr : Transmission T} {call : ZmqSend T}
    (h : call ∈ sendMsg sendFixed tr) : call.tr = tr := by
  cases sendFixed with
  | some fixedSize => simp only [sendMsg, List.mem_singleton] at h; rw [h]
  | none =>
    simp only [sendMsg, List.mem_cons, List.not_mem_nil, or_false] at h
    rcases h with rfl | rfl <;> rfl

theorem filter_flatMap_sendMsg (p : Transmission T → Bool) (trs : List (Transmission T)) :
    (trs.flatMap (sendMsg sendFixed)).filter (fun call => p call.tr) =
      (trs.filter p).flatMap (sendMsg sendFixed) := by
  induction trs with
  | nil => rfl
  | cons tr trs ih =>
    have hhead : (sendMsg sendFixed tr).filter (fun call => p call.tr) =
        if p tr then sendMsg sendFixed tr else [] := by
      cases hp : p tr with
      | true =>
        exact List.filter_eq_self.mpr fun call hcall => (tr_of_mem_sendMsg hcall).symm ▸ hp
      | false =>
        apply List.filter_eq_nil_iff.mpr
        intro call hcall
        simp [tr_of_mem_sendMsg hcall, hp]
    rw [List.flatMap_cons, List.filter_append, ih, hhead, List.filter_cons]
    split <;> simp

def ZmqSend.isGet (call : ZmqSend T) : Bool := call.tr.req.branch = .get

/-- The state of the calls: none is lost, those for a GET belong to the GET in progress, and the
socket is in the middle of a message exactly when the thread is. -/
structure InOrder (sendFixed : Option UInt64) (s : Sender T) : Prop where
  calls : s.accepted ++ s.outbox = s.topic.locals.sent.flatMap (sendMsg sendFixed)
  gets : s.outbox.filter ZmqSend.isGet <:+ s.topic.pc.unstored.flatMap (sendMsg sendFixed)
  single : sendFixed.isSome = true → ∀ sink, s.midway sink = false
  parts : sendFixed = none →
    (∃ trs : List (Transmission T), s.outbox = trs.flatMap (sendMsg none)) ∨
    ∃ first last, ∃ trs : List (Transmission T),
      s.outbox = last :: trs.flatMap (sendMsg none) ∧ sendMsg none last.tr = [first, last] ∧
        s.midway last.endpoint = true

theorem inOrder_initial : InOrder sendFixed ({} : Sender T) where
  calls := by simp
  gets := by simp
  single := by simp
  parts := fun _ => .inl ⟨[], rfl⟩

inductive Act (identity : UInt64) (sendFixed : Option UInt64) (hwm : ℕ) (s : Sender T) :
    Sender T → Prop
  | other (topic : Topic T) (hpc : topic.pc = s.topic.pc) (hl : topic.locals = s.topic.locals) :
      Act identity sendFixed hwm s { s with topic := topic }
  | drain (pipes : Str → ℕ) : Act identity sendFixed hwm s { s with pipes := pipes }
  | advance (hout : s.outbox = []) : Act identity sendFixed hwm s (s.advance identity sendFixed)
  | send (call rest) (hout : s.outbox = call :: rest)
      (hroom : sendFixed.isSome = true → Room hwm s call.endpoint) :
      Act identity sendFixed hwm s (zmqSend hwm s call rest)

theorem act_roomyNext {s t : Sender T} {a : Label T}
    (h : roomyNext identity sendFixed hwm s a = some t) : Act identity sendFixed hwm s t := by
  obtain ⟨hroom, hs⟩ := guarded_eq_some.mp h
  cases a with
  | drain sink =>
    simp only [senderNext] at hs
    split at hs
    · cases hs; exact .drain _
    · cases hs
  | source a =>
    cases a with
    | send msg => cases hs; exact .other _ rfl rfl
    | recvRequest req => cases hs; exact .other _ rfl rfl
    | stop => cases hs; exact .other _ rfl rfl
    | task =>
      simp only [senderNext] at hs
      split at hs <;> rename_i hout <;> cases hs
      · exact .advance hout
      · refine .send _ _ hout fun hfixed => ?_
        obtain ⟨fixedSize, rfl⟩ := Option.isSome_iff_exists.mp hfixed
        simpa [roomy, hout] using hroom

/-- The topic of a sender runs as a topic does whose calls of `send_msg` take no time. -/
theorem reachable_topic {s t : Sender T} (h : Reachable (senderNext identity sendFixed hwm) s t) :
    Reachable (next identity) s.topic t.topic := by
  apply h.invariant (I := fun u => Reachable (next identity) s.topic u.topic) (.refl _)
  intro u a v hu hv
  cases a with
  | drain sink =>
    simp only [senderNext] at hv
    split at hv
    · cases hv; exact hu
    · cases hv
  | source a =>
    cases a with
    | send msg => cases hv; exact hu.tail (a := .send msg) rfl
    | recvRequest req => cases hv; exact hu.tail (a := .recvRequest req) rfl
    | stop => cases hv; exact hu.tail (a := .stop) rfl
    | task =>
      simp only [senderNext] at hv
      split at hv <;> cases hv
      · exact hu.tail (a := .task) rfl
      · unfold zmqSend
        split
        · exact hu
        · split <;> exact hu

namespace InOrder
variable {s t : Sender T}

theorem exists_tr (h : InOrder sendFixed s) {call : ZmqSend T} {rest : List (ZmqSend T)}
    (hout : s.outbox = call :: rest) : ∃ tr, call ∈ sendMsg sendFixed tr := by
  have hmem : call ∈ s.topic.locals.sent.flatMap (sendMsg sendFixed) := by
    rw [← h.calls, hout]
    simp
  obtain ⟨tr, -, hcall⟩ := List.mem_flatMap.mp hmem
  exact ⟨tr, hcall⟩

theorem advance (h : InOrder sendFixed s) (hc : Coherent identity s.topic) (hout : s.outbox = []) :
    InOrder sendFixed (s.advance identity sendFixed) := by
  obtain ⟨new, hsent, hget⟩ := (move_taskThread identity s.topic).sent_append hc
  have hcalls := h.calls
  have houtbox : (s.advance identity sendFixed).outbox = new.flatMap (sendMsg sendFixed) := by
    simp [Sender.advance, hsent]
  refine ⟨?_, ?_, h.single, ?_⟩
  · rw [hout, List.append_nil] at hcalls
    rw [houtbox]
    simp [Sender.advance, hsent, hcalls]
  · rw [houtbox]
    obtain ⟨done, hdone⟩ := hget
    refine ⟨done.flatMap (sendMsg sendFixed), ?_⟩
    have hfilter : (new.flatMap (sendMsg sendFixed)).filter ZmqSend.isGet =
        (new.filter fun tr => tr.req.branch = .get).flatMap (sendMsg sendFixed) :=
      filter_flatMap_sendMsg (fun tr => decide (tr.req.branch = .get)) new
    rw [hfilter, ← List.flatMap_append, hdone]
    rfl
  · rintro rfl
    exact .inl ⟨new, houtbox⟩

theorem accept (h : InOrder sendFixed s) {call : ZmqSend T} {rest : List (ZmqSend T)}
    (hout : s.outbox = call :: rest)
    (hsingle : sendFixed.isSome = true → call.sndMore = false)
    (hparts : sendFixed = none →
      (∃ trs : List (Transmission T), rest = trs.flatMap (sendMsg none)) ∨
      ∃ first last, ∃ trs : List (Transmission T),
        rest = last :: trs.flatMap (sendMsg none) ∧ sendMsg none last.tr = [first, last] ∧
          (s.accept call rest).midway last.endpoint = true) :
    InOrder sendFixed (s.accept call rest) where
  calls := by
    have hcalls := h.calls
    rw [hout] at hcalls
    simpa [Sender.accept] using hcalls
  gets := by
    have hgets := h.gets
    rw [hout] at hgets
    exact ((List.suffix_cons call rest).filter _).trans hgets
  single := by
    intro hfixed sink
    simp only [Sender.accept, Function.update_apply]
    split
    · exact hsingle hfixed
    · exact h.single hfixed sink
  parts := hparts

theorem send (h : InOrder sendFixed s) {call : ZmqSend T} {rest : List (ZmqSend T)}
    (hout : s.outbox = call :: rest)
    (hroom : sendFixed.isSome = true → Room hwm s call.endpoint) :
    InOrder sendFixed (zmqSend hwm s call rest) := by
  cases hfixed : sendFixed with
  | some fixedSize =>
    subst hfixed
    obtain ⟨tr, hcall⟩ := h.exists_tr hout
    rw [zmqSend, if_pos (.inr (hroom rfl))]
    refine h.accept hout (fun _ => ?_) (by simp)
    simp only [sendMsg, List.mem_singleton] at hcall
    rw [hcall]
  | none =>
    subst hfixed
    rcases h.parts rfl with ⟨trs, htrs⟩ | ⟨first, last, trs, hlast, hpair, hmid⟩
    · -- the first frame of a message: it is accepted, or the call waits
      cases trs with
      | nil => simp [htrs] at hout
      | cons tr trs =>
        simp only [htrs, List.flatMap_cons, sendMsg, List.cons_append, List.nil_append,
          List.cons.injEq] at hout
        obtain ⟨rfl, rfl⟩ := hout
        unfold zmqSend
        split
        · refine h.accept (by simp [htrs, sendMsg]) (by simp)
            fun _ => .inr ⟨_, _, trs, rfl, rfl, ?_⟩
          simp [Sender.accept, ZmqSend.endpoint]
        · exact h
    · -- the last frame: the socket is in the middle of this message
      obtain ⟨rfl, rfl⟩ := List.cons.inj (hlast.symm.trans hout)
      rw [zmqSend, if_pos (.inl hmid)]
      exact h.accept hlast (by simp) fun _ => .inl ⟨trs, rfl⟩

theorem step (h : InOrder sendFixed s) (hc : Coherent identity s.topic)
    (ha : Act identity sendFixed hwm s t) : InOrder sendFixed t := by
  cases ha with
  | other topic hpc hl =>
    exact ⟨by rw [hl]; exact h.calls, by rw [hpc]; exact h.gets, h.single, h.parts⟩
  | drain pipes => exact ⟨h.calls, h.gets, h.single, h.parts⟩
  | advance hout => exact h.advance hc hout
  | send call rest hout hroom => exact h.send hout hroom

end InOrder

theorem inOrder_reachable {s : Sender T}
    (h : Reachable (roomyNext identity sendFixed hwm) {} s) : InOrder sendFixed s :=
  h.invariant_with (J := fun u => Coherent identity u.topic)
    (fun _ hu => coherent_reachable (reachable_topic hu.of_guarded)) inOrder_initial
    fun _ _ _ hc hu hv => hu.step hc (act_roomyNext hv)

/-- What back-pressure must not change: every call of `zmq_send` made so far was accepted, in
order; so were those of every GET that was processed, and of whatever stands in `sents`. -/
structure Conforms (identity : UInt64) (sendFixed : Option UInt64) (s : Sender T) : Prop where
  calls : s.accepted ++ s.outbox = s.topic.locals.sent.flatMap (sendMsg sendFixed)
  gets : (getOutputs identity s.topic.locals.handled).flatMap (sendMsg sendFixed) <+:
    s.accepted.filter ZmqSend.isGet
  stored : ∀ (sink : Str) (k : UInt64) msg, (s.topic.locals.sentsOf sink)[k]? = some msg →
    ∃ tr : Transmission T, tr.socket.endpoint = sink ∧ tr.msg = msg ∧
      ∀ call ∈ sendMsg sendFixed tr, call ∈ s.accepted

theorem InOrder.conforms {s : Sender T} (h : InOrder sendFixed s)
    (hr : Recalled identity s.topic) : Conforms identity sendFixed s := by
  have hgets : (getOutputs identity s.topic.locals.handled).flatMap (sendMsg sendFixed) <+:
      s.accepted.filter ZmqSend.isGet := by
    have hall : s.accepted.filter ZmqSend.isGet ++ s.outbox.filter ZmqSend.isGet =
        (getOutputs identity s.topic.locals.handled).flatMap (sendMsg sendFixed) ++
          s.topic.pc.unstored.flatMap (sendMsg sendFixed) := by
      rw [← List.filter_append, h.calls, ← List.flatMap_append, ← hr.gets]
      exact filter_flatMap_sendMsg (fun tr => decide (tr.req.branch = .get)) _
    -- what is still to be sent for a GET is the end of what that GET transmits
    obtain ⟨done, hdone⟩ := h.gets
    rw [← hdone, ← List.append_assoc] at hall
    exact ⟨done, (List.append_cancel_right hall).symm⟩
  refine ⟨h.calls, hgets, fun sink k msg hk => ?_⟩
  obtain ⟨e, he, hb, rfl, hmsg, -⟩ := hr.stored sink k msg hk
  have hmem : (⟨e.req, ⟨identity, e.req.sink⟩, msg⟩ : Transmission T) ∈
      getOutputs identity s.topic.locals.handled :=
    List.mem_filterMap.mpr ⟨e, he, by simp [hb, hmsg]⟩
  exact ⟨_, rfl, rfl, fun call hcall => List.mem_of_mem_filter
    (hgets.subset (List.mem_flatMap.mpr ⟨_, hmem, hcall⟩))⟩

theorem conforms_reachable {s : Sender T}
    (h : Reachable (roomyNext identity sendFixed hwm) {} s) : Conforms identity sendFixed s :=
  (inOrder_reachable h).conforms (recalled_reachable (reachable_topic h.of_guarded))

/-! ## The payloads of the two modes -/

def Sender.payloads (s : Sender T) : List (Str × Frame) :=
  (s.accepted.filter fun call => !call.sndMore).map fun call => (call.endpoint, call.frame)

theorem payloads_flatMap_sendMsg {fixedSize : UInt64}
    (hmode : sendFixed = none ∨ sendFixed = some fixedSize) (trs : List (Transmission T))
    (hsize : ∀ tr ∈ trs, size tr.msg = fixedSize) :
    ((trs.flatMap (sendMsg sendFixed)).filter fun call => !call.sndMore).map
        (fun call => (call.endpoint, call.frame)) =
      trs.map fun tr => (tr.socket.endpoint, payload tr.msg) := by
  induction trs with
  | nil => rfl
  | cons tr trs ih =>
    have hrest := ih fun tr' htr => hsize tr' (List.mem_cons_of_mem _ htr)
    have htr := hsize tr List.mem_cons_self
    rw [List.flatMap_cons, List.filter_append, List.map_append, hrest]
    rcases hmode with rfl | rfl
    · simp [sendMsg, payload, ZmqSend.endpoint]
    · simp [sendMsg, payload, ZmqSend.endpoint, htr]

theorem sent_prefix_of_reachable {s t : Topic T} (h : Reachable (next identity) {} s)
    (hst : Reachable (next identity) s t) : s.locals.sent <+: t.locals.sent :=
  hst.invariant_with (J := Coherent identity) (I := fun u => s.locals.sent <+: u.locals.sent)
    (fun _ hu => coherent_reachable (h.trans hu)) (List.prefix_refl _)
    fun _ _ _ hc hu hv => hu.trans (sent_prefix_next hc hv)

theorem sent_prefix_settle {s : Topic T} (h : Reachable (next identity) {} s)
    (hrun : s.running = true) :
    s.locals.sent <+: (settle identity {} s.arrived s.produced).locals.sent := by
  obtain ⟨t, hst, ht⟩ := exists_final h hrun (List.prefix_refl _) (List.prefix_refl _)
  have hsettle := settle_reachable ht.reachable ht.running [] []
  rw [List.append_nil, List.append_nil, pending_idle (coherent_reachable ht.reachable) ht.idle,
    ht.arrived, ht.produced] at hsettle
  rw [hsettle]
  exact sent_prefix_of_reachable h hst

theorem sent_idle {s : Topic T} (h : Reachable (next identity) {} s) (hrun : s.running = true)
    (hidle : Idle s) : s.locals.sent = (settle identity {} s.arrived s.produced).locals.sent := by
  have hsettle := settle_reachable h hrun [] []
  rw [List.append_nil, List.append_nil, pending_idle (coherent_reachable h) hidle] at hsettle
  rw [hsettle]
  rfl

structure AtRest (s : Sender T) : Prop where
  idle : Idle s.topic
  sent : s.outbox = []

/-- In both modes the accepted payloads are the front of what the inputs settle to, and all of it
once the thread is at rest. -/
theorem payloads_prefix {s : Sender T} {fixedSize : UInt64}
    (hmode : sendFixed = none ∨ sendFixed = some fixedSize)
    (h : Reachable (roomyNext identity sendFixed hwm) {} s) (hrun : s.topic.running = true)
    (hsize : ∀ msg ∈ s.topic.produced, size msg = fixedSize) :
    let expected := (settle identity {} s.topic.arrived s.topic.produced).locals.sent.map
      fun tr => (tr.socket.endpoint, payload tr.msg)
    s.payloads <+: expected ∧ (AtRest s → s.payloads = expected) := by
  have htopic := reachable_topic h.of_guarded
  have hcalls := (inOrder_reachable h).calls
  have hlog := payloads_flatMap_sendMsg hmode s.topic.locals.sent
    fun tr htr => hsize tr.msg ((traced_reachable htopic).genuine.sent tr htr)
  have hfront : s.payloads <+: s.topic.locals.sent.map
      fun tr => (tr.socket.endpoint, payload tr.msg) := by
    rw [← hlog, ← hcalls]
    exact ((List.prefix_append _ _).filter _).map _
  refine ⟨hfront.trans ((sent_prefix_settle htopic hrun).map _), fun hrest => ?_⟩
  rw [← sent_idle htopic hrun hrest.idle, ← hlog, ← hcalls, hrest.sent, List.append_nil]
  rfl

theorem recover_accepted {s t : Sender T} {req : RequestMessage}
    (h : Reachable (roomyNext identity sendFixed hwm) {} s) (hout : s.outbox = [])
    (hpc : s.topic.pc = .dispatch req) (hb : req.branch = .recover)
    (hst : Reachable (roomyNext identity sendFixed hwm) (s.advance identity sendFixed) t)
    (hrest : t.outbox = []) :
    s.accepted ++ ((values (s.topic.locals.sentsOf req.sink)).map fun msg =>
      ⟨req, ⟨identity, req.sink⟩, msg⟩).flatMap (sendMsg sendFixed) <+: t.accepted := by
  have hstep : roomyNext identity sendFixed hwm s (.source .task) =
      some (s.advance identity sendFixed) := by
    refine guarded_eq_some.mpr ⟨?_, by simp [senderNext, hout]⟩
    cases sendFixed <;> simp [roomy, hout]
  have hadvance := h.tail hstep
  have hc := coherent_reachable (reachable_topic h.of_guarded)
  have hsent : (s.advance identity sendFixed).topic.locals.sent = s.topic.locals.sent ++
      (values (s.topic.locals.sentsOf req.sink)).map fun msg =>
        ⟨req, ⟨identity, req.sink⟩, msg⟩ := by
    simp [Sender.advance, taskThread, hpc, hb, hc.recoverMsg_eq, hc.recovered_eq]
  have hs := (inOrder_reachable h).calls
  have ht := (inOrder_reachable (hadvance.trans hst)).calls
  rw [hout, List.append_nil] at hs
  rw [hrest, List.append_nil] at ht
  obtain ⟨more, hmore⟩ := sent_prefix_of_reachable (reachable_topic hadvance.of_guarded)
    (reachable_topic hst.of_guarded)
  rw [hs, ht, ← List.flatMap_append, ← hsent, ← hmore, List.flatMap_append]
  exact List.prefix_append _ _

theorem exists_dropped {s : Sender T} {fixedSize : UInt64}
    (h : Reachable (roomyNext identity (some fixedSize) hwm) {} s)
    (hfull : roomy (some fixedSize) hwm s (.source .task) = false) :
    ∃ t, senderNext identity (some fixedSize) hwm s (.source .task) = some t ∧
      ¬ Conforms identity (some fixedSize) t := by
  have hin := inOrder_reachable h
  cases hout : s.outbox with
  | nil => simp [roomy, hout] at hfull
  | cons call rest =>
    have hroom : ¬ Room hwm s call.endpoint := by simpa [roomy, hout] using hfull
    refine ⟨zmqSend hwm s call rest, by simp [senderNext, hout], fun hconf => ?_⟩
    obtain ⟨tr, hcall⟩ := hin.exists_tr hout
    simp only [sendMsg, List.mem_singleton] at hcall
    have hdropped := hconf.calls
    rw [zmqSend_full (hin.single rfl _) hroom (by rw [hcall]), ← hin.calls, hout] at hdropped
    -- the log asks for one call more than the two lists hold
    have hlength := congrArg List.length hdropped
    simp at hlength

/-- While fixed-size sends find room, and in every run with variable sizes: whatever was sent,
stored or recovered was accepted, and both modes send the same payloads. A fixed-size send that
finds no room leaves a call that was not accepted. -/
theorem modes_agree_while_roomy (identity : UInt64) (hwm : ℕ) :
    (∀ sendFixed (s : Sender T), Reachable (roomyNext identity sendFixed hwm) {} s →
      Conforms identity sendFixed s) ∧
    (∀ sendFixed (s t : Sender T) (req : RequestMessage),
      Reachable (roomyNext identity sendFixed hwm) {} s → s.outbox = [] →
      s.topic.pc = .dispatch req → req.branch = .recover →
      Reachable (roomyNext identity sendFixed hwm) (s.advance identity sendFixed) t →
      t.outbox = [] →
        s.accepted ++ ((values (s.topic.locals.sentsOf req.sink)).map fun msg =>
          ⟨req, ⟨identity, req.sink⟩, msg⟩).flatMap (sendMsg sendFixed) <+: t.accepted) ∧
    (∀ (fixedSize : UInt64) (s t : Sender T),
      Reachable (roomyNext identity (some fixedSize) hwm) {} s →
      Reachable (senderNext identity none hwm) {} t →
      s.topic.running = true → t.topic.running = true →
      s.topic.arrived = t.topic.arrived → s.topic.produced = t.topic.produced →
      (∀ msg ∈ s.topic.produced, size msg = fixedSize) →
        (s.payloads <+: t.payloads ∨ t.payloads <+: s.payloads) ∧
          (AtRest s → AtRest t → s.payloads = t.payloads)) ∧
    (∀ (fixedSize : UInt64) (s : Sender T),
      Reachable (roomyNext identity (some fixedSize) hwm) {} s →
      roomy (some fixedSize) hwm s (.source .task) = false →
        ∃ t, senderNext identity (some fixedSize) hwm s (.source .task) = some t ∧
          ¬ Conforms identity (some fixedSize) t) := by
  refine ⟨fun _ _ h => conforms_reachable h,
    fun _ _ _ _ h hout hpc hb hst hrest => recover_accepted h hout hpc hb hst hrest, ?_, ?_⟩
  · intro fixedSize s t hs ht hsrun htrun harrived hproduced hsize
    rw [← roomyNext_none] at ht
    obtain ⟨hsfront, hsall⟩ := payloads_prefix (.inr rfl) hs hsrun hsize
    obtain ⟨htfront, htall⟩ := payloads_prefix (.inl rfl) ht htrun (hproduced ▸ hsize)
    rw [harrived, hproduced] at hsfront hsall
    exact ⟨List.prefix_or_prefix_of_prefix hsfront htfront,
      fun hsrest htrest => (hsall hsrest).trans (htall htrest).symm⟩
  · exact fun fixedSize s h hfull => exists_dropped h hfull

private def drainedSchedule (frames : ℕ) : List (Label ByteMessage) :=
  [.source (.send (.ofBytes [1])), .source (.recvRequest (getRequest [83])),
    .source (.recvRequest (recoverRequest [83]))] ++
    List.replicate (6 + frames) (.source .task) ++ [.drain [83]] ++
    List.replicate (3 + frames) (.source .task)

private def ended (s : Sender ByteMessage) : Bool :=
  s.topic.running && decide (s.topic.arrived = [getRequest [83], recoverRequest [83]]) &&
    decide (s.topic.produced = [.ofBytes [1]]) && decide (s.topic.pc = .loop) &&
    decide (s.topic.requests = []) && decide (s.outbox = []) &&
    decide (s.payloads = [([83], [1]), ([83], [1])])

theorem modes_agree_while_roomy_example :
    ∃ s t : Sender ByteMessage,
      run (roomyNext 7 (some 1) 1) {} (drainedSchedule 1) = some s ∧
      run (senderNext 7 none 1) {} (drainedSchedule 2) = some t ∧
      s.payloads = [([83], [1]), ([83], [1])] ∧ s.payloads = t.payloads ∧
      Conforms 7 (some 1) s := by
  have hfixed : (run (roomyNext 7 (some 1) 1) {} (drainedSchedule 1)).map ended = some true := by
    decide +kernel
  have hvariable : (run (senderNext 7 none 1) {} (drainedSchedule 2)).map ended = some true := by
    decide +kernel
  obtain ⟨s, hs, hsend⟩ := Option.map_eq_some_iff.mp hfixed
  obtain ⟨t, ht, htend⟩ := Option.map_eq_some_iff.mp hvariable
  simp only [ended, Bool.and_eq_true, decide_eq_true_eq] at hsend htend
  obtain ⟨⟨⟨⟨⟨⟨hsrun, hsreq⟩, hsmsg⟩, hspc⟩, hsq⟩, hsout⟩, hspay⟩ := hsend
  obtain ⟨⟨⟨⟨⟨⟨htrun, htreq⟩, htmsg⟩, htpc⟩, htq⟩, htout⟩, -⟩ := htend
  obtain ⟨hconforms, -, hagree, -⟩ := modes_agree_while_roomy (T := ByteMessage) 7 1
  obtain ⟨-, hequal⟩ := hagree 1 s t ⟨_, hs⟩ ⟨_, ht⟩ hsrun htrun (hsreq.trans htreq.symm)
    (hsmsg.trans htmsg.symm) (by rw [hsmsg]; decide)
  exact ⟨s, t, hs, ht, hspay, hequal ⟨by simpa [Idle, hspc] using hsq, hsout⟩
    ⟨by simpa [Idle, htpc] using htq, htout⟩, hconforms _ s ⟨_, hs⟩⟩

/-- Two GETs while the receiver takes nothing from a pipe for one message: in the fixed-size mode
the second message is dropped, and stored as sent. -/
theorem fixed_size_send_drops_at_full_pipe :
    ¬ ∀ s : Sender ByteMessage, Reachable (senderNext 7 (some 1) 1) {} s →
      Conforms 7 (some 1) s := by
  intro h
  have hdropped : (run (senderNext 7 (some 1) 1) {}
      ([.source (.send (.ofBytes [1])), .source (.send (.ofBytes [2])),
        .source (.recvRequest (getRequest [83])), .source (.recvRequest (getRequest [83]))] ++
        List.replicate 14 (.source .task) : List (Label ByteMessage))).map
      (fun s => ((s.topic.locals.sentsOf [83])[(2 : UInt64)]?, s.accepted.map (·.tr.msg))) =
        some (some (.ofBytes [2]), [.ofBytes [1]]) := by decide +kernel
  obtain ⟨s, hs, hend⟩ := Option.map_eq_some_iff.mp hdropped
  obtain ⟨hstored, haccepted⟩ := Prod.mk.inj hend
  obtain ⟨tr, -, hmsg, hcalls⟩ := (h s ⟨_, hs⟩).stored [83] 2 _ hstored
  have hmem : tr.msg ∈ s.accepted.map (·.tr.msg) :=
    List.mem_map.mpr ⟨_, hcalls _ (List.mem_singleton_self _), rfl⟩
  rw [haccepted, hmsg] at hmem
  exact absurd hmem (by decide)

end MessagePass.BackPressure
