import MessagePass.RequestBookkeeping

/-!
# Who owns a message

A message is owned by the ready queue, by the task thread's hand, by one entry of `sents`, or it
has been destroyed. The ledger says that these four places together hold exactly the messages
passed to `send`. Two steps of the code break it: storing a message under a key that is in use,
which forgets the message stored before, and leaving the GET wait without a message.
-/
namespace MessagePass.SourceTasks
open Std RequestMessages DataMessages OrderedMaps LabelledRuns

variable {T : Type}

/-- One topic of a source with its destructor, which runs after `stop()` has joined the thread. -/
structure Source (T : Type) where
  topic : Topic T := {}
  destructed : Bool := false

inductive SourceLabel (T : Type) where
  | topic (a : Label T)
  | destructor
  deriving DecidableEq

/-- `~MessageSource`: the ready queue is drained and its messages are deleted. -/
def Topic.destruct (s : Topic T) : Topic T :=
  { s with
    ready := []
    locals := { s.locals with
      destroyed := s.locals.destroyed ++ s.ready.map fun msg => (msg, .destructor) } }

/-- A GET is in its wait loop and the ready queue is empty. -/
def Topic.waitingOnEmpty (s : Topic T) : Bool :=
  match s.pc with
  | .getWait _ _ | .getExpired _ _ => s.ready.isEmpty
  | _ => false

section Machine
variable [IDataMessage T] [DecidableEq T]

/-- Each message object is passed to `send` once, `stop()` is not issued while a GET waits on an
empty ready queue, and the destructor comes last. A value of `T` stands for an object, so objects
with equal contents are different values of a type that tells them apart. -/
def sourceNext (identity : UInt64) (s : Source T) : SourceLabel T → Option (Source T)
  | .destructor =>
      if s.topic.pc = .finished ∧ s.destructed = false then
        some { topic := s.topic.destruct, destructed := true }
      else none
  | .topic (.send msg) =>
      if msg ∈ s.topic.produced ∨ s.destructed = true then none
      else (next identity s.topic (.send msg)).map fun t => { s with topic := t }
  | .topic .stop =>
      if s.topic.waitingOnEmpty ∨ s.destructed = true then none
      else (next identity s.topic .stop).map fun t => { s with topic := t }
  | .topic a =>
      if s.destructed = true then none
      else (next identity s.topic a).map fun t => { s with topic := t }

/-- The condition on a step: no GET stores under a key in use, and none gives up its wait. -/
def orderly (s : Source T) : SourceLabel T → Bool
  | .topic .task => match s.topic.pc with
    | .getStore req _ msg => (s.topic.locals.sentsOf req.sink)[key msg]?.isNone
    | .getExpired _ _ => s.topic.running
    | _ => true
  | _ => true

end Machine

def TaskLocals.kept (l : TaskLocals T) : List T := nestedValues l.sents ++ l.destroyed.map Prod.fst

def Topic.places (s : Topic T) : List T := s.ready ++ (s.pc.inHand ++ s.locals.kept)

namespace TaskLocals
variable (l : TaskLocals T) (req : RequestMessage)

@[simp] theorem kept_finish (m : Option T) : (l.finish req m).kept = l.kept := rfl

theorem kept_openSocket (identity : UInt64) (sink : Str)
    (h : l.sockets[sink]? = none → l.sentsOf sink = ∅) :
    (l.openSocket identity sink).2.kept.Perm l.kept := by
  cases hs : l.sockets[sink]? with
  | some socket => rw [l.openSocket_found socket sink hs]
  | none =>
    rw [l.openSocket_fresh sink hs]
    refine (nestedValues_insert_same l.sents ?_).append_right _
    have hempty : l.sents.getD sink ∅ = ∅ := h hs
    rw [hempty]

theorem kept_deleteMsg : (l.deleteMsg req).kept.Perm l.kept := by
  unfold deleteMsg
  split <;> rename_i hm
  · exact (nestedValues_insert_same l.sents (List.Perm.refl _)).append_right _
  · rename_i msg
    have hin : (nestedValues l.sents).Perm (msg :: nestedValues
        (l.sents.insert req.sink ((l.sentsOf req.sink).erase req.key))) := by
      apply (nestedValues_split l.sents req.sink).trans
      apply ((values_erase hm).append_right _).trans
      exact ((nestedValues_insert _ _ _).symm).cons msg
    simp only [kept, List.map_append, List.map_cons, List.map_nil]
    refine List.Perm.trans ?_ (hin.symm.append_right _)
    rw [← List.append_assoc]
    exact List.perm_append_comm

theorem kept_teardown : l.teardown.kept.Perm l.kept := by
  simp only [kept, teardown, nestedValues_empty, List.nil_append, List.map_append, List.map_map]
  simpa [Function.comp_def] using List.perm_append_comm

theorem kept_storeMsg [IDataMessage T] (msg : T) (h : (l.sentsOf req.sink)[key msg]? = none) :
    (l.storeMsg req msg).kept.Perm (msg :: l.kept) :=
  (nestedValues_insert_cons (values_insert_fresh msg h)).append_right _

end TaskLocals

section Accounting
variable [IDataMessage T] {identity : UInt64} {s t : Topic T}

/-- No step of an orderly thread creates, loses or duplicates a message. -/
theorem Move.places (hm : Move identity s t) (hc : Coherent identity s)
    (hfresh : ∀ req socket msg, s.pc = .getStore req socket msg →
      (s.locals.sentsOf req.sink)[key msg]? = none) : t.places.Perm s.places := by
  cases hm with
  | enter hpc hrun => simp [Topic.places, hpc, Pc.inHand]
  | leave hpc hrun =>
    simpa [Topic.places, hpc, Pc.inHand] using s.locals.kept_teardown.append_left s.ready
  | idle hpc hq => simp [Topic.places, hpc, Pc.inHand]
  | take req rest hpc hq => simp [Topic.places, hpc, Pc.inHand]
  | getFound req socket hpc hb hs => simp [Topic.places, hpc, Pc.inHand]
  | getFresh req hpc hb hs =>
    simpa [Topic.places, hpc, Pc.inHand] using
      (s.locals.kept_openSocket identity req.sink (hc.unopened req.sink)).append_left s.ready
  | del req hpc hb =>
    simpa [Topic.places, hpc, Pc.inHand] using (s.locals.kept_deleteMsg req).append_left s.ready
  | recover req l hpc hb hl =>
    rw [hc.recoverMsg_eq req] at hl
    cases hl
    simp [Topic.places, hpc, Pc.inHand, TaskLocals.kept]
  | recoverEnd req hpc hb hl => simp [hc.recoverMsg_eq req] at hl
  | ignore req hpc hb => simp [Topic.places, hpc, Pc.inHand, TaskLocals.kept]
  | expire req socket hpc hq => simp [Topic.places, hpc, Pc.inHand]
  | pop req socket msg rest hpc hq =>
    simp [Topic.places, hpc, hq, Pc.inHand]
  | again req socket hpc hrun => simp [Topic.places, hpc, Pc.inHand]
  | giveUp req socket hpc hrun => simp [Topic.places, hpc, Pc.inHand]
  | sendUnset req socket hpc => simp [Topic.places, hpc, Pc.inHand]
  | send req socket msg hpc => simp [Topic.places, hpc, Pc.inHand, TaskLocals.kept]
  | store req socket msg hpc =>
    have hkept := s.locals.kept_storeMsg req msg (hfresh req socket msg hpc)
    simpa [Topic.places, hpc, Pc.inHand, TaskLocals.kept] using hkept.append_left s.ready
  | halted hpc => rfl

def SentTo (l : TaskLocals T) (msg : T) (sink : Str) : Prop :=
  ∃ tr ∈ l.sent, tr.msg = msg ∧ tr.socket.endpoint = sink

omit [IDataMessage T] in
theorem SentTo.mono {l l' : TaskLocals T} (hl : l.sent <+: l'.sent) {msg : T} {sink : Str}
    (h : SentTo l msg sink) : SentTo l' msg sink := by
  obtain ⟨tr, hmem, hmsg, hsink⟩ := h
  exact ⟨tr, hl.subset hmem, hmsg, hsink⟩

/-- Nothing is made up: requests the thread works on were received, messages it holds or transmits
were passed to `send`. -/
structure Genuine (s : Topic T) : Prop where
  requests : ∀ req ∈ s.pc.inFlight ++ s.requests, req ∈ s.arrived
  messages : ∀ msg ∈ s.pc.inHand ++ s.ready, msg ∈ s.produced
  sent : ∀ tr ∈ s.locals.sent, tr.msg ∈ s.produced

namespace Genuine

omit [IDataMessage T] in
theorem of_fewer (h : Genuine s) (ha : t.arrived = s.arrived) (hp : t.produced = s.produced)
    (hr : ∀ req ∈ t.pc.inFlight ++ t.requests, req ∈ s.pc.inFlight ++ s.requests)
    (hm : ∀ msg ∈ t.pc.inHand ++ t.ready, msg ∈ s.pc.inHand ++ s.ready)
    (hs : ∀ tr ∈ t.locals.sent, tr ∈ s.locals.sent ∨ tr.msg ∈ s.produced) : Genuine t where
  requests req hreq := ha ▸ h.requests req (hr req hreq)
  messages msg hmsg := hp ▸ h.messages msg (hm msg hmsg)
  sent tr htr := hp ▸ (hs tr htr).elim (h.sent tr) id

theorem move (h : Genuine s) (hc : Coherent identity s)
    (hstored : ∀ sink (k : UInt64) msg, (s.locals.sentsOf sink)[k]? = some msg →
      SentTo s.locals msg sink) (hm : Move identity s t) : Genuine t := by
  have hmessages := h.messages
  cases hm with
  | pop req socket msg rest hpc hq =>
    exact h.of_fewer rfl rfl (by simp [hpc, Pc.inFlight]) (by simp [hq, hpc, Pc.inHand])
      (fun _ => .inl)
  | take req rest hpc hq =>
    exact h.of_fewer rfl rfl (by simp [hpc, hq, Pc.inFlight]) (by simp [hpc, Pc.inHand])
      (fun _ => .inl)
  | recover req l hpc hb hl =>
    rw [hc.recoverMsg_eq req] at hl
    cases hl
    refine h.of_fewer rfl rfl (by simp [Pc.inFlight]; tauto) (by simp [hpc, Pc.inHand]) ?_
    intro tr htr
    rcases List.mem_append.mp htr with htr | htr
    · exact .inl htr
    · refine .inr ?_
      unfold Coherent.recovered at htr
      split at htr
      · cases htr
      · obtain ⟨m, hm, rfl⟩ := List.mem_map.mp htr
        obtain ⟨k, hk⟩ := mem_values.mp hm
        obtain ⟨tr', hmem, heq, -⟩ := hstored _ k m hk
        exact heq ▸ h.sent tr' hmem
  | recoverEnd req hpc hb hl => simp [hc.recoverMsg_eq req] at hl
  | send req socket msg hpc =>
    refine h.of_fewer rfl rfl (by simp [hpc, Pc.inFlight]) (by simp [hpc, Pc.inHand]) ?_
    intro tr htr
    apply (List.mem_append.mp htr).imp_right
    intro htr
    cases List.mem_singleton.mp htr
    exact hmessages msg (by simp [hpc, Pc.inHand])
  | halted hpc => exact h
  | _ =>
    refine h.of_fewer rfl rfl ?_ ?_ (by simp +contextual) <;>
      simp +contextual [*, Pc.inFlight, Pc.inHand]

end Genuine

/-- Why a message was destroyed, and that the reason applies to it. -/
def Justified (s : Source T) (msg : T) : Cause → Prop
  | .del req => req ∈ s.topic.arrived ∧ req.branch = .del ∧ key msg = req.key ∧
      SentTo s.topic.locals msg req.sink
  | .teardown => s.topic.pc = .finished
  | .destructor => s.destructed = true

/-- Stored messages were transmitted to the sink they are stored for, the GET that is about to
store has transmitted its message, and every destruction has its reason. -/
structure Traced (s : Source T) : Prop where
  genuine : Genuine s.topic
  stored : ∀ sink (k : UInt64) msg, (s.topic.locals.sentsOf sink)[k]? = some msg →
    SentTo s.topic.locals msg sink
  storing : ∀ req socket msg, s.topic.pc = .getStore req socket msg →
    SentTo s.topic.locals msg req.sink
  causes : ∀ msg cause, (msg, cause) ∈ s.topic.locals.destroyed → Justified s msg cause

theorem Justified.move {src : Source T} (hc : Coherent identity src.topic)
    (hm : Move identity src.topic t) {msg : T} {cause : Cause} (h : Justified src msg cause) :
    Justified { src with topic := t } msg cause := by
  cases cause with
  | del req =>
    obtain ⟨hreq, hb, hk, hsent⟩ := h
    exact ⟨hm.inputs.1 ▸ hreq, hb, hk, hsent.mono (hm.sent_prefix hc)⟩
  | teardown =>
    have hpc : src.topic.pc = .finished := h
    cases hm <;> simp_all [Justified]
  | destructor => exact h

theorem Traced.move {src : Source T} (h : Traced src) (hc : Coherent identity src.topic)
    (hm : Move identity src.topic t) : Traced { src with topic := t } := by
  have hmono : ∀ {msg sink}, SentTo src.topic.locals msg sink → SentTo t.locals msg sink :=
    SentTo.mono (hm.sent_prefix hc)
  have hcauses : ∀ msg cause, (msg, cause) ∈ src.topic.locals.destroyed →
      Justified { src with topic := t } msg cause :=
    fun msg cause hmem => (h.causes msg cause hmem).move hc hm
  have hgenuine : Genuine t := h.genuine.move hc h.stored hm
  cases hm with
  | leave hpc hrun =>
    refine ⟨hgenuine, by simp [TaskLocals.teardown, TaskLocals.sentsOf], by simp, ?_⟩
    intro msg cause hmem
    rcases List.mem_append.mp hmem with hmem | hmem
    · exact hcauses msg cause hmem
    · obtain ⟨m, -, heq⟩ := List.mem_map.mp hmem
      cases heq
      rfl
  | getFresh req hpc hb hs =>
    refine ⟨hgenuine, ?_, by simp, by simpa using hcauses⟩
    intro sink k msg hk
    rw [hc.sentsOf_openSocket] at hk
    exact hmono (h.stored sink k msg hk)
  | del req hpc hb =>
    refine ⟨hgenuine, ?_, by simp, ?_⟩
    · intro sink k msg hk
      simp only [TaskLocals.sentsOf_finish, TaskLocals.sentsOf_deleteMsg] at hk
      split at hk
      · rw [ExtTreeMap.getElem?_erase] at hk
        split at hk
        · cases hk
        · exact hmono (h.stored sink k msg hk)
      · exact hmono (h.stored sink k msg hk)
    · intro msg cause hmem
      simp only [TaskLocals.destroyed_finish, TaskLocals.destroyed_deleteMsg, List.mem_append,
        Option.mem_toList, Option.map_eq_some_iff, Prod.mk.injEq] at hmem
      rcases hmem with hmem | ⟨m, hm, rfl, rfl⟩
      · exact hcauses msg cause hmem
      · exact ⟨h.genuine.requests req (by simp [hpc, Pc.inFlight]), hb, hc.keyed _ _ _ hm,
          hmono (h.stored _ _ _ hm)⟩
  | recover req l hpc hb hl =>
    rw [hc.recoverMsg_eq req] at hl
    cases hl
    exact ⟨hgenuine, fun sink k msg hk => hmono (h.stored sink k msg hk), by simp, hcauses⟩
  | send req socket msg hpc =>
    refine ⟨hgenuine, fun sink k m hk => hmono (h.stored sink k m hk), ?_, hcauses⟩
    intro r sk m heq
    cases heq
    have hs := (hc.serving req socket (by simp [hpc, Pc.serving])).2
    exact ⟨⟨req, socket, msg⟩, by simp, rfl, by simp [hc.socket _ _ hs]⟩
  | store req socket msg hpc =>
    refine ⟨hgenuine, ?_, by simp, hcauses⟩
    intro sink k m hk
    simp only [TaskLocals.sentsOf_finish, TaskLocals.sentsOf_storeMsg] at hk
    split at hk <;> rename_i hsink
    · rw [ExtTreeMap.getElem?_insert] at hk
      split at hk
      · cases hk
        exact hsink ▸ hmono (h.storing req socket msg hpc)
      · exact hmono (h.stored sink k m hk)
    · exact hmono (h.stored sink k m hk)
  | halted hpc => exact h
  | _ => exact ⟨hgenuine, fun sink k msg hk => hmono (h.stored sink k msg hk), by simp, hcauses⟩

theorem Traced.step {src : Source T} (h : Traced src) (hc : Coherent identity src.topic)
    {a : Label T} (hs : next identity src.topic a = some t) : Traced { src with topic := t } := by
  obtain ⟨⟨hreq, hmsg, hsent⟩, hstored, hstoring, hcauses⟩ := h
  cases a with
  | send msg =>
    cases hs
    refine ⟨⟨hreq, ?_, fun tr htr => List.mem_append_left _ (hsent tr htr)⟩, hstored, hstoring,
      hcauses⟩
    intro m hm
    rw [← List.append_assoc] at hm
    exact (List.mem_append.mp hm).elim (fun hm => List.mem_append_left _ (hmsg m hm))
      (fun hm => List.mem_append_right _ hm)
  | recvRequest req =>
    cases hs
    refine ⟨⟨?_, hmsg, hsent⟩, hstored, hstoring, ?_⟩
    · intro r hr
      rw [← List.append_assoc] at hr
      exact (List.mem_append.mp hr).elim (fun hr => List.mem_append_left _ (hreq r hr))
        (fun hr => List.mem_append_right _ hr)
    · intro msg cause hmem
      have hold := hcauses msg cause hmem
      cases cause with
      | del r => exact ⟨List.mem_append_left _ hold.1, hold.2⟩
      | teardown => exact hold
      | destructor => exact hold
  | task => cases hs; exact Traced.move ⟨⟨hreq, hmsg, hsent⟩, hstored, hstoring, hcauses⟩ hc
              (move_taskThread identity src.topic)
  | stop =>
    cases hs
    refine ⟨⟨hreq, hmsg, hsent⟩, hstored, hstoring, fun msg cause hmem => ?_⟩
    have hold := hcauses msg cause hmem
    cases cause <;> exact hold

theorem traced_initial : Traced ({} : Source T) where
  genuine := ⟨by simp [Pc.inFlight], by simp [Pc.inHand], by simp⟩
  stored := by simp [TaskLocals.sentsOf]
  storing := by simp
  causes := by simp

theorem traced_reachable (h : Reachable (next identity) {} s) : Traced { topic := s } :=
  h.invariant_with (I := fun u => Traced { topic := u }) (fun _ hu => coherent_reachable hu)
    traced_initial fun _ _ _ hc hu hv => hu.step hc hv

/-- The message is in the entry of this sink under its own key, or the GET of this sink that has
transmitted it is about to store it there. -/
def Recoverable (s : Topic T) (msg : T) (sink : Str) : Prop :=
  (s.locals.sentsOf sink)[key msg]? = some msg ∨
    ∃ req socket, s.pc = .getStore req socket msg ∧ req.sink = sink

/-- Whatever was transmitted to a sink can be recovered by it until it is destroyed. -/
def AllRecoverable (s : Topic T) : Prop :=
  ∀ msg sink, SentTo s.locals msg sink →
    msg ∈ s.locals.destroyed.map Prod.fst ∨ Recoverable s msg sink

namespace AllRecoverable

theorem of_same_maps (h : AllRecoverable s) (hs : t.locals.sent = s.locals.sent)
    (hm : ∀ sink, t.locals.sentsOf sink = s.locals.sentsOf sink)
    (hd : t.locals.destroyed = s.locals.destroyed)
    (hpc : ∀ req socket msg, s.pc ≠ .getStore req socket msg) : AllRecoverable t := by
  intro msg sink hsent
  rw [hd, Recoverable, hm]
  apply (h msg sink (hsent.mono (by rw [hs]))).imp_right
  intro hrec
  rcases hrec with hin | ⟨req, socket, hstore, -⟩
  · exact .inl hin
  · exact absurd hstore (hpc req socket msg)

theorem delete (h : AllRecoverable s) {req : RequestMessage} (hpc : s.pc = .dispatch req) :
    AllRecoverable { s with
      pc := .loop, locals := (s.locals.deleteMsg req).finish req none } := by
  intro msg sink hsent
  simp only [Recoverable, TaskLocals.destroyed_finish, TaskLocals.destroyed_deleteMsg,
    TaskLocals.sentsOf_finish, TaskLocals.sentsOf_deleteMsg, List.map_append, List.mem_append]
  rcases h msg sink (hsent.mono (by simp)) with hdead | hin | ⟨r, sk, hstore, -⟩
  · exact .inl (.inl hdead)
  · by_cases hs : req.sink = sink
    · subst hs
      by_cases hk : req.key = key msg
      · exact .inl (.inr (by simp [hk, hin]))
      · exact .inr (.inl (by simp [ExtTreeMap.getElem?_erase, hk, hin]))
    · exact .inr (.inl (by simp [hs, hin]))
  · simp [hpc] at hstore

theorem store (h : AllRecoverable s) {req : RequestMessage} {socket : Socket} {msg : T}
    (hpc : s.pc = .getStore req socket msg)
    (hfresh : (s.locals.sentsOf req.sink)[key msg]? = none) :
    AllRecoverable { s with
      pc := .loop, locals := (s.locals.storeMsg req msg).finish req (some msg) } := by
  intro m sink hsent
  refine (h m sink (hsent.mono (by simp))).imp_right fun hrec => .inl ?_
  simp only [TaskLocals.sentsOf_finish, TaskLocals.sentsOf_storeMsg]
  rcases hrec with hin | ⟨r, sk, hstore, rfl⟩
  · by_cases hs : req.sink = sink
    · subst hs
      have hne : key msg ≠ key m := by
        intro heq
        simp [← heq, hfresh] at hin
      simp [ExtTreeMap.getElem?_insert, hne, hin]
    · simp [hs, hin]
  · rw [hpc] at hstore
    cases hstore
    simp

theorem move (h : AllRecoverable s) (hc : Coherent identity s) (hm : Move identity s t)
    (hfresh : ∀ req socket msg, s.pc = .getStore req socket msg →
      (s.locals.sentsOf req.sink)[key msg]? = none) : AllRecoverable t := by
  cases hm with
  | enter hpc hrun => exact h.of_same_maps rfl (fun _ => rfl) rfl (by simp [hpc])
  | leave hpc hrun =>
    intro msg sink hsent
    refine .inl ?_
    simp only [TaskLocals.teardown, List.map_append, List.mem_append]
    apply (h msg sink hsent).imp_right
    intro hrec
    rcases hrec with hin | ⟨req, socket, hstore, -⟩
    · simpa using mem_nestedValues.mpr ⟨sink, key msg, hin⟩
    · simp [hpc] at hstore
  | idle hpc hq => exact h.of_same_maps rfl (fun _ => rfl) rfl (by simp [hpc])
  | take req rest hpc hq => exact h.of_same_maps rfl (fun _ => rfl) rfl (by simp [hpc])
  | getFound req socket hpc hb hs => exact h.of_same_maps rfl (fun _ => rfl) rfl (by simp [hpc])
  | getFresh req hpc hb hs =>
    exact h.of_same_maps (by simp) (hc.sentsOf_openSocket req.sink) (by simp) (by simp [hpc])
  | del req hpc hb => exact h.delete hpc
  | recover req l hpc hb hl =>
    rw [hc.recoverMsg_eq req] at hl
    cases hl
    rintro msg sink ⟨tr, htr, rfl, rfl⟩
    rcases List.mem_append.mp htr with htr | htr
    · apply (h tr.msg tr.socket.endpoint ⟨tr, htr, rfl, rfl⟩).imp_right
      intro hrec
      rcases hrec with hin | ⟨r, sk, hstore, -⟩
      · exact .inl hin
      · simp [hpc] at hstore
    · -- what recovery transmits is in the entry of the sink it transmits to
      unfold Coherent.recovered at htr
      split at htr <;> rename_i hs
      · cases htr
      · obtain ⟨m, hm, rfl⟩ := List.mem_map.mp htr
        obtain ⟨k, hk⟩ := mem_values.mp hm
        cases hc.socket _ _ hs
        obtain rfl := hc.keyed _ _ _ hk
        exact .inr (.inl hk)
  | recoverEnd req hpc hb hl => simp [hc.recoverMsg_eq req] at hl
  | ignore req hpc hb => exact h.of_same_maps rfl (fun _ => rfl) rfl (by simp [hpc])
  | expire req socket hpc hq => exact h.of_same_maps rfl (fun _ => rfl) rfl (by simp [hpc])
  | pop req socket msg rest hpc hq => exact h.of_same_maps rfl (fun _ => rfl) rfl (by simp [hpc])
  | again req socket hpc hrun => exact h.of_same_maps rfl (fun _ => rfl) rfl (by simp [hpc])
  | giveUp req socket hpc hrun => exact h.of_same_maps rfl (fun _ => rfl) rfl (by simp [hpc])
  | sendUnset req socket hpc => exact h.of_same_maps rfl (fun _ => rfl) rfl (by simp [hpc])
  | send req socket msg hpc =>
    have hserving := hc.serving req socket (by simp [hpc, Pc.serving])
    rintro m sink ⟨tr, htr, rfl, rfl⟩
    rcases List.mem_append.mp htr with htr | htr
    · apply (h tr.msg tr.socket.endpoint ⟨tr, htr, rfl, rfl⟩).imp_right
      intro hrec
      rcases hrec with hin | ⟨r, sk, hstore, -⟩
      · exact .inl hin
      · simp [hpc] at hstore
    · cases List.mem_singleton.mp htr
      exact .inr (.inr ⟨req, socket, rfl, by rw [hc.socket _ _ hserving.2]⟩)
  | store req socket msg hpc => exact h.store hpc (hfresh req socket msg hpc)
  | halted hpc => exact h

end AllRecoverable

/-- The ledger: the places hold the messages passed to `send`, each once; what was destroyed was
destroyed for a reason; what was transmitted and not destroyed can be recovered; after the
destructor everything has been destroyed. -/
structure Ledger (s : Source T) : Prop where
  distinct : s.topic.produced.Nodup
  places : s.topic.places.Perm s.topic.produced
  causes : ∀ msg cause, (msg, cause) ∈ s.topic.locals.destroyed → Justified s msg cause
  recoverable : AllRecoverable s.topic
  complete : s.destructed = true → (s.topic.locals.destroyed.map Prod.fst).Perm s.topic.produced
  defined : s.topic.pc ≠ .undefined

structure Accounted (identity : UInt64) (s : Source T) : Prop extends Ledger s, Traced s where
  coherent : Coherent identity s.topic
  assigned : ∀ req socket, s.topic.pc ≠ .getSend req socket none
  closed : s.destructed = true → s.topic.pc = .finished
  released : s.topic.pc = .finished → s.topic.locals.sents = ∅

theorem accounted_initial : Accounted identity ({} : Source T) where
  toTraced := traced_initial
  distinct := by simp
  places := by simp [Topic.places, Pc.inHand, TaskLocals.kept]
  recoverable := by simp [AllRecoverable, SentTo]
  complete := by simp
  defined := by simp
  coherent := coherent_initial
  assigned := by simp
  closed := by simp
  released := by simp

namespace Accounted
variable {src dst : Source T}

theorem destruct (h : Accounted identity src) (hpc : src.topic.pc = .finished) :
    Accounted identity { topic := src.topic.destruct, destructed := true } where
  genuine := h.genuine.of_fewer rfl rfl (fun _ => id) (by simp +contextual [Topic.destruct])
    (fun _ => .inl)
  distinct := h.distinct
  places := by
    have hold := h.places
    simp only [Topic.places, Topic.destruct, TaskLocals.kept, hpc, Pc.inHand, List.nil_append,
      List.map_append, List.map_map, Function.comp_def, List.map_id'] at hold ⊢
    rw [← List.append_assoc]
    exact List.perm_append_comm.trans hold
  causes := by
    intro msg cause hmem
    rcases List.mem_append.mp hmem with hmem | hmem
    · have hold := h.causes msg cause hmem
      cases cause with
      | del req => exact hold
      | teardown => exact hold
      | destructor => rfl
    · obtain ⟨m, -, heq⟩ := List.mem_map.mp hmem
      cases heq
      rfl
  recoverable := by
    intro msg sink hsent
    apply (h.recoverable msg sink hsent).imp_left
    intro hdead
    simp only [Topic.destruct, List.map_append]
    exact List.mem_append_left _ hdead
  complete := by
    intro _
    have hold := h.places
    simp only [Topic.places, TaskLocals.kept, hpc, h.released hpc, Pc.inHand, nestedValues_empty,
      List.nil_append] at hold
    simp only [Topic.destruct, List.map_append, List.map_map, Function.comp_def, List.map_id']
    exact List.perm_append_comm.trans hold
  defined := h.defined
  stored := h.stored
  storing := h.storing
  coherent := h.coherent.of_same_maps rfl rfl h.coherent.serving h.coherent.defined
  assigned := h.assigned
  closed := fun _ => hpc
  released := h.released

theorem move (h : Accounted identity src) (hlive : src.destructed = false)
    (hm : Move identity src.topic t) (ho : orderly src (.topic .task) = true) :
    Accounted identity { src with topic := t } := by
  have hfresh : ∀ req socket msg, src.topic.pc = .getStore req socket msg →
      (src.topic.locals.sentsOf req.sink)[key msg]? = none := by
    intro req socket msg hpc
    simpa [orderly, hpc] using ho
  have hassigned : ∀ req socket, t.pc ≠ .getSend req socket none := by
    have hold := h.assigned
    cases hm with
    | giveUp req socket hpc hrun => simp [orderly, hpc, hrun] at ho
    | halted hpc => exact hold
    | _ => simp
  have hdefined : t.pc ≠ .undefined := by
    have hold := h.defined
    cases hm with
    | recoverEnd req hpc hb hl => simp [h.coherent.recoverMsg_eq req] at hl
    | sendUnset req socket hpc => exact absurd hpc (h.assigned req socket)
    | halted hpc => exact hold
    | _ => simp
  have hreleased : t.pc = .finished → t.locals.sents = ∅ := by
    have hold := h.released
    cases hm with
    | leave hpc hrun => exact fun _ => rfl
    | halted hpc => exact hold
    | _ => simp
  exact
    { h.toTraced.move h.coherent hm with
      distinct := by simpa only [hm.inputs.2] using h.distinct
      places := by
        have hold := (hm.places h.coherent hfresh).trans h.places
        simpa only [hm.inputs.2] using hold
      recoverable := h.recoverable.move h.coherent hm hfresh
      complete := by simp [hlive]
      defined := hdefined
      coherent := h.coherent.move hm
      assigned := hassigned
      closed := by simp [hlive]
      released := hreleased }

theorem step [DecidableEq T] (h : Accounted identity src) {a : SourceLabel T}
    (ho : orderly src a = true) (hs : sourceNext identity src a = some dst) :
    Accounted identity dst := by
  match a with
  | .destructor =>
    simp only [sourceNext, Option.ite_none_right_eq_some, Option.some.injEq] at hs
    obtain ⟨⟨hpc, -⟩, rfl⟩ := hs
    exact h.destruct hpc
  | .topic (.send msg) =>
    simp only [sourceNext, Option.ite_none_left_eq_some, not_or] at hs
    obtain ⟨⟨hnew, hlive⟩, hs⟩ := hs
    cases hs
    exact
      { h.toTraced.step h.coherent (a := .send msg) rfl, h with
        distinct := by
          simpa [List.nodup_append, h.distinct] using fun m hm (heq : m = msg) => hnew (heq ▸ hm)
        places := by
          have hold := h.places
          simp only [Topic.places] at hold ⊢
          rw [List.append_assoc]
          refine List.perm_middle.trans ((hold.cons msg).trans ?_)
          exact (List.perm_append_singleton msg _).symm
        complete := by simp [hlive]
        coherent := h.coherent.step (a := .send msg) rfl }
  | .topic (.recvRequest req) =>
    simp only [sourceNext, Option.ite_none_left_eq_some] at hs
    obtain ⟨-, hs⟩ := hs
    cases hs
    exact
      { h.toTraced.step h.coherent (a := .recvRequest req) rfl, h with
        coherent := h.coherent.step (a := .recvRequest req) rfl }
  | .topic .stop =>
    simp only [sourceNext, Option.ite_none_left_eq_some] at hs
    obtain ⟨-, hs⟩ := hs
    cases hs
    exact
      { h.toTraced.step h.coherent (a := .stop) rfl, h with
        coherent := h.coherent.step (a := .stop) rfl }
  | .topic .task =>
    simp only [sourceNext, Option.ite_none_left_eq_some] at hs
    obtain ⟨hlive, hs⟩ := hs
    cases hs
    exact h.move (by simpa using hlive) (move_taskThread identity src.topic) ho

end Accounted

/-- As long as no GET stores under a key in use and none leaves its wait without a message, the
ledger is kept through every run. -/
theorem orderly_runs_keep_the_ledger [DecidableEq T] {s : Source T}
    (h : Reachable (guarded (fun u a => orderly u a = true) (sourceNext identity)) {} s) :
    Ledger s := by
  refine (h.invariant (I := Accounted identity) accounted_initial ?_).toLedger
  intro u a v hu hv
  obtain ⟨ho, hs⟩ := guarded_eq_some.mp hv
  exact hu.step ho hs

private def numbered (b : UInt8) (rest : List UInt8 := []) : ByteMessage :=
  .ofBytes ([b, 0, 0, 0, 0, 0, 0, 0] ++ rest)

/-- One message stored and deleted, one left in `sents` and one in the ready queue when the source
is torn down. -/
private def orderlySchedule : List (SourceLabel ByteMessage) :=
  [.topic (.send (numbered 1)), .topic (.send (numbered 2)), .topic (.send (numbered 3)),
    .topic (.recvRequest (getRequest [83])), .topic (.recvRequest (getRequest [83])),
    .topic (.recvRequest (delRequest [83] 1))] ++
    List.replicate 16 (.topic .task) ++ [.topic .stop, .topic .task, .topic .task, .destructor]

theorem orderly_runs_keep_the_ledger_example :
    ∃ s, run (guarded (fun u a => orderly u a = true) (sourceNext 7)) {} orderlySchedule = some s ∧
      s.topic.locals.destroyed = [(numbered 1, .del (delRequest [83] 1)), (numbered 2, .teardown),
        (numbered 3, .destructor)] ∧ Ledger s := by
  have hdestroyed : (run (guarded (fun u a => orderly u a = true) (sourceNext 7)) {}
      orderlySchedule).map (fun s => s.topic.locals.destroyed) =
        some [(numbered 1, .del (delRequest [83] 1)), (numbered 2, .teardown),
          (numbered 3, .destructor)] := by decide +kernel
  obtain ⟨s, hs, hd⟩ := Option.map_eq_some_iff.mp hdestroyed
  exact ⟨s, hs, hd, orderly_runs_keep_the_ledger ⟨_, hs⟩⟩

/-- Without the condition the ledger breaks: the second of two messages with one key is stored
over the first, which from then on is in no place at all. -/
theorem ledger_broken_by_equal_keys :
    ¬ ∀ s : Source ByteMessage, Reachable (sourceNext 7) {} s → Ledger s := by
  intro h
  have hlost : (run (sourceNext 7) {} ([.topic (.send (numbered 1)),
      .topic (.send (numbered 1 [1])), .topic (.recvRequest (getRequest [83])),
      .topic (.recvRequest (getRequest [83]))] ++ List.replicate 12 (.topic .task))).map
        (fun s => (s.topic.places.length, s.topic.produced.length)) = some (1, 2) := by
    decide +kernel
  obtain ⟨s, hs, hl⟩ := Option.map_eq_some_iff.mp hlost
  have hlength := (h s ⟨_, hs⟩).places.length_eq
  simp only [Prod.mk.injEq] at hl
  omega

end Accounting
end MessagePass.SourceTasks
