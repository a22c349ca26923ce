import MessagePass.SourceTasks

/-!
# What one step of the task thread can do, and the coherence of its maps

`Move` lists the steps of `task_thread`, each with its guard and its effect; later proofs split
on it and never unfold the step function. `Coherent` ties the two thread-local maps together:
every open socket has an entry in `sents`, and a sink without a socket has nothing stored.
-/
namespace MessagePass.SourceTasks
open Std RequestMessages DataMessages OrderedMaps LabelledRuns

variable {T : Type} [IDataMessage T] {identity : UInt64}

/-- The steps of the task thread, one constructor for each way through the loop body. -/
inductive Move (identity : UInt64) (s : Topic T) : Topic T → Prop
  | enter (hpc : s.pc = .loop) (hrun : s.running = true) : Move identity s { s with pc := .await }
  | leave (hpc : s.pc = .loop) (hrun : s.running = false) :
      Move identity s { s with pc := .finished, locals := s.locals.teardown }
  | idle (hpc : s.pc = .await) (hq : s.requests = []) : Move identity s { s with pc := .loop }
  | take (req rest) (hpc : s.pc = .await) (hq : s.requests = req :: rest) :
      Move identity s { s with requests := rest, pc := .dispatch req }
  | getFound (req socket) (hpc : s.pc = .dispatch req) (hb : req.branch = .get)
      (hs : s.locals.sockets[req.sink]? = some socket) :
      Move identity s { s with pc := .getWait req socket }
  | getFresh (req) (hpc : s.pc = .dispatch req) (hb : req.branch = .get)
      (hs : s.locals.sockets[req.sink]? = none) :
      Move identity s { s with
        pc := .getWait req ⟨identity, req.sink⟩
        locals := (s.locals.openSocket identity req.sink).2 }
  | del (req) (hpc : s.pc = .dispatch req) (hb : req.branch = .del) :
      Move identity s { s with pc := .loop, locals := (s.locals.deleteMsg req).finish req none }
  | recover (req l) (hpc : s.pc = .dispatch req) (hb : req.branch = .recover)
      (hl : s.locals.recoverMsg req = some l) :
      Move identity s { s with pc := .loop, locals := l.finish req none }
  | recoverEnd (req) (hpc : s.pc = .dispatch req) (hb : req.branch = .recover)
      (hl : s.locals.recoverMsg req = none) : Move identity s { s with pc := .undefined }
  | ignore (req) (hpc : s.pc = .dispatch req) (hb : req.branch = .other) :
      Move identity s { s with pc := .loop, locals := s.locals.finish req none }
  | expire (req socket) (hpc : s.pc = .getWait req socket) (hq : s.ready = []) :
      Move identity s { s with pc := .getExpired req socket }
  | pop (req socket msg rest) (hpc : s.pc = .getWait req socket) (hq : s.ready = msg :: rest) :
      Move identity s { s with ready := rest, pc := .getSend req socket (some msg) }
  | again (req socket) (hpc : s.pc = .getExpired req socket) (hrun : s.running = true) :
      Move identity s { s with pc := .getWait req socket }
  | giveUp (req socket) (hpc : s.pc = .getExpired req socket) (hrun : s.running = false) :
      Move identity s { s with pc := .getSend req socket none }
  | sendUnset (req socket) (hpc : s.pc = .getSend req socket none) :
      Move identity s { s with pc := .undefined }
  | send (req socket msg) (hpc : s.pc = .getSend req socket (some msg)) :
      Move identity s { s with
        pc := .getStore req socket msg
        locals := s.locals.sendMsg req socket msg }
  | store (req socket msg) (hpc : s.pc = .getStore req socket msg) :
      Move identity s { s with
        pc := .loop
        locals := (s.locals.storeMsg req msg).finish req (some msg) }
  | halted (hpc : s.pc = .finished ∨ s.pc = .undefined) : Move identity s s

theorem move_taskThread (identity : UInt64) (s : Topic T) :
    Move identity s (taskThread identity s) := by
  unfold taskThread
  split <;> rename_i hpc
  · split <;> rename_i hr
    · exact .enter hpc hr
    · exact .leave hpc (by simpa using hr)
  · split <;> rename_i hq
    · exact .idle hpc hq
    · exact .take _ _ hpc hq
  · rename_i req
    split <;> rename_i hb
    · cases hs : s.locals.sockets[req.sink]? with
      | none =>
        have hm : Move identity s _ := .getFresh req hpc hb hs
        simpa only [TaskLocals.openSocket_fresh s.locals req.sink hs] using hm
      | some socket =>
        have hm : Move identity s _ := .getFound req socket hpc hb hs
        simpa only [TaskLocals.openSocket_found s.locals socket req.sink hs] using hm
    · exact .del req hpc hb
    · split <;> rename_i hl
      · exact .recoverEnd req hpc hb hl
      · exact .recover req _ hpc hb hl
    · exact .ignore req hpc hb
  · split <;> rename_i hq
    · exact .expire _ _ hpc hq
    · exact .pop _ _ _ _ hpc hq
  · split <;> rename_i hr
    · exact .again _ _ hpc hr
    · exact .giveUp _ _ hpc (by simpa using hr)
  · exact .sendUnset _ _ hpc
  · exact .send _ _ _ hpc
  · exact .store _ _ _ hpc
  · exact .halted (.inl hpc)
  · exact .halted (.inr hpc)

theorem Move.running {s t : Topic T} (hm : Move identity s t) : t.running = s.running := by
  cases hm <;> rfl

theorem Move.inputs {s t : Topic T} (hm : Move identity s t) :
    t.arrived = s.arrived ∧ t.produced = s.produced := by
  cases hm <;> exact ⟨rfl, rfl⟩

theorem running_of_next {s t : Topic T} {a : Label T} (hs : next identity s a = some t)
    (hrun : t.running = true) : s.running = true := by
  cases a with
  | send msg => cases hs; exact hrun
  | recvRequest req => cases hs; exact hrun
  | task => cases hs; rwa [(move_taskThread identity s).running] at hrun
  | stop => cases hs; simp at hrun

def Pc.serving : Pc T → Option (RequestMessage × Socket)
  | .getWait req socket | .getExpired req socket | .getSend req socket _ | .getStore req socket _ =>
      some (req, socket)
  | _ => none

omit [IDataMessage T] in
@[simp] theorem serving_getWait (req : RequestMessage) (socket : Socket) :
    (Pc.getWait req socket : Pc T).serving = some (req, socket) := rfl

/-- The bookkeeping invariant of the task thread, in every state of every schedule. -/
structure Coherent (identity : UInt64) (s : Topic T) : Prop where
  entry : ∀ sink, sink ∈ s.locals.sockets → sink ∈ s.locals.sents
  unopened : ∀ sink : Str, s.locals.sockets[sink]? = none → s.locals.sentsOf sink = ∅
  socket : ∀ (sink : Str) socket, s.locals.sockets[sink]? = some socket → socket = ⟨identity, sink⟩
  keyed : ∀ sink (k : UInt64) msg, (s.locals.sentsOf sink)[k]? = some msg → key msg = k
  serving : ∀ req socket, s.pc.serving = some (req, socket) →
    req.branch = .get ∧ s.locals.sockets[req.sink]? = some socket
  defined : s.running = true → s.pc ≠ .undefined ∧ s.pc ≠ .finished ∧
    ∀ req socket, s.pc ≠ .getSend req socket none

theorem coherent_initial : Coherent identity ({} : Topic T) where
  entry := by simp
  unopened := by simp [TaskLocals.sentsOf]
  socket := by simp
  keyed := by simp [TaskLocals.sentsOf]
  serving := by simp [Pc.serving]
  defined := by simp

namespace Coherent
variable {s t : Topic T}

theorem of_same_maps (h : Coherent identity s) (hs : t.locals.sockets = s.locals.sockets)
    (hm : t.locals.sents = s.locals.sents)
    (hserving : ∀ req socket, t.pc.serving = some (req, socket) →
      req.branch = .get ∧ s.locals.sockets[req.sink]? = some socket)
    (hdefined : t.running = true → t.pc ≠ .undefined ∧ t.pc ≠ .finished ∧
      ∀ req socket, t.pc ≠ .getSend req socket none) : Coherent identity t where
  entry := by rw [hs, hm]; exact h.entry
  unopened := by simp only [TaskLocals.sentsOf, hs, hm]; exact h.unopened
  socket := by rw [hs]; exact h.socket
  keyed := by simp only [TaskLocals.sentsOf, hm]; exact h.keyed
  serving := by rw [hs]; exact hserving
  defined := hdefined

theorem exists_entry (h : Coherent identity s) {sink : Str} {socket : Socket}
    (hs : s.locals.sockets[sink]? = some socket) : ∃ inner, s.locals.sents[sink]? = some inner := by
  have hopen : sink ∈ s.locals.sockets := by rw [ExtTreeMap.mem_iff_isSome_getElem?, hs]; rfl
  exact Option.isSome_iff_exists.mp (ExtTreeMap.mem_iff_isSome_getElem?.mp (h.entry sink hopen))

def recovered (l : TaskLocals T) (req : RequestMessage) : List (Transmission T) :=
  match l.sockets[req.sink]? with
  | none => []
  | some socket => (values (l.sentsOf req.sink)).map fun msg => ⟨req, socket, msg⟩

theorem recovered_eq (h : Coherent identity s) (req : RequestMessage) :
    recovered s.locals req = (values (s.locals.sentsOf req.sink)).map fun msg =>
      ⟨req, ⟨identity, req.sink⟩, msg⟩ := by
  unfold recovered
  split <;> rename_i hs
  · simp [h.unopened req.sink hs]
  · rw [h.socket _ _ hs]

theorem recoverMsg_eq (h : Coherent identity s) (req : RequestMessage) :
    s.locals.recoverMsg req =
      some { s.locals with sent := s.locals.sent ++ recovered s.locals req } := by
  cases hs : s.locals.sockets[req.sink]? with
  | none => simp [recovered, hs, s.locals.recoverMsg_unopened req hs]
  | some socket =>
    obtain ⟨inner, hi⟩ := h.exists_entry hs
    rw [s.locals.recoverMsg_opened req socket hs hi]
    simp [recovered, hs, s.locals.sentsOf_eq_of_getElem? req.sink hi]

/-- Opening a socket never discards a stored message: the entry it resets is empty. -/
theorem sentsOf_openSocket (h : Coherent identity s) (sink other : Str) :
    (s.locals.openSocket identity sink).2.sentsOf other = s.locals.sentsOf other := by
  cases hs : s.locals.sockets[sink]? with
  | some socket => rw [s.locals.openSocket_found socket sink hs]
  | none =>
    rw [s.locals.openSocket_fresh sink hs]
    by_cases ho : sink = other
    · subst ho; simpa [TaskLocals.sentsOf] using (h.unopened sink hs).symm
    · simp [TaskLocals.sentsOf, ExtTreeMap.getD_insert, ho]

theorem openSocket (h : Coherent identity s) (req : RequestMessage)
    (hs : s.locals.sockets[req.sink]? = none) (hb : req.branch = .get) :
    Coherent identity { s with
      pc := .getWait req ⟨identity, req.sink⟩
      locals := (s.locals.openSocket identity req.sink).2 } where
  entry := by
    rw [s.locals.openSocket_fresh req.sink hs]
    intro sink hmem
    simp only [ExtTreeMap.mem_insert] at hmem ⊢
    exact hmem.imp_right (h.entry sink)
  unopened := by
    intro sink hnone
    rw [h.sentsOf_openSocket]
    apply h.unopened
    rw [s.locals.openSocket_fresh req.sink hs] at hnone
    by_cases heq : req.sink = sink
    · simp [heq] at hnone
    · simpa [ExtTreeMap.getElem?_insert, heq] using hnone
  socket := by
    intro sink socket hsome
    rw [s.locals.openSocket_fresh req.sink hs] at hsome
    by_cases heq : req.sink = sink
    · subst heq; simpa [eq_comm] using hsome
    · exact h.socket sink socket (by simpa [ExtTreeMap.getElem?_insert, heq] using hsome)
  keyed := by
    intro sink k msg hk
    rw [h.sentsOf_openSocket] at hk
    exact h.keyed sink k msg hk
  serving := by
    intro r socket hsv
    simp only [serving_getWait, Option.some.injEq, Prod.mk.injEq] at hsv
    obtain ⟨rfl, rfl⟩ := hsv
    exact ⟨hb, by simp [s.locals.openSocket_fresh req.sink hs]⟩
  defined := by simp

theorem deleteMsg (h : Coherent identity s) (req : RequestMessage) :
    Coherent identity { s with
      pc := .loop, locals := (s.locals.deleteMsg req).finish req none } where
  entry := by
    intro sink hmem
    have hold := h.entry sink (by simpa using hmem)
    simp only [TaskLocals.sents_finish, TaskLocals.deleteMsg]
    split <;> simp [ExtTreeMap.mem_insert, hold]
  unopened := by
    intro sink hnone
    have hempty := h.unopened sink (by simpa using hnone)
    simp only [TaskLocals.sentsOf_finish, TaskLocals.sentsOf_deleteMsg, hempty]
    split <;> simp
  socket := by simpa using h.socket
  keyed := by
    intro sink k msg hk
    simp only [TaskLocals.sentsOf_finish, TaskLocals.sentsOf_deleteMsg] at hk
    split at hk
    · rw [ExtTreeMap.getElem?_erase] at hk
      split at hk
      · cases hk
      · exact h.keyed sink k msg hk
    · exact h.keyed sink k msg hk
  serving := by simp [Pc.serving]
  defined := by simp

theorem storeMsg (h : Coherent identity s) (req : RequestMessage) (socket : Socket) (msg : T)
    (hs : s.locals.sockets[req.sink]? = some socket) :
    Coherent identity { s with
      pc := .loop, locals := (s.locals.storeMsg req msg).finish req (some msg) } where
  entry := by
    intro sink hmem
    have hold := h.entry sink (by simpa using hmem)
    simp [TaskLocals.storeMsg, ExtTreeMap.mem_insert, hold]
  unopened := by
    intro sink hnone
    have hne : req.sink ≠ sink := by
      rintro rfl
      simp [hs] at hnone
    simp only [TaskLocals.sentsOf_finish, TaskLocals.sentsOf_storeMsg, if_neg hne]
    exact h.unopened sink (by simpa using hnone)
  socket := by simpa using h.socket
  keyed := by
    intro sink k m hk
    simp only [TaskLocals.sentsOf_finish, TaskLocals.sentsOf_storeMsg] at hk
    split at hk
    · rw [ExtTreeMap.getElem?_insert] at hk
      split at hk <;> rename_i hcmp
      · cases hk; exact LawfulEqOrd.compare_eq_iff_eq.mp hcmp
      · exact h.keyed sink k m hk
    · exact h.keyed sink k m hk
  serving := by simp [Pc.serving]
  defined := by simp

theorem teardown (hrun : s.running = false) :
    Coherent identity { s with pc := .finished, locals := s.locals.teardown } where
  entry := by simp [TaskLocals.teardown]
  unopened := by simp [TaskLocals.teardown, TaskLocals.sentsOf]
  socket := by simp [TaskLocals.teardown]
  keyed := by simp [TaskLocals.teardown, TaskLocals.sentsOf]
  serving := by simp [Pc.serving]
  defined := by simp [hrun]

theorem move (h : Coherent identity s) (hm : Move identity s t) : Coherent identity t := by
  have hserving := h.serving
  cases hm with
  | enter hpc hrun => exact h.of_same_maps rfl rfl (by simp [Pc.serving]) (by simp)
  | leave hpc hrun => exact teardown hrun
  | idle hpc hq => exact h.of_same_maps rfl rfl (by simp [Pc.serving]) (by simp)
  | take req rest hpc hq => exact h.of_same_maps rfl rfl (by simp [Pc.serving]) (by simp)
  | getFound req socket hpc hb hs =>
    refine h.of_same_maps rfl rfl ?_ (by simp)
    rintro r sk hsv
    cases hsv
    exact ⟨hb, hs⟩
  | getFresh req hpc hb hs => exact h.openSocket req hs hb
  | del req hpc hb => exact h.deleteMsg req
  | recover req l hpc hb hl =>
    rw [h.recoverMsg_eq req] at hl
    cases hl
    exact h.of_same_maps rfl rfl (by simp [Pc.serving]) (by simp)
  | recoverEnd req hpc hb hl => simp [h.recoverMsg_eq req] at hl
  | ignore req hpc hb => exact h.of_same_maps rfl rfl (by simp [Pc.serving]) (by simp)
  | expire req socket hpc hq =>
    exact h.of_same_maps rfl rfl (by simpa [hpc, Pc.serving] using hserving) (by simp)
  | pop req socket msg rest hpc hq =>
    exact h.of_same_maps rfl rfl (by simpa [hpc, Pc.serving] using hserving) (by simp)
  | again req socket hpc hrun =>
    exact h.of_same_maps rfl rfl (by simpa [hpc, Pc.serving] using hserving) (by simp)
  | giveUp req socket hpc hrun =>
    exact h.of_same_maps rfl rfl (by simpa [hpc, Pc.serving] using hserving) (by simp [hrun])
  | sendUnset req socket hpc =>
    refine h.of_same_maps rfl rfl (by simp [Pc.serving]) ?_
    intro hrun
    exact absurd hpc ((h.defined hrun).2.2 req socket)
  | send req socket msg hpc =>
    exact h.of_same_maps rfl rfl (by simpa [hpc, Pc.serving] using hserving) (by simp)
  | store req socket msg hpc =>
    exact h.storeMsg req socket msg (hserving req socket (by simp [hpc, Pc.serving])).2
  | halted hpc => exact h

theorem step (h : Coherent identity s) {a : Label T} (hs : next identity s a = some t) :
    Coherent identity t := by
  cases a with
  | send msg => cases hs; exact h.of_same_maps rfl rfl h.serving h.defined
  | recvRequest req => cases hs; exact h.of_same_maps rfl rfl h.serving h.defined
  | task => cases hs; exact h.move (move_taskThread identity s)
  | stop => cases hs; exact h.of_same_maps rfl rfl h.serving (by simp)

end Coherent

theorem coherent_reachable {s : Topic T} (h : Reachable (next identity) {} s) :
    Coherent identity s :=
  h.invariant coherent_initial fun _ _ _ hu hv => hu.step hv

/-- The request the thread has dequeued and not yet deleted. -/
def Pc.inFlight : Pc T → List RequestMessage
  | .dispatch req | .getWait req _ | .getExpired req _ | .getSend req _ _
  | .getStore req _ _ => [req]
  | _ => []

def Pc.inHand : Pc T → List T
  | .getSend _ _ (some msg) | .getStore _ _ msg => [msg]
  | _ => []

/-- Both queues are first-in first-out: what came in is what was processed, then what the thread
holds, then what waits. -/
structure Conserved (s : Topic T) : Prop where
  requests : s.arrived = s.locals.handled.map (·.req) ++ (s.pc.inFlight ++ s.requests)
  messages : s.produced = s.locals.handled.filterMap (·.msg) ++ (s.pc.inHand ++ s.ready)
  popped : ∀ e ∈ s.locals.handled, e.msg.isSome = true ↔ e.req.branch = .get

omit [IDataMessage T] in
theorem conserved_initial : Conserved ({} : Topic T) where
  requests := by simp [Pc.inFlight]
  messages := by simp [Pc.inHand]
  popped := by simp

namespace Conserved
variable {s t : Topic T}

omit [IDataMessage T] in
theorem of_same_log (h : Conserved s) (hl : t.locals.handled = s.locals.handled)
    (ha : t.arrived = s.arrived) (hp : t.produced = s.produced)
    (hr : t.pc.inFlight ++ t.requests = s.pc.inFlight ++ s.requests)
    (hm : t.pc.inHand ++ t.ready = s.pc.inHand ++ s.ready) : Conserved t where
  requests := by rw [hl, ha, hr]; exact h.requests
  messages := by rw [hl, hp, hm]; exact h.messages
  popped := by rw [hl]; exact h.popped

omit [IDataMessage T] in
theorem of_finish (h : Conserved s) {req : RequestMessage} {msg : Option T} {l : TaskLocals T}
    (hl : l.handled = s.locals.handled) (hr : s.pc.inFlight = [req])
    (hm : s.pc.inHand = msg.toList) (hb : msg.isSome = true ↔ req.branch = .get) :
    Conserved { s with pc := .loop, locals := l.finish req msg } where
  requests := by
    have hold := h.requests
    rw [hr] at hold
    simpa [hl, Pc.inFlight] using hold
  messages := by
    have hold := h.messages
    rw [hm] at hold
    cases msg <;> simpa [hl, Pc.inHand] using hold
  popped := by
    rw [TaskLocals.handled_finish, hl]
    exact forall_mem_concat h.popped hb

theorem move (h : Conserved s) (hc : Coherent identity s) (hm : Move identity s t)
    (hdef : t.pc ≠ .undefined) : Conserved t := by
  cases hm with
  | enter hpc hrun =>
    exact h.of_same_log rfl rfl rfl (by simp [hpc, Pc.inFlight]) (by simp [hpc, Pc.inHand])
  | leave hpc hrun =>
    exact h.of_same_log rfl rfl rfl (by simp [hpc, Pc.inFlight]) (by simp [hpc, Pc.inHand])
  | idle hpc hq =>
    exact h.of_same_log rfl rfl rfl (by simp [hpc, Pc.inFlight]) (by simp [hpc, Pc.inHand])
  | take req rest hpc hq =>
    exact h.of_same_log rfl rfl rfl (by simp [hpc, hq, Pc.inFlight]) (by simp [hpc, Pc.inHand])
  | getFound req socket hpc hb hs =>
    exact h.of_same_log rfl rfl rfl (by simp [hpc, Pc.inFlight]) (by simp [hpc, Pc.inHand])
  | getFresh req hpc hb hs =>
    exact h.of_same_log (by simp) rfl rfl (by simp [hpc, Pc.inFlight]) (by simp [hpc, Pc.inHand])
  | del req hpc hb =>
    exact h.of_finish (by simp) (by simp [hpc, Pc.inFlight]) (by simp [hpc, Pc.inHand])
      (by simp [hb])
  | recover req l hpc hb hl =>
    rw [hc.recoverMsg_eq req] at hl
    cases hl
    exact h.of_finish rfl (by simp [hpc, Pc.inFlight]) (by simp [hpc, Pc.inHand]) (by simp [hb])
  | recoverEnd req hpc hb hl => simp at hdef
  | ignore req hpc hb =>
    exact h.of_finish rfl (by simp [hpc, Pc.inFlight]) (by simp [hpc, Pc.inHand]) (by simp [hb])
  | expire req socket hpc hq =>
    exact h.of_same_log rfl rfl rfl (by simp [hpc, Pc.inFlight]) (by simp [hpc, Pc.inHand])
  | pop req socket msg rest hpc hq =>
    exact h.of_same_log rfl rfl rfl (by simp [hpc, Pc.inFlight]) (by simp [hpc, hq, Pc.inHand])
  | again req socket hpc hrun =>
    exact h.of_same_log rfl rfl rfl (by simp [hpc, Pc.inFlight]) (by simp [hpc, Pc.inHand])
  | giveUp req socket hpc hrun =>
    exact h.of_same_log rfl rfl rfl (by simp [hpc, Pc.inFlight]) (by simp [hpc, Pc.inHand])
  | sendUnset req socket hpc => simp at hdef
  | send req socket msg hpc =>
    exact h.of_same_log rfl rfl rfl (by simp [hpc, Pc.inFlight]) (by simp [hpc, Pc.inHand])
  | store req socket msg hpc =>
    have hb := (hc.serving req socket (by simp [hpc, Pc.serving])).1
    exact h.of_finish (by simp) (by simp [hpc, Pc.inFlight]) (by simp [hpc, Pc.inHand])
      (by simp [hb])
  | halted hpc => exact h

end Conserved

theorem conserved_reachable {s : Topic T} (h : Reachable (next identity) {} s)
    (hdef : s.pc ≠ .undefined) : Conserved s := by
  refine h.invariant_with (I := fun u => u.pc ≠ .undefined → Conserved u)
    (fun u hu => coherent_reachable hu) (fun _ => conserved_initial) ?_ hdef
  intro u a v hc hu hv hvdef
  cases a with
  | send msg =>
    cases hv
    obtain ⟨hr, hm, hp⟩ := hu hvdef
    exact ⟨hr, by simp [hm], hp⟩
  | recvRequest req =>
    cases hv
    obtain ⟨hr, hm, hp⟩ := hu hvdef
    exact ⟨by simp [hr], hm, hp⟩
  | task =>
    cases hv
    refine (hu ?_).move hc (move_taskThread identity u) hvdef
    intro hpc
    exact hvdef (by simp [taskThread, hpc])
  | stop =>
    cases hv
    obtain ⟨hr, hm, hp⟩ := hu hvdef
    exact ⟨hr, hm, hp⟩

end MessagePass.SourceTasks
