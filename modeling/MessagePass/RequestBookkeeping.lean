import MessagePass.TaskInvariants

/-!
# The bookkeeping of the task thread against its specification

The specification speaks of the history of processed requests only. `LastKept` says which message
a key of a sink should hold: the one popped by the last GET for them, unless a DEL for them was
processed later. The two thread-local maps, updated separately by the three branches, agree with
it in every reachable state of a running source.
-/
namespace MessagePass.SourceTasks
open Std RequestMessages DataMessages OrderedMaps LabelledRuns

variable {T : Type} [IDataMessage T] {identity : UInt64}

def Handled.Stores (e : Handled T) (sink : Str) (k : UInt64) (msg : T) : Prop :=
  e.req.branch = .get ∧ e.req.sink = sink ∧ e.msg = some msg ∧ key msg = k

omit [IDataMessage T] in
def Handled.Deletes (e : Handled T) (sink : Str) (k : UInt64) : Prop :=
  e.req.branch = .del ∧ e.req.sink = sink ∧ e.req.key = k

/-- The last GET of the history for this sink and key transmitted `msg`, and no DEL for them was
processed after it. -/
def LastKept (history : List (Handled T)) (sink : Str) (k : UInt64) (msg : T) : Prop :=
  ∃ before e after, history = before ++ e :: after ∧ e.Stores sink k msg ∧
    ∀ e' ∈ after, (∀ m, ¬ e'.Stores sink k m) ∧ ¬ e'.Deletes sink k

theorem lastKept_nil (sink : Str) (k : UInt64) (msg : T) : ¬ LastKept [] sink k msg := by
  rintro ⟨before, e, after, h, -⟩
  simp at h

theorem lastKept_concat (history : List (Handled T)) (e : Handled T) (sink : Str) (k : UInt64)
    (msg : T) : LastKept (history ++ [e]) sink k msg ↔ e.Stores sink k msg ∨
      ((∀ m, ¬ e.Stores sink k m) ∧ ¬ e.Deletes sink k ∧ LastKept history sink k msg) := by
  constructor
  · rintro ⟨before, e', after, heq, hst, hafter⟩
    rcases List.eq_nil_or_concat after with rfl | ⟨after, last, rfl⟩
    · obtain ⟨-, hlast⟩ := List.append_inj' heq rfl
      cases hlast
      exact .inl hst
    · rw [List.concat_eq_append, ← List.cons_append, ← List.append_assoc] at heq
      obtain ⟨hinit, hlast⟩ := List.append_inj' heq rfl
      cases hlast
      simp only [List.concat_eq_append, List.mem_append, List.mem_singleton] at hafter
      obtain ⟨hno, hdel⟩ := hafter e (.inr rfl)
      exact .inr ⟨hno, hdel, before, e', after, hinit, hst, fun x hx => hafter x (.inl hx)⟩
  · rintro (hst | ⟨hno, hdel, before, e', after, rfl, hst, hafter⟩)
    · exact ⟨history, e, [], rfl, hst, by simp⟩
    · exact ⟨before, e', after ++ [e], by simp, hst, forall_mem_concat hafter ⟨hno, hdel⟩⟩

theorem lastKept_concat_of_neither {history : List (Handled T)} {req : RequestMessage}
    (hg : req.branch ≠ .get) (hd : req.branch ≠ .del) (sink : Str) (k : UInt64) (msg : T) :
    LastKept (history ++ [⟨req, none⟩]) sink k msg ↔ LastKept history sink k msg := by
  simp [lastKept_concat, Handled.Stores, Handled.Deletes, hg, hd]

/-- A GET for the sink was processed, or is being processed and has its socket. -/
def GetBegun (s : Topic T) (sink : Str) : Prop :=
  (∃ e ∈ s.locals.handled, e.req.branch = .get ∧ e.req.sink = sink) ∨
    ∃ req socket, s.pc.serving = some (req, socket) ∧ req.sink = sink

def TaskLocals.getSent (l : TaskLocals T) : List (Transmission T) :=
  l.sent.filter fun t => t.req.branch = .get

def getOutputs (identity : UInt64) (history : List (Handled T)) : List (Transmission T) :=
  history.filterMap fun e =>
    if e.req.branch = .get then e.msg.map fun msg => ⟨e.req, ⟨identity, e.req.sink⟩, msg⟩ else none

/-- The transmission of a GET that has sent its message and not yet stored it. -/
def Pc.unstored : Pc T → List (Transmission T)
  | .getStore req socket msg => [⟨req, socket, msg⟩]
  | _ => []

/-- A step of the task thread extends the log by what it transmits; only the step that leaves a
GET with its message sent and not yet stored transmits for a GET. -/
theorem Move.sent_append {s t : Topic T} (hm : Move identity s t) (hc : Coherent identity s) :
    ∃ new, t.locals.sent = s.locals.sent ++ new ∧
      (new.filter fun tr => tr.req.branch = .get) <:+ t.pc.unstored := by
  cases hm with
  | recover req l hpc hb hl =>
    rw [hc.recoverMsg_eq req] at hl
    cases hl
    refine ⟨_, rfl, ?_⟩
    simp [hc.recovered_eq, hb, List.filter_map, Function.comp_def]
  | send req socket msg hpc =>
    obtain ⟨hb, -⟩ := hc.serving req socket (by simp [hpc, Pc.serving])
    exact ⟨[⟨req, socket, msg⟩], rfl, by simp [hb, Pc.unstored]⟩
  | _ => exact ⟨[], by simp, by simp⟩

theorem Move.sent_prefix {s t : Topic T} (hm : Move identity s t) (hc : Coherent identity s) :
    s.locals.sent <+: t.locals.sent := by
  obtain ⟨new, hnew, -⟩ := hm.sent_append hc
  exact ⟨new, hnew.symm⟩

theorem Move.outputs {s t : Topic T} (hm : Move identity s t) (hc : Coherent identity s)
    (h : s.locals.getSent = getOutputs identity s.locals.handled ++ s.pc.unstored) :
    t.locals.getSent = getOutputs identity t.locals.handled ++ t.pc.unstored := by
  cases hm with
  | enter hpc hrun => simpa [hpc, Pc.unstored] using h
  | leave hpc hrun => simpa [hpc, Pc.unstored, TaskLocals.getSent] using h
  | idle hpc hq => simpa [hpc, Pc.unstored] using h
  | take req rest hpc hq => simpa [hpc, Pc.unstored] using h
  | getFound req socket hpc hb hs => simpa [hpc, Pc.unstored] using h
  | getFresh req hpc hb hs => simpa [hpc, Pc.unstored, TaskLocals.getSent] using h
  | del req hpc hb => simpa [hpc, hb, Pc.unstored, TaskLocals.getSent, getOutputs] using h
  | recover req l hpc hb hl =>
    rw [hc.recoverMsg_eq req] at hl
    cases hl
    simpa [hpc, hb, Pc.unstored, TaskLocals.getSent, getOutputs, hc.recovered_eq,
      List.filter_map, Function.comp_def] using h
  | recoverEnd req hpc hb hl => simpa [hpc, Pc.unstored] using h
  | ignore req hpc hb => simpa [hpc, hb, Pc.unstored, TaskLocals.getSent, getOutputs] using h
  | expire req socket hpc hq => simpa [hpc, Pc.unstored] using h
  | pop req socket msg rest hpc hq => simpa [hpc, Pc.unstored] using h
  | again req socket hpc hrun => simpa [hpc, Pc.unstored] using h
  | giveUp req socket hpc hrun => simpa [hpc, Pc.unstored] using h
  | sendUnset req socket hpc => simpa [hpc, Pc.unstored] using h
  | send req socket msg hpc =>
    obtain ⟨hb, -⟩ := hc.serving req socket (by simp [hpc, Pc.serving])
    simp only [hpc, Pc.unstored, List.append_nil] at h
    simp [TaskLocals.getSent, Pc.unstored, hb, ← h]
  | store req socket msg hpc =>
    obtain ⟨hb, hsock⟩ := hc.serving req socket (by simp [hpc, Pc.serving])
    simpa [hpc, hb, hc.socket _ _ hsock, Pc.unstored, TaskLocals.getSent, getOutputs] using h
  | halted hpc => exact h

/-- The agreement of the maps and of the log with the history. -/
structure Recorded (identity : UInt64) (s : Topic T) : Prop where
  kept : ∀ sink (k : UInt64) msg, (s.locals.sentsOf sink)[k]? = some msg ↔
    LastKept s.locals.handled sink k msg
  opened : ∀ sink, sink ∈ s.locals.sockets ↔ GetBegun s sink
  outputs : s.locals.getSent = getOutputs identity s.locals.handled ++ s.pc.unstored

theorem recorded_initial : Recorded identity ({} : Topic T) where
  kept := by simp [TaskLocals.sentsOf, lastKept_nil]
  opened := by simp [GetBegun, Pc.serving]
  outputs := by simp [TaskLocals.getSent, getOutputs, Pc.unstored]

omit [IDataMessage T] in
private theorem getBegun_of_idle {s : Topic T} (hs : s.pc.serving = none) (sink : Str) :
    GetBegun s sink ↔ ∃ e ∈ s.locals.handled, e.req.branch = .get ∧ e.req.sink = sink := by
  simp [GetBegun, hs]

namespace Recorded
variable {s t : Topic T}

theorem of_same_locals (h : Recorded identity s) (hl : t.locals = s.locals)
    (hs : t.pc.serving = s.pc.serving)
    (houtputs : t.locals.getSent = getOutputs identity t.locals.handled ++ t.pc.unstored) :
    Recorded identity t where
  kept := by rw [hl]; exact h.kept
  opened := by simpa only [GetBegun, hl, hs] using h.opened
  outputs := houtputs

theorem of_finish (h : Recorded identity s) {req : RequestMessage} {l : TaskLocals T}
    (hpc : s.pc = .dispatch req) (hb : req.branch ≠ .get)
    (hl : l.handled = s.locals.handled) (hsock : l.sockets = s.locals.sockets)
    (hkept : ∀ sink (k : UInt64) msg, (l.sentsOf sink)[k]? = some msg ↔
      LastKept (s.locals.handled ++ [⟨req, none⟩]) sink k msg)
    (houtputs : (l.finish req none).getSent =
      getOutputs identity (l.finish req none).handled ++ []) :
    Recorded identity { s with pc := .loop, locals := l.finish req none } where
  kept := by simpa [hl] using hkept
  opened := by
    intro sink
    have hold := h.opened sink
    rw [getBegun_of_idle (by simp [hpc, Pc.serving])] at hold
    rw [getBegun_of_idle (by simp [Pc.serving])]
    simp [hsock, hold, hl, hb]
  outputs := houtputs

theorem kept_delete (h : Recorded identity s) {req : RequestMessage} (hb : req.branch = .del)
    (sink : Str) (k : UInt64) (msg : T) :
    ((s.locals.deleteMsg req).sentsOf sink)[k]? = some msg ↔
      LastKept (s.locals.handled ++ [⟨req, none⟩]) sink k msg := by
  rw [lastKept_concat, ← h.kept, TaskLocals.sentsOf_deleteMsg]
  by_cases hs : req.sink = sink
  · by_cases hk : req.key = k
    · simp [Handled.Stores, Handled.Deletes, hb, hs, hk]
    · simp [Handled.Stores, Handled.Deletes, hb, hs, hk, ExtTreeMap.getElem?_erase]
  · simp [Handled.Stores, Handled.Deletes, hb, hs]

theorem store (h : Recorded identity s) (hc : Coherent identity s) {req : RequestMessage}
    {socket : Socket} {msg : T} (hpc : s.pc = .getStore req socket msg)
    (houtputs : ((s.locals.storeMsg req msg).finish req (some msg)).getSent =
      getOutputs identity ((s.locals.storeMsg req msg).finish req (some msg)).handled ++ []) :
    Recorded identity { s with
      pc := .loop, locals := (s.locals.storeMsg req msg).finish req (some msg) } where
  kept := by
    obtain ⟨hb, -⟩ := hc.serving req socket (by simp [hpc, Pc.serving])
    intro sink k m
    simp only [TaskLocals.sentsOf_finish, TaskLocals.handled_finish, TaskLocals.handled_storeMsg]
    rw [lastKept_concat, ← h.kept, TaskLocals.sentsOf_storeMsg]
    by_cases hs : req.sink = sink
    · by_cases hk : key msg = k
      · simp only [hs, if_true, hk, ExtTreeMap.getElem?_insert_self, Handled.Stores,
          Handled.Deletes, hb, Option.some.injEq, true_and]
        grind
      · simp [Handled.Stores, Handled.Deletes, hb, hs, hk, ExtTreeMap.getElem?_insert]
        grind
    · simp [Handled.Stores, Handled.Deletes, hb, hs]
  opened := by
    obtain ⟨hb, hsock⟩ := hc.serving req socket (by simp [hpc, Pc.serving])
    intro sink
    have hold := h.opened sink
    rw [getBegun_of_idle (by simp [Pc.serving])]
    simp only [GetBegun, hpc, Pc.serving] at hold
    simp [hold, hb]
  outputs := houtputs

theorem move (h : Recorded identity s) (hc : Coherent identity s) (hm : Move identity s t)
    (hrun : s.running = true) : Recorded identity t := by
  have houtputs := hm.outputs hc h.outputs
  cases hm with
  | enter hpc _ => exact h.of_same_locals rfl (by simp [hpc, Pc.serving]) houtputs
  | leave hpc hstop => simp [hrun] at hstop
  | idle hpc hq => exact h.of_same_locals rfl (by simp [hpc, Pc.serving]) houtputs
  | take req rest hpc hq => exact h.of_same_locals rfl (by simp [hpc, Pc.serving]) houtputs
  | getFound req socket hpc hb hs =>
    refine ⟨h.kept, ?_, houtputs⟩
    intro sink
    have hold := h.opened sink
    rw [getBegun_of_idle (by simp [hpc, Pc.serving])] at hold
    have hmem : req.sink = sink → sink ∈ s.locals.sockets := by
      rintro rfl
      rw [ExtTreeMap.mem_iff_isSome_getElem?, hs]; rfl
    simp only [GetBegun, serving_getWait]
    grind
  | getFresh req hpc hb hs =>
    refine ⟨?_, ?_, houtputs⟩
    · simpa only [hc.sentsOf_openSocket, TaskLocals.handled_openSocket] using h.kept
    · intro sink
      have hold := h.opened sink
      rw [getBegun_of_idle (by simp [hpc, Pc.serving])] at hold
      simp only [s.locals.openSocket_fresh req.sink hs, ExtTreeMap.mem_insert, hold, GetBegun,
        serving_getWait, LawfulEqOrd.compare_eq_iff_eq]
      grind
  | del req hpc hb =>
    exact h.of_finish hpc (by simp [hb]) (by simp) (by simp) (h.kept_delete hb) houtputs
  | recover req l hpc hb hl =>
    rw [hc.recoverMsg_eq req] at hl
    cases hl
    refine h.of_finish hpc (by simp [hb]) rfl rfl (fun sink k msg => ?_) houtputs
    rw [lastKept_concat_of_neither (by simp [hb]) (by simp [hb])]
    exact h.kept sink k msg
  | recoverEnd req hpc hb hl => simp [hc.recoverMsg_eq req] at hl
  | ignore req hpc hb =>
    refine h.of_finish hpc (by simp [hb]) rfl rfl (fun sink k msg => ?_) houtputs
    rw [lastKept_concat_of_neither (by simp [hb]) (by simp [hb])]
    exact h.kept sink k msg
  | expire req socket hpc hq => exact h.of_same_locals rfl (by simp [hpc, Pc.serving]) houtputs
  | pop req socket msg rest hpc hq =>
    exact h.of_same_locals rfl (by simp [hpc, Pc.serving]) houtputs
  | again req socket hpc _ => exact h.of_same_locals rfl (by simp [hpc, Pc.serving]) houtputs
  | giveUp req socket hpc hstop => simp [hrun] at hstop
  | sendUnset req socket hpc => exact absurd hpc ((hc.defined hrun).2.2 req socket)
  | send req socket msg hpc =>
    exact ⟨h.kept, by simpa [GetBegun, hpc, Pc.serving] using h.opened, houtputs⟩
  | store req socket msg hpc => exact h.store hc hpc houtputs
  | halted hpc =>
    rcases hpc with hpc | hpc
    · exact absurd hpc (hc.defined hrun).2.1
    · exact absurd hpc (hc.defined hrun).1

end Recorded

theorem recorded_reachable {s : Topic T} (h : Reachable (next identity) {} s)
    (hrun : s.running = true) : Recorded identity s := by
  refine h.invariant_with (I := fun u => u.running = true → Recorded identity u)
    (fun u hu => coherent_reachable hu) (fun _ => recorded_initial) ?_ hrun
  intro u a v hc hu hv hvrun
  have hold := hu (running_of_next hv hvrun)
  cases a with
  | send msg => cases hv; exact hold.of_same_locals rfl rfl hold.outputs
  | recvRequest req => cases hv; exact hold.of_same_locals rfl rfl hold.outputs
  | task =>
    have hurun := running_of_next hv hvrun
    cases hv
    exact hold.move hc (move_taskThread identity u) hurun
  | stop => cases hv; simp at hvrun

/-- The law of the bookkeeping: what the maps hold, which sockets exist, what GETs and RECOVERs
transmit, and that the reset of an entry and an unknown command lose nothing. -/
structure BookkeepingSpec (identity : UInt64) (s : Topic T) : Prop extends Recorded identity s where
  /-- A RECOVER transmits the entry of its sink on that sink's socket and changes no map. -/
  recover : ∀ req, s.pc = .dispatch req → req.branch = .recover →
    taskThread identity s = { s with
      pc := .loop
      locals := TaskLocals.finish { s.locals with
        sent := s.locals.sent ++ (values (s.locals.sentsOf req.sink)).map fun msg =>
          ⟨req, ⟨identity, req.sink⟩, msg⟩ } req none }
  silent : ∀ sink, ¬ GetBegun s sink → s.locals.sentsOf sink = ∅
  ascending : ∀ sink, ((values (s.locals.sentsOf sink)).map key).Pairwise (· < ·)
  opening : ∀ req, s.pc = .dispatch req → req.branch = .get →
    ∀ sink, (taskThread identity s).locals.sentsOf sink = s.locals.sentsOf sink
  other : ∀ req, s.pc = .dispatch req → req.branch = .other →
    taskThread identity s = { s with pc := .loop, locals := s.locals.finish req none }

private theorem map_key_values {m : ExtTreeMap UInt64 T}
    (h : ∀ (k : UInt64) msg, m[k]? = some msg → key msg = k) :
    (values m).map key = m.toList.map Prod.fst := by
  simp only [values, List.map_map]
  apply List.map_congr_left
  rintro ⟨k, msg⟩ hmem
  exact h k msg (ExtTreeMap.mem_toList_iff_getElem?_eq_some.mp hmem)

theorem bookkeeping_refines_history {s : Topic T} (h : Reachable (next identity) {} s)
    (hrun : s.running = true) : BookkeepingSpec identity s := by
  have hc := coherent_reachable h
  have hr := recorded_reachable h hrun
  refine { hr with recover := ?_, silent := ?_, ascending := ?_, opening := ?_, other := ?_ }
  · intro req hpc hb
    simp only [taskThread, hpc, hb, hc.recoverMsg_eq req, hc.recovered_eq req]
  · intro sink hno
    apply hc.unopened sink
    rw [← hr.opened sink, ExtTreeMap.mem_iff_isSome_getElem?] at hno
    simpa using hno
  · intro sink
    rw [map_key_values (hc.keyed sink)]
    exact (toList_sorted _).imp compare_eq_lt.mp
  · intro req hpc hb sink
    simpa only [taskThread, hpc, hb] using hc.sentsOf_openSocket req.sink sink
  · intro req hpc hb
    simp only [taskThread, hpc, hb]

/-- A DEL before any GET, two GETs that pop messages with one key, and a RECOVER that the thread
has just dequeued. -/
private def recordedSchedule : List (Label ByteMessage) :=
  [.send (.ofBytes [1, 0, 0, 0, 0, 0, 0, 0]), .send (.ofBytes [1, 0, 0, 0, 0, 0, 0, 0, 2]),
    .recvRequest (delRequest [83] 1), .recvRequest (getRequest [83]),
    .recvRequest (getRequest [83]), .recvRequest (recoverRequest [83])] ++ List.replicate 17 .task

theorem bookkeeping_refines_history_example :
    ∃ s, run (next 7) {} recordedSchedule = some s ∧
      s.pc = .dispatch (recoverRequest [83]) ∧ BookkeepingSpec 7 s := by
  have hrun : (run (next 7) {} recordedSchedule).map (fun s => (s.pc, s.running)) =
      some (.dispatch (recoverRequest [83]), true) := by decide +kernel
  obtain ⟨s, hs, hp⟩ := Option.map_eq_some_iff.mp hrun
  simp only [Prod.mk.injEq] at hp
  exact ⟨s, hs, hp.1, bookkeeping_refines_history ⟨_, hs⟩ hp.2⟩

end MessagePass.SourceTasks
