import MessagePass.RequestBookkeeping

/-!
# Messages a stopped source uses

The wait of a GET ends for one of two reasons, a message or a cleared `running_`, and the code
after it does not ask which. In every run the thread's logs and maps hold only messages that some
GET dequeued; the one step that leaves the wait without a message makes the next call use a
pointer that was never assigned.
-/
namespace MessagePass.SourceTasks
open Std RequestMessages DataMessages OrderedMaps LabelledRuns

variable {T : Type} [IDataMessage T] {identity : UInt64}

/-- What the thread has done with messages is explained by the GETs it processed: each GET has
transmitted the message it dequeued itself, an entry of `sents` was stored by a GET for that sink
and key, and what was resent or destroyed had been stored. -/
structure Recalled (identity : UInt64) (s : Topic T) : Prop where
  gets : s.locals.getSent = getOutputs identity s.locals.handled ++ s.pc.unstored
  stored : ∀ sink (k : UInt64) msg, (s.locals.sentsOf sink)[k]? = some msg →
    ∃ e ∈ s.locals.handled, e.Stores sink k msg
  resent : ∀ tr ∈ s.locals.sent, tr.req.branch ≠ .get →
    ∃ e ∈ s.locals.handled, e.Stores tr.req.sink (key tr.msg) tr.msg
  destroyed : ∀ msg cause, (msg, cause) ∈ s.locals.destroyed →
    ∃ sink, ∃ e ∈ s.locals.handled, e.Stores sink (key msg) msg

theorem recalled_initial : Recalled identity ({} : Topic T) where
  gets := by simp [TaskLocals.getSent, getOutputs, Pc.unstored]
  stored := by simp [TaskLocals.sentsOf]
  resent := by simp
  destroyed := by simp

namespace Recalled
variable {s t : Topic T}

theorem of_same_locals (h : Recalled identity s) (hl : t.locals = s.locals)
    (hgets : t.locals.getSent = getOutputs identity t.locals.handled ++ t.pc.unstored) :
    Recalled identity t where
  gets := hgets
  stored := by rw [hl]; exact h.stored
  resent := by rw [hl]; exact h.resent
  destroyed := by rw [hl]; exact h.destroyed

theorem of_finish (h : Recalled identity s) {req : RequestMessage} {l : TaskLocals T}
    (hl : l.handled = s.locals.handled)
    (hstored : ∀ sink (k : UInt64) msg, (l.sentsOf sink)[k]? = some msg →
      (s.locals.sentsOf sink)[k]? = some msg)
    (hresent : ∀ tr ∈ l.sent, tr ∈ s.locals.sent ∨
      (s.locals.sentsOf tr.req.sink)[key tr.msg]? = some tr.msg)
    (hdestroyed : ∀ msg cause, (msg, cause) ∈ l.destroyed →
      (msg, cause) ∈ s.locals.destroyed ∨ ∃ sink, (s.locals.sentsOf sink)[key msg]? = some msg)
    (hgets : (l.finish req none).getSent =
      getOutputs identity (l.finish req none).handled ++ []) :
    Recalled identity { s with pc := .loop, locals := l.finish req none } := by
  have hgrow : ∀ {sink k msg}, (∃ e ∈ s.locals.handled, e.Stores sink k msg) →
      ∃ e ∈ (l.finish req none).handled, e.Stores sink k msg := by
    rintro sink k msg ⟨e, he, hst⟩
    exact ⟨e, by rw [TaskLocals.handled_finish, hl]; exact List.mem_append_left _ he, hst⟩
  refine ⟨hgets, ?_, ?_, ?_⟩
  · exact fun sink k msg hk => hgrow (h.stored sink k msg (hstored sink k msg hk))
  · intro tr htr hne
    exact hgrow ((hresent tr htr).elim (fun hold => h.resent tr hold hne) (h.stored _ _ _))
  · intro msg cause hmem
    rcases hdestroyed msg cause hmem with hold | ⟨sink, hk⟩
    · exact (h.destroyed msg cause hold).imp fun _ => hgrow
    · exact ⟨sink, hgrow (h.stored _ _ _ hk)⟩

theorem store (h : Recalled identity s) (hc : Coherent identity s) {req : RequestMessage}
    {socket : Socket} {msg : T} (hpc : s.pc = .getStore req socket msg)
    (hgets : ((s.locals.storeMsg req msg).finish req (some msg)).getSent =
      getOutputs identity ((s.locals.storeMsg req msg).finish req (some msg)).handled ++ []) :
    Recalled identity { s with
      pc := .loop, locals := (s.locals.storeMsg req msg).finish req (some msg) } := by
  obtain ⟨hb, -⟩ := hc.serving req socket (by simp [hpc, Pc.serving])
  have hgrow : ∀ {sink k m}, (∃ e ∈ s.locals.handled, e.Stores sink k m) →
      ∃ e ∈ s.locals.handled ++ [⟨req, some msg⟩], e.Stores sink k m := by
    rintro sink k m ⟨e, he, hst⟩
    exact ⟨e, List.mem_append_left _ he, hst⟩
  refine ⟨hgets, fun sink k m hk => ?_, fun tr htr hne => hgrow (h.resent tr htr hne), ?_⟩
  · simp only [TaskLocals.sentsOf_finish, TaskLocals.sentsOf_storeMsg] at hk
    split at hk <;> rename_i hsink
    · rw [ExtTreeMap.getElem?_insert] at hk
      split at hk <;> rename_i hcmp
      · cases hk
        exact ⟨_, List.mem_append_right _ (List.mem_singleton_self _), hb, hsink, rfl,
          LawfulEqOrd.compare_eq_iff_eq.mp hcmp⟩
      · exact hgrow (h.stored sink k m hk)
    · exact hgrow (h.stored sink k m hk)
  · intro m cause hmem
    exact (h.destroyed m cause hmem).imp fun _ => hgrow

theorem move (h : Recalled identity s) (hc : Coherent identity s) (hm : Move identity s t) :
    Recalled identity t := by
  have hgets := hm.outputs hc h.gets
  cases hm with
  | enter hpc hrun => exact h.of_same_locals rfl hgets
  | leave hpc hrun =>
    refine ⟨hgets, by simp [TaskLocals.teardown, TaskLocals.sentsOf], h.resent, ?_⟩
    intro msg cause hmem
    rcases List.mem_append.mp hmem with hmem | hmem
    · exact h.destroyed msg cause hmem
    · -- what the teardown deletes is in an entry of `sents`
      obtain ⟨m, hm, heq⟩ := List.mem_map.mp hmem
      cases heq
      obtain ⟨sink, k, hk⟩ := mem_nestedValues.mp hm
      obtain rfl := hc.keyed sink k msg hk
      exact ⟨sink, h.stored sink _ msg hk⟩
  | idle hpc hq => exact h.of_same_locals rfl hgets
  | take req rest hpc hq => exact h.of_same_locals rfl hgets
  | getFound req socket hpc hb hs => exact h.of_same_locals rfl hgets
  | getFresh req hpc hb hs =>
    refine ⟨hgets, ?_, by simpa using h.resent, by simpa using h.destroyed⟩
    simpa only [hc.sentsOf_openSocket, TaskLocals.handled_openSocket] using h.stored
  | del req hpc hb =>
    refine h.of_finish (by simp) ?_ (by simp +contextual) ?_ hgets
    · intro sink k msg hk
      rw [TaskLocals.sentsOf_deleteMsg] at hk
      split at hk
      · rw [ExtTreeMap.getElem?_erase] at hk
        split at hk
        · cases hk
        · exact hk
      · exact hk
    · intro msg cause hmem
      simp only [TaskLocals.destroyed_deleteMsg, List.mem_append, Option.mem_toList,
        Option.map_eq_some_iff, Prod.mk.injEq] at hmem
      apply hmem.imp_right
      rintro ⟨m, hm, rfl, -⟩
      exact ⟨req.sink, hc.keyed _ _ _ hm ▸ hm⟩
  | recover req l hpc hb hl =>
    rw [hc.recoverMsg_eq req] at hl
    cases hl
    refine h.of_finish rfl (fun _ _ _ => id) ?_ (fun _ _ => .inl) hgets
    intro tr htr
    apply (List.mem_append.mp htr).imp_right
    intro htr
    rw [hc.recovered_eq] at htr
    obtain ⟨m, hm, rfl⟩ := List.mem_map.mp htr
    obtain ⟨k, hk⟩ := mem_values.mp hm
    exact hc.keyed _ _ _ hk ▸ hk
  | recoverEnd req hpc hb hl => exact h.of_same_locals rfl hgets
  | ignore req hpc hb =>
    exact h.of_finish rfl (fun _ _ _ => id) (fun _ => .inl) (fun _ _ => .inl) hgets
  | expire req socket hpc hq => exact h.of_same_locals rfl hgets
  | pop req socket msg rest hpc hq => exact h.of_same_locals rfl hgets
  | again req socket hpc hrun => exact h.of_same_locals rfl hgets
  | giveUp req socket hpc hrun => exact h.of_same_locals rfl hgets
  | sendUnset req socket hpc => exact h.of_same_locals rfl hgets
  | send req socket msg hpc =>
    obtain ⟨hb, -⟩ := hc.serving req socket (by simp [hpc, Pc.serving])
    refine ⟨hgets, h.stored, fun tr htr hne => ?_, h.destroyed⟩
    rcases List.mem_append.mp htr with htr | htr
    · exact h.resent tr htr hne
    · cases List.mem_singleton.mp htr
      exact absurd hb hne
  | store req socket msg hpc => exact h.store hc hpc hgets
  | halted hpc => exact h

theorem step (h : Recalled identity s) (hc : Coherent identity s) {a : Label T}
    (hs : next identity s a = some t) : Recalled identity t := by
  cases a with
  | send msg => cases hs; exact h.of_same_locals rfl h.gets
  | recvRequest req => cases hs; exact h.of_same_locals rfl h.gets
  | task => cases hs; exact h.move hc (move_taskThread identity s)
  | stop => cases hs; exact h.of_same_locals rfl h.gets

end Recalled

theorem recalled_reachable {s : Topic T} (h : Reachable (next identity) {} s) :
    Recalled identity s :=
  h.invariant_with (fun _ hu => coherent_reachable hu) recalled_initial
    fun _ _ _ hc hu hv => hu.step hc hv

/-- The condition on a step: a GET whose wait has expired finds `running_` set. -/
def served (s : Topic T) : Label T → Bool
  | .task => match s.pc with
    | .getExpired _ _ => s.running
    | _ => true
  | _ => true

/-- The thread uses only messages it took: no pointer is used that was never assigned, the
messages taken are the front of those passed to `send`, and every call of `send_msg`, `store_msg`
and `delete` was made with a message that a GET had taken. -/
structure UsesTaken (identity : UInt64) (s : Topic T) : Prop extends Recalled identity s where
  defined : s.pc ≠ .undefined
  taken : s.produced = s.locals.handled.filterMap (·.msg) ++ (s.pc.inHand ++ s.ready)

/-- While every GET is served, the local variable `msg` is assigned before it is used. -/
theorem assigned_reachable {s : Topic T}
    (h : Reachable (guarded (fun u a => served u a = true) (next identity)) {} s) :
    (∀ req socket, s.pc ≠ .getSend req socket none) ∧ s.pc ≠ .undefined := by
  refine h.invariant_with (J := Coherent identity)
    (I := fun u => (∀ req socket, u.pc ≠ .getSend req socket none) ∧ u.pc ≠ .undefined)
    (fun u hu => coherent_reachable hu.of_guarded) (by simp) ?_
  intro u a v hc hu hv
  obtain ⟨ha, hs⟩ := guarded_eq_some.mp hv
  cases a with
  | send msg => cases hs; exact hu
  | recvRequest req => cases hs; exact hu
  | stop => cases hs; exact hu
  | task =>
    cases hs
    have hm := move_taskThread identity u
    generalize taskThread identity u = v at hm ⊢
    cases hm with
    | giveUp req socket hpc hrun => simp [served, hpc, hrun] at ha
    | recoverEnd req hpc hb hl => simp [hc.recoverMsg_eq req] at hl
    | sendUnset req socket hpc => exact absurd hpc (hu.1 req socket)
    | halted hpc => exact hu
    | _ => simp

/-- As long as no GET leaves its wait after `stop()` without a message, only messages taken from
the ready queue are used; a GET that does leave it so goes on to use an unassigned pointer. -/
theorem served_gets_use_taken_messages :
    (∀ s : Topic T, Reachable (guarded (fun u a => served u a = true) (next identity)) {} s →
      UsesTaken identity s) ∧
    ∀ (s : Topic T) (req : RequestMessage) (socket : Socket), Reachable (next identity) {} s →
      s.pc = .getExpired req socket → s.running = false →
        ¬ UsesTaken identity (taskThread identity (taskThread identity s)) := by
  constructor
  · intro s h
    have hdefined := (assigned_reachable h).2
    exact
      { recalled_reachable h.of_guarded with
        defined := hdefined
        taken := (conserved_reachable h.of_guarded hdefined).messages }
  · intro s req socket _ hpc hrun hused
    exact hused.defined (by simp [taskThread, hpc, hrun])

/-- A GET that is served while `stop()` comes, and the teardown after it. -/
private def servedSchedule : List (Label ByteMessage) :=
  [.send (.ofBytes [1]), .recvRequest (getRequest [83])] ++ List.replicate 4 .task ++ [.stop] ++
    List.replicate 3 .task

theorem served_gets_use_taken_messages_example :
    ∃ s, run (guarded (fun u a => served u a = true) (next 7)) {} servedSchedule = some s ∧
      s.locals.destroyed = [(.ofBytes [1], .teardown)] ∧ UsesTaken 7 s := by
  have hdestroyed : (run (guarded (fun u a => served u a = true) (next 7)) {}
      servedSchedule).map (fun s => s.locals.destroyed) =
        some [(.ofBytes [1], .teardown)] := by decide +kernel
  obtain ⟨s, hs, hd⟩ := Option.map_eq_some_iff.mp hdestroyed
  exact ⟨s, hs, hd, served_gets_use_taken_messages.1 s ⟨_, hs⟩⟩

/-- A GET waits on an empty queue, `stop()` comes, and the thread sends through a pointer that was
never assigned. -/
theorem stopped_get_uses_unset_message :
    ¬ ∀ s : Topic ByteMessage, Reachable (next 7) {} s → UsesTaken 7 s := by
  intro h
  have hundefined : (run (next 7) {} ([.recvRequest (getRequest [83])] ++ List.replicate 4 .task ++
      [.stop, .task, .task] : List (Label ByteMessage))).map (fun s => s.pc) =
        some .undefined := by decide +kernel
  obtain ⟨s, hs, hpc⟩ := Option.map_eq_some_iff.mp hundefined
  exact (h s ⟨_, hs⟩).defined hpc

end MessagePass.SourceTasks
