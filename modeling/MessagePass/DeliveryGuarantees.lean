import MessagePass.RequestBookkeeping
import MessagePass.DeliveryNetwork

/-!
# At-least-once delivery and the safety of deletion

A message that was passed to `send` leaves the source only through a DEL, and a DEL is issued
only after a `get_msg` with its key. With one source and distinct keys this is at-least-once
delivery across any number of sink crashes. With several sources a DEL reaches all of them, and
the key is all that it carries.
-/
namespace MessagePass.DeliveryNetwork
open Std RequestMessages DataMessages OrderedMaps LabelledRuns SourceTasks

variable {ι T : Type} [IDataMessage T] {d : Deployment ι} {s : Network ι T}

/-- The source still has the message: in its ready queue, in the hand of a GET, or in `sents` of
the sink under its own key. -/
def Held (s : Topic T) (sink : Str) (msg : T) : Prop :=
  msg ∈ s.ready ∨ msg ∈ s.pc.inHand ∨ (s.locals.sentsOf sink)[key msg]? = some msg

namespace Provenance

theorem conserved (h : Provenance d s) (i : ι) : Conserved (s.source i) :=
  conserved_reachable (h.sources i) ((coherent_reachable (h.sources i)).defined (h.running i)).1

theorem handled (h : Provenance d s) {i : ι} {e : Handled T}
    (he : e ∈ (s.source i).locals.handled) : e.req ∈ s.topicServer := by
  apply h.consumed i
  rw [(h.conserved i).requests]
  exact List.mem_append_left _ (List.mem_map_of_mem he)

/-- A message that a GET transmitted is kept under its key until a DEL with its key is issued or
a later GET stores a message with the same key. -/
theorem kept (h : Provenance d s) {i : ι} {before after : List (Handled T)} {e : Handled T}
    {msg : T} (hsplit : (s.source i).locals.handled = before ++ e :: after)
    (hmsg : e.msg = some msg)
    (hlast : ∀ e' ∈ after, e'.msg.map key ≠ some (key msg))
    (hissued : ∀ j, (j, key msg) ∉ s.issued) :
    ((s.source i).locals.sentsOf d.sink)[key msg]? = some msg := by
  have hmem : e ∈ (s.source i).locals.handled := by simp [hsplit]
  have hget : e.req.branch = .get := ((h.conserved i).popped e hmem).mp (by simp [hmsg])
  have hsink : e.req.sink = d.sink := (h.requests _ (h.handled hmem)).1
  rw [(recorded_reachable (h.sources i) (h.running i)).kept]
  refine ⟨before, e, after, hsplit, ⟨hget, hsink, hmsg, rfl⟩, fun e' he' => ⟨?_, ?_⟩⟩
  · rintro m ⟨-, -, hm, hk⟩
    exact hlast e' he' (by simp [hm, hk])
  · rintro ⟨hdel, -, hk⟩
    have hlog : e' ∈ (s.source i).locals.handled := by simp [hsplit, he']
    obtain ⟨j, hj⟩ := (h.requests _ (h.handled hlog)).2 hdel
    exact hissued j (hk ▸ hj)

/-- At a source whose messages have distinct keys, nothing but a DEL with its key makes a message
disappear. -/
theorem held_or_deleted (h : Provenance d s) {i : ι}
    (hkeys : ((s.source i).produced.map key).Nodup) {msg : T}
    (hmsg : msg ∈ (s.source i).produced) :
    Held (s.source i) d.sink msg ∨ ∃ j, (j, key msg) ∈ s.issued := by
  rw [(h.conserved i).messages] at hmsg hkeys
  rcases List.mem_append.mp hmsg with hpast | hnow
  · by_cases hissued : ∃ j, (j, key msg) ∈ s.issued
    · exact .inr hissued
    · obtain ⟨e, he, hmsg⟩ := List.mem_filterMap.mp hpast
      obtain ⟨before, after, hsplit⟩ := List.append_of_mem he
      refine .inl (.inr (.inr (h.kept hsplit hmsg ?_ (not_exists.mp hissued))))
      -- a later GET with this key would repeat a key
      intro e' he' hk
      obtain ⟨m, hm, hkey⟩ := Option.map_eq_some_iff.mp hk
      rw [hsplit] at hkeys
      simp only [List.filterMap_append, List.filterMap_cons, hmsg, List.map_append, List.map_cons,
        List.append_assoc, List.cons_append] at hkeys
      have hfresh := (List.nodup_cons.mp (List.nodup_append.mp hkeys).2.1).1
      exact hfresh (List.mem_append_left _ (hkey ▸ List.mem_map_of_mem
        (List.mem_filterMap.mpr ⟨e', he', hm⟩)))
  · rcases List.mem_append.mp hnow with hhand | hready
    · exact .inl (.inr (.inl hhand))
    · exact .inl (.inl hready)

theorem recovers (h : Provenance d s) {i : ι} {req : RequestMessage}
    (hpc : (s.source i).pc = .dispatch req) (hb : req.branch = .recover) :
    (taskThread (d.identity i) (s.source i)).locals.sent = (s.source i).locals.sent ++
      (values ((s.source i).locals.sentsOf d.sink)).map fun msg =>
        ⟨req, ⟨d.identity i, d.sink⟩, msg⟩ := by
  have hc := coherent_reachable (h.sources i)
  have hsink : req.sink = d.sink := by
    refine (h.requests req (h.consumed i req ?_)).1
    exact (traced_reachable (h.sources i)).genuine.requests req (by simp [hpc, Pc.inFlight])
  simp only [taskThread, hpc, hb, hc.recoverMsg_eq req, hc.recovered_eq, hsink,
    TaskLocals.sent_finish]

end Provenance

/-- The message was obtained, and an incarnation of the application that knows of it issued its
DEL. `remembers` ties the two: it says which incarnations know what the one that called `get_msg`
obtained. With `(==)` the message must be obtained and deleted by one incarnation; when a restarted
application remembers what an earlier one obtained, the two may be different incarnations. -/
def ObtainedAndDeleted (d : Deployment ι) (s : Network ι T) (msg : T) : Prop :=
  ∃ o ∈ s.obtained, ∃ j, o.msg = msg ∧ (j, key msg) ∈ s.issued ∧ d.remembers o.incarnation j = true

/-- What one source promises to one sink: a message is held until the application has obtained and
deleted it, and a RECOVER transmits all that was transmitted before and is held. -/
structure AtLeastOnce (d : Deployment Unit) (s : Network Unit T) : Prop where
  held : ∀ msg ∈ (s.source ()).produced,
    ¬ ObtainedAndDeleted d s msg → Held (s.source ()) d.sink msg
  recover : ∀ req, (s.source ()).pc = .dispatch req → req.branch = .recover →
    (taskThread (d.identity ()) (s.source ())).locals.sent = (s.source ()).locals.sent ++
      (values ((s.source ()).locals.sentsOf d.sink)).map fun msg =>
        ⟨req, ⟨d.identity (), d.sink⟩, msg⟩

theorem at_least_once {d : Deployment Unit} {s : Network Unit T}
    (h : Reachable (networkNext d) {} s) (hkeys : ((s.source ()).produced.map key).Nodup) :
    AtLeastOnce d s := by
  have hp := provenance_reachable h
  refine ⟨fun msg hmsg hkept => ?_, fun req => hp.recovers⟩
  apply (hp.held_or_deleted hkeys hmsg).resolve_right
  rintro ⟨j, hj⟩
  obtain ⟨o, ho, hrem, hk⟩ := hp.issued j _ hj
  have heq : o.msg = msg := List.inj_on_of_nodup_map hkeys (hp.obtained o ho) hmsg hk
  exact hkept ⟨o, ho, j, heq, hj, hrem⟩

private def forgetful (ι : Type) (identity : ι → UInt64) : Deployment ι where
  sink := [83]
  identity := identity
  remembers a b := a == b

private def keyed (k : UInt8) (rest : List UInt8) : ByteMessage :=
  .ofBytes ([k, 0, 0, 0, 0, 0, 0, 0] ++ rest)

/-- The only frame of a message is lost in a crash; the restarted sink's RECOVER has just been
dequeued. -/
private def crashSchedule : List (NetworkLabel Unit ByteMessage) :=
  [.start, .send () (keyed 1 []), .send () (keyed 2 []), .sendGetRequest, .consume () 1] ++
    List.replicate 6 (.task ()) ++ [.receive 0, .crash, .start, .consume () 2] ++
    List.replicate 2 (.task ())

theorem at_least_once_example :
    ∃ s, run (networkNext (forgetful Unit fun _ => 7)) {} crashSchedule = some s ∧
      s.incarnation = 2 ∧ (s.source ()).pc = .dispatch (recoverRequest [83]) ∧
      ((s.source ()).produced.map key).Nodup ∧ AtLeastOnce (forgetful Unit fun _ => 7) s := by
  have hrun : (run (networkNext (forgetful Unit fun _ => 7)) {} crashSchedule).map
      (fun s => (s.incarnation, (s.source ()).pc, (s.source ()).produced)) =
        some (2, .dispatch (recoverRequest [83]), [keyed 1 [], keyed 2 []]) := by decide +kernel
  obtain ⟨s, hs, heq⟩ := Option.map_eq_some_iff.mp hrun
  simp only [Prod.mk.injEq] at heq
  have hkeys : ((s.source ()).produced.map key).Nodup := by rw [heq.2.2]; decide
  exact ⟨s, hs, heq.1, heq.2.1, hkeys, at_least_once ⟨_, hs⟩ hkeys⟩

/-- What any number of sources promise: a message is destroyed only after the application obtained
a message with the same key, from some source, and issued its DEL; a message that was transmitted
stays recoverable until then, or until the same source stores another one under its key. -/
structure DeletionSafety (d : Deployment ι) (s : Network ι T) : Prop where
  destroyed : ∀ i msg cause, (msg, cause) ∈ (s.source i).locals.destroyed →
    ∃ j, (j, key msg) ∈ s.issued ∧
      ∃ o ∈ s.obtained, d.remembers o.incarnation j = true ∧ key o.msg = key msg
  kept : ∀ i before e after msg, (s.source i).locals.handled = before ++ e :: after →
    e.msg = some msg → (∀ e' ∈ after, e'.msg.map key ≠ some (key msg)) →
    (∀ j, (j, key msg) ∉ s.issued) → ((s.source i).locals.sentsOf d.sink)[key msg]? = some msg
  recover : ∀ i req, (s.source i).pc = .dispatch req → req.branch = .recover →
    (taskThread (d.identity i) (s.source i)).locals.sent = (s.source i).locals.sent ++
      (values ((s.source i).locals.sentsOf d.sink)).map fun msg =>
        ⟨req, ⟨d.identity i, d.sink⟩, msg⟩

theorem deletion_safety [DecidableEq ι] (h : Reachable (networkNext d) {} s) :
    DeletionSafety d s := by
  have hp := provenance_reachable h
  refine ⟨fun i msg cause hmem => ?_, fun i _ _ _ _ => hp.kept, fun i _ => hp.recovers⟩
  have hcause := (traced_reachable (hp.sources i)).causes msg cause hmem
  cases cause with
  | del req =>
    obtain ⟨harrived, hb, hk, -⟩ := hcause
    obtain ⟨j, hj⟩ := (hp.requests req (hp.consumed i req harrived)).2 hb
    exact ⟨j, hk ▸ hj, hp.issued j (key msg) (hk ▸ hj)⟩
  | teardown =>
    exact absurd hcause ((coherent_reachable (hp.sources i)).defined (hp.running i)).2.1
  | destructor => exact absurd hcause (by simp [Justified])

/-- Two sources transmit a message with the same key each. The application obtains the one of the
first source and issues its DEL, which the second source processes. -/
private def sharedSchedule : List (NetworkLabel Bool ByteMessage) :=
  [.start, .send false (keyed 1 [10]), .send true (keyed 1 [20]), .sendGetRequest,
    .consume false 1, .consume true 1] ++ List.replicate 6 (.task false) ++
    List.replicate 6 (.task true) ++ [.receive 0, .getMsg false, .sendDelRequest 1,
    .consume true 2] ++ List.replicate 3 (.task true)

private theorem sharedSchedule_result :
    (run (networkNext (forgetful Bool fun i => if i then 8 else 7)) {} sharedSchedule).map
      (fun s => (s.obtained, s.inFlight, (s.source true).locals.destroyed)) =
        some ([⟨1, false, keyed 1 [10]⟩], [(true, keyed 1 [20])],
          [(keyed 1 [20], .del (delRequest [83] 1))]) := by decide +kernel

theorem deletion_safety_example :
    ∃ s, run (networkNext (forgetful Bool fun i => if i then 8 else 7)) {} sharedSchedule = some s ∧
      (s.source true).locals.destroyed = [(keyed 1 [20], .del (delRequest [83] 1))] ∧
      DeletionSafety (forgetful Bool fun i => if i then 8 else 7) s := by
  obtain ⟨s, hs, heq⟩ := Option.map_eq_some_iff.mp sharedSchedule_result
  simp only [Prod.mk.injEq] at heq
  exact ⟨s, hs, heq.2.2, deletion_safety ⟨_, hs⟩⟩

/-- A source can destroy a message that the application has not obtained and that is still in
flight: the DEL was meant for the message of another source. -/
theorem unobtained_message_destroyed :
    ¬ ∀ s : Network Bool ByteMessage,
      Reachable (networkNext (forgetful Bool fun i => if i then 8 else 7)) {} s →
        ∀ i msg req, (msg, Cause.del req) ∈ (s.source i).locals.destroyed →
          ∃ o ∈ s.obtained, o.source = i ∧ o.msg = msg := by
  intro h
  obtain ⟨s, hs, heq⟩ := Option.map_eq_some_iff.mp sharedSchedule_result
  simp only [Prod.mk.injEq] at heq
  obtain ⟨o, ho, hsource, -⟩ := h s ⟨_, hs⟩ true (keyed 1 [20]) (delRequest [83] 1)
    (by simp [heq.2.2])
  rw [heq.1] at ho
  cases List.mem_singleton.mp ho
  cases hsource

end MessagePass.DeliveryNetwork
