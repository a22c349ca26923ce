import MessagePass.TaskSchedules

/-!
# Requests held up behind a waiting GET

The GET branch waits for data inside the request loop, so a RECOVER or DEL that stands behind
more GETs than there are messages is never reached, however long the thread runs. This file
says exactly which queue contents are processed to the last RECOVER and DEL.
-/
namespace MessagePass.SourceTasks
open Std RequestMessages DataMessages LabelledRuns

variable {T : Type} [IDataMessage T] {identity : UInt64}

/-- What the thread has still to process: the request it holds, then its queue. -/
def Topic.unprocessed (s : Topic T) : List RequestMessage := s.pc.inFlight ++ s.requests

def Topic.available (s : Topic T) : List T := s.pc.inHand ++ s.ready

def NeedsNoData (req : RequestMessage) : Prop := req.branch = .del ∨ req.branch = .recover

/-- Between two states every RECOVER and every DEL that was queued has been processed. -/
def AllProcessed (s t : Topic T) : Prop :=
  ∃ done rest, t.locals.handled.map (·.req) = s.locals.handled.map (·.req) ++ done ∧
    s.unprocessed = done ++ rest ∧ ∀ req ∈ rest, ¬ NeedsNoData req

/-- Before every RECOVER and every DEL stand at most as many GETs as there are messages. -/
def EnoughReady (s : Topic T) : Prop :=
  ∀ i req, s.unprocessed[i]? = some req → NeedsNoData req →
    ((s.unprocessed.take i).filter fun r => r.branch = .get).length ≤ s.available.length

theorem split_iterate {s : Topic T} (h : Reachable (next identity) {} s)
    (hrun : s.running = true) (n : ℕ) :
    ∃ done : List (Handled T),
      ((taskThread identity)^[n] s).locals.handled = s.locals.handled ++ done ∧
      s.unprocessed = done.map (·.req) ++ ((taskThread identity)^[n] s).unprocessed ∧
      s.available = done.filterMap (·.msg) ++ ((taskThread identity)^[n] s).available ∧
      ∀ e ∈ done, e.msg.isSome = true ↔ e.req.branch = .get := by
  have ht := h.trans (reachable_iterate identity s n)
  obtain ⟨hr, ha, hp, done, hdone⟩ := iterate_inputs identity s n
  have hs := conserved_reachable h ((coherent_reachable h).defined hrun).1
  have hn := conserved_reachable ht ((coherent_reachable ht).defined (hr.trans hrun)).1
  refine ⟨done, hdone.symm, ?_, ?_, ?_⟩
  · have heq := hs.requests.symm.trans (ha.symm.trans hn.requests)
    rw [← hdone, List.map_append, List.append_assoc] at heq
    exact List.append_cancel_left heq
  · have heq := hs.messages.symm.trans (hp.symm.trans hn.messages)
    rw [← hdone, List.filterMap_append, List.append_assoc] at heq
    exact List.append_cancel_left heq
  · intro e he
    exact hn.popped e (hdone ▸ List.mem_append_right _ he)

theorem idle_cases {t : Topic T} (hc : Coherent identity t) (hidle : Idle t) :
    t.unprocessed = [] ∨
      ∃ req, req.branch = .get ∧ t.unprocessed = req :: t.requests ∧ t.available = [] := by
  have hserving := hc.serving
  unfold Idle at hidle
  split at hidle <;> rename_i hpc
  · exact .inl (by simp [Topic.unprocessed, hpc, hidle, Pc.inFlight])
  · exact .inl (by simp [Topic.unprocessed, hpc, hidle, Pc.inFlight])
  · rename_i req socket
    refine .inr ⟨req, (hserving req socket (by simp [hpc, Pc.serving])).1, ?_, ?_⟩ <;>
      simp [Topic.unprocessed, Topic.available, hpc, hidle, Pc.inFlight, Pc.inHand]
  · rename_i req socket
    refine .inr ⟨req, (hserving req socket (by simp [hpc, Pc.serving])).1, ?_, ?_⟩ <;>
      simp [Topic.unprocessed, Topic.available, hpc, hidle, Pc.inFlight, Pc.inHand]
  · exact hidle.elim

theorem enough_iff_of_cut {done rest : List RequestMessage} {get : RequestMessage} {available : ℕ}
    (hget : get.branch = .get) (hav : available = (done.filter fun r => r.branch = .get).length) :
    (∀ i req, (done ++ get :: rest)[i]? = some req → NeedsNoData req →
      (((done ++ get :: rest).take i).filter fun r => r.branch = .get).length ≤ available) ↔
      ∀ req ∈ rest, ¬ NeedsNoData req := by
  constructor
  · intro h req hmem hneeds
    obtain ⟨j, hj⟩ := List.mem_iff_getElem?.mp hmem
    have hget? : (done ++ get :: rest)[done.length + (j + 1)]? = some req := by
      rw [List.getElem?_append_right (Nat.le_add_right _ _), Nat.add_sub_cancel_left]
      exact hj
    have hle := h _ req hget? hneeds
    rw [List.take_length_add_append, List.take_succ_cons, List.filter_append, List.length_append,
      List.filter_cons] at hle
    simp only [hget, decide_true, if_true, List.length_cons] at hle
    omega
  · intro h i req hi hneeds
    by_cases hlt : i < done.length
    · rw [List.take_append_of_le_length hlt.le, hav]
      exact ((List.take_sublist i done).filter _).length_le
    · rw [List.getElem?_append_right (by omega)] at hi
      cases hk : i - done.length with
      | zero =>
        rw [hk] at hi
        cases hi
        simp [NeedsNoData, hget] at hneeds
      | succ k =>
        rw [hk, List.getElem?_cons_succ] at hi
        exact absurd hneeds (h req (List.mem_of_getElem? hi))

/-- Once the thread is idle, every RECOVER and every DEL has been processed exactly when none of
them stood behind more GETs than there were messages. -/
theorem processed_iff_enough_ready {s : Topic T} (h : Reachable (next identity) {} s)
    (hrun : s.running = true) {n : ℕ} (hidle : Idle ((taskThread identity)^[n] s)) :
    AllProcessed s ((taskThread identity)^[n] s) ↔ EnoughReady s := by
  obtain ⟨done, hh, hreq, hav, hpop⟩ := split_iterate h hrun n
  have hlen := (pairing_history identity done hpop).1
  have hprocessed : ∀ done' rest, ((taskThread identity)^[n] s).locals.handled.map (·.req) =
      s.locals.handled.map (·.req) ++ done' → s.unprocessed = done' ++ rest →
      rest = ((taskThread identity)^[n] s).unprocessed := by
    intro done' rest hd hr
    rw [hh, List.map_append] at hd
    rw [← List.append_cancel_left hd, hreq] at hr
    exact (List.append_cancel_left hr).symm
  have hiff : AllProcessed s ((taskThread identity)^[n] s) ↔
      ∀ req ∈ ((taskThread identity)^[n] s).unprocessed, ¬ NeedsNoData req := by
    constructor
    · rintro ⟨done', rest, hd, hr, hrest⟩
      rwa [← hprocessed done' rest hd hr]
    · intro hrest
      exact ⟨done.map (·.req), _, by rw [hh, List.map_append], hreq, hrest⟩
  have ht := h.trans (reachable_iterate identity s n)
  rw [hiff]
  rcases idle_cases (coherent_reachable ht) hidle with hnil | ⟨get, hget, hcut, hempty⟩
  · rw [hnil]
    refine ⟨fun _ i req hi _ => ?_, by simp⟩
    rw [hreq, hav, hnil, List.append_nil, List.length_append, ← hlen]
    exact (((List.take_sublist i _).filter _).length_le).trans (Nat.le_add_right _ _)
  · unfold EnoughReady
    rw [hreq, hcut, hav, hempty, List.append_nil]
    rw [enough_iff_of_cut hget hlen.symm]
    simp [NeedsNoData, hget]

end MessagePass.SourceTasks
