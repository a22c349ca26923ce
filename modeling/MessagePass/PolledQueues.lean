import MessagePass.SinkQueues

/-!
# Polling the queues of a topic

The overload of `get_msg` without a source walks over the queues of a topic in the order of their
hashes, from the first one or from a given source to the end of the map. Its result variable is
set in the body of the loop only, and the walk does not come round to the sources before the start.
-/
namespace MessagePass.SinkQueues
open Std RequestMessages ReceiveQueues

variable {T : Type}

/-- What the call returns, what it stores in `*msg`, and the sink it leaves. -/
structure Polled (T : Type) where
  ret : Bool
  msg : Option T
  sink : Sink T

namespace Sink
variable (s : Sink T)

def take (topic : Str) (source : UInt64) (queue : ℕ) (msg : T) (rest : List T) : Sink T :=
  { s with
    contents := Function.update s.contents queue rest
    fetched := s.fetched ++ [(topic, source, msg)] }

/-- The loop from an iterator to the end of the map, with the result variable as it stands. -/
def pollFrom (topic : Str) : List (UInt64 × Option ℕ) → Bool → Polled T
  | [], ret => ⟨ret, none, s⟩
  | (_, none) :: _, ret => ⟨ret, none, { s with undefined := true }⟩
  | (source, some queue) :: entries, _ => match s.contents queue with
    | [] => pollFrom topic entries false
    | msg :: rest => ⟨true, some msg, s.take topic source queue msg rest⟩

def entries (topic : Str) : List (UInt64 × Option ℕ) := (s.tableOf topic).queues.toList

/-- The entries the loop walks over: from `begin()`, or from `find(start)`, which is `end()` when
the source is unknown. -/
def walk (hash : Str → UInt64) (topic source : Str) : List (UInt64 × Option ℕ) :=
  if source = [] then s.entries topic
  else (s.entries topic).dropWhile fun entry => entry.1 ≠ hash source

def skipped (hash : Str → UInt64) (topic source : Str) : List (UInt64 × Option ℕ) :=
  if source = [] then []
  else (s.entries topic).takeWhile fun entry => entry.1 ≠ hash source

/-- The polling `get_msg`. The uninitialised `ret` is indeterminate; `operator[]` inserts an empty
map for an unknown topic. -/
def pollMsg (hash : Str → UInt64) (topic source : Str) (indeterminate : Bool) : Polled T :=
  { s with recvs := s.recvs.insert topic (s.tableOf topic).queues }.pollFrom topic
    (s.walk hash topic source) indeterminate

/-- One full round over the queues of a topic, from the given source or from the first one. -/
def round (hash : Str → UInt64) (topic source : Str) : List (UInt64 × Option ℕ) :=
  s.walk hash topic source ++ s.skipped hash topic source

def Dry (entry : UInt64 × Option ℕ) : Prop := ∀ queue, entry.2 = some queue → s.contents queue = []

/-- What the call promises: true exactly when some queue of the topic holds a message; the head of
the first such queue in the round is taken then, and nothing is changed otherwise. -/
structure VisitsRound (hash : Str → UInt64) (topic source : Str) (polled : Polled T) : Prop where
  returns : polled.ret = true ↔ ∃ entry ∈ s.entries topic, ¬ s.Dry entry
  takes : polled.ret = true → ∃ before owner queue after msg rest,
    s.round hash topic source = before ++ (owner, some queue) :: after ∧
      (∀ entry ∈ before, s.Dry entry) ∧ s.contents queue = msg :: rest ∧
      polled.msg = some msg ∧ polled.sink = s.take topic owner queue msg rest
  keeps : polled.ret = false → polled.msg = none ∧ polled.sink = s

/-- The walk meets a first message, or every queue on it is empty. -/
theorem pollFrom_cases (topic : Str) {entries : List (UInt64 × Option ℕ)} (ret : Bool)
    (hobject : ∀ entry ∈ entries, entry.2 ≠ none) :
    ((∀ entry ∈ entries, s.Dry entry) ∧ s.pollFrom topic entries ret =
      ⟨if entries = [] then ret else false, none, s⟩) ∨
    ∃ before owner queue after msg rest, entries = before ++ (owner, some queue) :: after ∧
      (∀ entry ∈ before, s.Dry entry) ∧ s.contents queue = msg :: rest ∧
      s.pollFrom topic entries ret = ⟨true, some msg, s.take topic owner queue msg rest⟩ := by
  induction entries generalizing ret with
  | nil => exact .inl ⟨by simp, rfl⟩
  | cons entry entries ih =>
    obtain ⟨owner, object⟩ := entry
    have hrest := fun e he => hobject e (List.mem_cons_of_mem _ he)
    cases object with
    | none => exact absurd rfl (hobject _ List.mem_cons_self)
    | some queue =>
      cases hcontents : s.contents queue with
      | cons msg rest =>
        exact .inr ⟨[], owner, queue, entries, msg, rest, rfl, by simp, hcontents,
          by simp [pollFrom, hcontents]⟩
      | nil =>
        have hdry : s.Dry (owner, some queue) := fun q hq => Option.some.inj hq ▸ hcontents
        have hpoll : s.pollFrom topic ((owner, some queue) :: entries) ret =
          s.pollFrom topic entries false := by simp [pollFrom, hcontents]
        rw [hpoll]
        rcases ih false hrest with ⟨hall, heq⟩ | ⟨before, o, q, after, m, r, rfl, hbefore, hq, heq⟩
        · refine .inl ⟨List.forall_mem_cons.mpr ⟨hdry, hall⟩, heq.trans ?_⟩
          simp
        · exact .inr ⟨(owner, some queue) :: before, o, q, after, m, r, rfl,
            List.forall_mem_cons.mpr ⟨hdry, hbefore⟩, hq, heq⟩

theorem skipped_append_walk (hash : Str → UInt64) (topic source : Str) :
    s.skipped hash topic source ++ s.walk hash topic source = s.entries topic := by
  unfold skipped walk
  split
  · rfl
  · exact List.takeWhile_append_dropWhile

theorem mem_entries (hash : Str → UInt64) {topic source : Str} {entry : UInt64 × Option ℕ} :
    entry ∈ s.entries topic ↔
      entry ∈ s.walk hash topic source ∨ entry ∈ s.skipped hash topic source := by
  rw [← s.skipped_append_walk hash topic source, List.mem_append, or_comm]

theorem insert_known {topic : Str} (h : topic ∈ s.recvs) :
    s.recvs.insert topic (s.tableOf topic).queues = s.recvs := by
  obtain ⟨queues, hqueues⟩ :=
    Option.isSome_iff_exists.mp (ExtTreeMap.mem_iff_isSome_getElem?.mp h)
  apply ExtTreeMap.ext_getElem?
  intro other
  rw [ExtTreeMap.getElem?_insert]
  split <;> rename_i heq
  · rw [← LawfulEqOrd.eq_of_compare heq, hqueues]
    simp [tableOf, ExtTreeMap.getD_eq_getD_getElem?, hqueues]
  · rfl

theorem known_of_entries {topic : Str} (h : s.entries topic ≠ []) : topic ∈ s.recvs := by
  by_contra hunknown
  simp [entries, tableOf, ExtTreeMap.getD_eq_fallback hunknown] at h

/-- The loop has a source to start from, and it meets a message, or there is none before its
start either. -/
def Covered (hash : Str → UInt64) (topic source : Str) : Prop :=
  s.walk hash topic source ≠ [] ∧ ((∃ entry ∈ s.walk hash topic source, ¬ s.Dry entry) ∨
    ∀ entry ∈ s.skipped hash topic source, s.Dry entry)

variable {s} {hash : Str → UInt64} {topic source : Str}

theorem Covered.visitsRound (h : s.Covered hash topic source)
    (hobject : ∀ entry ∈ s.entries topic, entry.2 ≠ none) (indeterminate : Bool) :
    s.VisitsRound hash topic source (s.pollMsg hash topic source indeterminate) := by
  have hwalk : ∀ entry ∈ s.walk hash topic source, entry ∈ s.entries topic :=
    fun entry hmem => (s.mem_entries hash).mpr (.inl hmem)
  have hentries : s.entries topic ≠ [] := fun hnil =>
    h.1 (List.append_eq_nil_iff.mp ((s.skipped_append_walk hash topic source).trans hnil)).2
  rw [pollMsg, s.insert_known (s.known_of_entries hentries)]
  rcases s.pollFrom_cases topic indeterminate fun entry hmem => hobject entry (hwalk entry hmem)
    with ⟨hdry, hpoll⟩ | ⟨before, owner, queue, after, msg, rest, hsplit, hbefore, hqueue, hpoll⟩
  · rw [hpoll, if_neg h.1]
    have hskipped := h.2.resolve_left fun ⟨entry, hmem, hwet⟩ => hwet (hdry entry hmem)
    refine ⟨⟨by simp, ?_⟩, by simp, fun _ => ⟨rfl, rfl⟩⟩
    rintro ⟨entry, hmem, hwet⟩
    rcases (s.mem_entries hash).mp hmem with hmem | hmem
    · exact absurd (hdry entry hmem) hwet
    · exact absurd (hskipped entry hmem) hwet
  · rw [hpoll]
    refine ⟨⟨fun _ => ?_, fun _ => rfl⟩, fun _ => ?_, by simp⟩
    · refine ⟨(owner, some queue), hwalk _ (by simp [hsplit]), fun hdry => ?_⟩
      simp [hdry queue rfl] at hqueue
    · exact ⟨before, owner, queue, after ++ s.skipped hash topic source, msg, rest,
        by simp [round, hsplit], hbefore, hqueue, rfl, rfl⟩

/-- For every topic map without null pointers, polling visits every source once, whatever the
uninitialised result variable holds, exactly if its walk covers the sources with messages. -/
theorem poll_visits_round_iff (hobject : ∀ entry ∈ s.entries topic, entry.2 ≠ none) :
    (∀ indeterminate, s.VisitsRound hash topic source
      (s.pollMsg hash topic source indeterminate)) ↔ s.Covered hash topic source := by
  refine ⟨fun h => ?_, fun h => h.visitsRound hobject⟩
  have hwalk : s.walk hash topic source ≠ [] := by
    intro hnil
    have hpoll : (s.pollMsg hash topic source true).ret = true ∧
        (s.pollMsg hash topic source true).msg = none := by simp [pollMsg, hnil, pollFrom]
    obtain ⟨_, _, _, _, _, _, -, -, -, hmsg, -⟩ := (h true).takes hpoll.1
    exact absurd (hpoll.2.symm.trans hmsg) (by simp)
  refine ⟨hwalk, or_iff_not_imp_left.mpr fun hnone entry hmem => ?_⟩
  by_contra hwet
  have hentries : s.entries topic ≠ [] :=
    List.ne_nil_of_mem ((s.mem_entries hash).mpr (.inr hmem))
  have htrue := (h false).returns.mpr ⟨entry, (s.mem_entries hash).mpr (.inr hmem), hwet⟩
  rw [pollMsg, s.insert_known (s.known_of_entries hentries)] at htrue
  rcases s.pollFrom_cases topic false fun entry hmem =>
      hobject entry ((s.mem_entries hash).mpr (.inl hmem))
    with ⟨-, hpoll⟩ | ⟨before, owner, queue, after, msg, rest, hsplit, -, hqueue, -⟩
  · rw [hpoll] at htrue
    simp at htrue
  · refine hnone ⟨(owner, some queue), by simp [hsplit], fun hdry => ?_⟩
    simp [hdry queue rfl] at hqueue

end Sink

private def twoSources (first second : List ℕ) : Sink ℕ where
  topics := [[116]]
  recvs := (∅ : ExtTreeMap Str QueueMap).insert [116]
    ((∅ : QueueMap).insert 1 (some 0) |>.insert 2 (some 1))
  created := 2
  contents queue := if queue = 0 then first else if queue = 1 then second else []

private def nameLength (name : Str) : UInt64 := UInt64.ofNat name.length

theorem poll_visits_round_iff_example :
    (twoSources [7] [8]).VisitsRound nameLength [116] [97, 97]
      ((twoSources [7] [8]).pollMsg nameLength [116] [97, 97] false) := by
  have hwalk : (twoSources [7] [8]).walk nameLength [116] [97, 97] = [(2, some 1)] := by
    decide +kernel
  have hobject : ∀ entry ∈ (twoSources [7] [8]).entries [116], entry.2 ≠ none := by
    decide +kernel
  refine (Sink.poll_visits_round_iff hobject).mpr
    ⟨by simp [hwalk], .inl ⟨(2, some 1), ?_, ?_⟩⟩ false
  · simp [hwalk]
  · exact fun hdry => absurd (hdry 1 rfl) (by decide)

/-- Polling from the second source does not come round to the message of the first one. -/
theorem poll_misses_earlier_source :
    let s := twoSources [7] []
    let polled := s.pollMsg nameLength [116] [97, 97] false
    polled.ret = false ∧ polled.sink.contents 0 = [7] ∧
      ¬ s.VisitsRound nameLength [116] [97, 97] polled := by
  refine ⟨by decide +kernel, by decide +kernel, fun h => ?_⟩
  have hret : ((twoSources [7] []).pollMsg nameLength [116] [97, 97] false).ret = false := by
    decide +kernel
  have hmem : ((1 : UInt64), some 0) ∈ (twoSources [7] []).entries [116] := by decide +kernel
  have htrue := h.returns.mpr ⟨_, hmem, fun hdry => absurd (hdry 0 rfl) (by decide)⟩
  exact absurd (hret.symm.trans htrue) (by decide)

end MessagePass.SinkQueues
