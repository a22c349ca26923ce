import MessagePass.LittleEndian
import MessagePass.OrderedMaps
import MessagePass.PolledQueues

/-!
# Null pointers in the maps of a sink

Every function of the sink that looks for a queue may meet a null pointer: some test for it, some
insert one by looking, and the destructor follows every pointer of `recvs_` without a test. The
operations may come in any order; the destructor runs last, when no thread is left.
-/
namespace MessagePass.SinkQueues
open Std RequestMessages ReceiveQueues LabelledRuns

variable {T : Type}

namespace Sink
variable (s : Sink T)

/-- The last part of an iteration of the loop for a fixed size: `operator[]` gives an unknown
source a null pointer, and the pointer is followed. -/
def receiveFixed (n : ℕ) (thread : ReceiveThread) (source : UInt64) (msg : T) : Sink T :=
  match thread.queues[source]? with
  | some (some queue) => { s with
      contents := Function.update s.contents queue (s.contents queue ++ [msg])
      received := s.received ++ [(thread.topic, source, msg)] }
  | some none => { s with undefined := true }
  | none => { s with
      threads := s.threads.set n { thread with queues := thread.queues.insert source none }
      undefined := true }

/-- The loop over the queues of one pair of the map: messages are taken until there are none. -/
def drainQueue (s : Sink T) : Option ℕ → Sink T
  | some queue => { s with contents := Function.update s.contents queue [] }
  | none => { s with undefined := true }

def drain : Sink T := (OrderedMaps.nestedValues s.recvs).foldl drainQueue s

def getMsgReturns (topic : Str) (source : UInt64) : Bool :=
  match (s.tableOf topic).queues[source]? with
  | some (some queue) => !(s.contents queue).isEmpty
  | _ => false

end Sink

/-- A sink object, until it is destroyed. -/
structure SinkObject (T : Type) where
  sink : Sink T
  destroyed : Bool := false

inductive ObjectLabel (T : Type) where
  | prepareSources (topic : Str) (sources : List Str)
  | start
  | enter (n : ℕ)
  | receive (n : ℕ) (source : UInt64) (msg : T)
  | getMsgOf (topic source : Str)
  | getMsg (topic : Str) (source : UInt64)
  | pollMsg (topic source : Str) (indeterminate : Bool)
  | stop
  | destroy

/-- A sink whose threads run the loop for a fixed size or for variable sizes. -/
def objectNext (recvFixed : Bool) (hash : Str → UInt64) (o : SinkObject T) (a : ObjectLabel T) :
    Option (SinkObject T) :=
  if o.destroyed then none else match a with
  | .prepareSources topic sources =>
      some { o with sink := o.sink.prepareSources topic (sources.map hash) }
  | .start => some { o with sink := o.sink.start }
  | .enter n => (sinkNext o.sink (.enter n)).map fun s => { o with sink := s }
  | .receive n source msg => match o.sink.threads[n]? with
    | some thread => if thread.endpoint.isSome then some { o with
          sink := if recvFixed then o.sink.receiveFixed n thread source msg
            else o.sink.receive n thread source msg }
        else none
    | none => none
  | .getMsgOf topic source => some { o with sink := o.sink.getMsg topic (hash source) }
  | .getMsg topic source => some { o with sink := o.sink.getMsg topic source }
  | .pollMsg topic source indeterminate =>
      some { o with sink := (o.sink.pollMsg hash topic source indeterminate).sink }
  | .stop => some { o with sink := { o.sink with threads := [] } }
  | .destroy => if o.sink.threads.isEmpty then some ⟨o.sink.drain, true⟩ else none

def ReturnsFalse (hash : Str → UInt64) (s : Sink T) : ObjectLabel T → Prop
  | .getMsgOf topic source => s.getMsgReturns topic (hash source) = false
  | .getMsg topic source => s.getMsgReturns topic source = false
  | .pollMsg topic source indeterminate => (s.pollMsg hash topic source indeterminate).ret = false
  | _ => False

/-- `get_msg` asks for sources that have an entry, or polls a topic that has one; in fixed mode a
thread receives only from sources in its map. -/
def Known (recvFixed : Bool) (hash : Str → UInt64) (o : SinkObject T) : ObjectLabel T → Prop
  | .getMsgOf topic source => hash source ∈ (o.sink.tableOf topic).queues
  | .getMsg topic source => source ∈ (o.sink.tableOf topic).queues
  | .pollMsg topic _ _ => topic ∈ o.sink.recvs
  | .receive n source _ =>
      recvFixed = true → ∀ thread ∈ o.sink.threads[n]?, source ∈ thread.queues
  | _ => True

instance (recvFixed : Bool) (hash : Str → UInt64) :
    ∀ (o : SinkObject T) a, Decidable (Known recvFixed hash o a)
  | _, .getMsgOf _ _ => inferInstanceAs (Decidable (_ ∈ _))
  | _, .getMsg _ _ => inferInstanceAs (Decidable (_ ∈ _))
  | _, .pollMsg _ _ _ => inferInstanceAs (Decidable (_ ∈ _))
  | _, .receive _ _ _ => inferInstanceAs (Decidable (_ → ∀ thread ∈ _, _))
  | _, .prepareSources _ _ => .isTrue trivial
  | _, .start => .isTrue trivial
  | _, .enter _ => .isTrue trivial
  | _, .stop => .isTrue trivial
  | _, .destroy => .isTrue trivial

def NonNull (queues : QueueMap) : Prop := ∀ source : UInt64, queues[source]? ≠ some none

namespace NonNull

theorem empty : NonNull ∅ := by simp [NonNull]

theorem insert {queues : QueueMap} (h : NonNull queues) (source : UInt64) (queue : ℕ) :
    NonNull (queues.insert source (some queue)) := by
  intro other
  rw [ExtTreeMap.getElem?_insert]
  split
  · simp
  · exact h other

theorem prepareSources {t : QueueTable} (h : NonNull t.queues) (sources : List UInt64) :
    NonNull (t.prepareSources sources).queues := by
  induction sources generalizing t with
  | nil => exact h
  | cons source sources ih => exact ih (h.insert source t.created)

theorem findOrInsert {t : QueueTable} (h : NonNull t.queues) (source : UInt64) :
    NonNull (t.findOrInsert source).queues := by
  unfold QueueTable.findOrInsert
  split
  · exact h
  · exact h.insert source t.created

theorem exists_queue {queues : QueueMap} (h : NonNull queues) {source : UInt64}
    (hs : source ∈ queues) : ∃ queue, queues[source]? = some (some queue) := by
  obtain ⟨q, hq⟩ := Option.isSome_iff_exists.mp (ExtTreeMap.mem_iff_isSome_getElem?.mp hs)
  cases q with
  | none => exact absurd hq (h source)
  | some queue => exact ⟨queue, hq⟩

end NonNull

theorem forall_getD_insert {P : QueueMap → Prop} {recvs : ExtTreeMap Str QueueMap} {topic : Str}
    {queues : QueueMap} (hnew : P queues) (hold : ∀ t, P (recvs.getD t ∅)) (t : Str) :
    P ((recvs.insert topic queues).getD t ∅) := by
  rw [ExtTreeMap.getD_insert]
  split
  · exact hnew
  · exact hold t

/-- No null pointer is held, and none has been followed. -/
structure NullFree (s : Sink T) : Prop where
  recvs : ∀ topic, NonNull (s.tableOf topic).queues
  threads : ∀ thread ∈ s.threads, NonNull thread.queues
  defined : s.undefined = false

theorem nullFree_init (serverIp : Str) (serverPort : Int32) (topics : List Str) :
    NullFree (Sink.init serverIp serverPort topics : Sink T) := by
  refine ⟨fun topic => ?_, by simp [Sink.init], rfl⟩
  simp only [Sink.tableOf, Sink.init, recvs_init topics ∅ (by simp)]
  exact .empty

namespace NullFree
variable {s : Sink T}

theorem insert (h : NullFree s) (topic : Str) {queues : QueueMap} (hqueues : NonNull queues) :
    NullFree { s with recvs := s.recvs.insert topic queues } :=
  ⟨forall_getD_insert hqueues h.recvs, h.threads, h.defined⟩

theorem prepareSources (h : NullFree s) (topic : Str) (sources : List UInt64) :
    NullFree (s.prepareSources topic sources) :=
  ⟨forall_getD_insert ((h.recvs topic).prepareSources sources) h.recvs, h.threads, h.defined⟩

theorem start (h : NullFree s) : NullFree s.start := by
  refine ⟨h.recvs, fun thread hmem => ?_, h.defined⟩
  rcases List.mem_append.mp hmem with hmem | hmem
  · exact h.threads thread hmem
  · obtain ⟨topic, -, rfl⟩ := List.mem_map.mp hmem
    exact .empty

theorem enter (h : NullFree s) (topic : Str) (n : ℕ) :
    NullFree { s with
      recvs := s.recvs.insert topic (s.tableOf topic).queues
      threads := s.threads.set n ⟨topic, (s.tableOf topic).queues, some (s.sinkOf topic)⟩ } := by
  refine ⟨forall_getD_insert (h.recvs topic) h.recvs, fun thread hmem => ?_, h.defined⟩
  rcases List.mem_or_eq_of_mem_set hmem with hmem | rfl
  · exact h.threads thread hmem
  · exact h.recvs topic

theorem receive (h : NullFree s) {n : ℕ} {thread : ReceiveThread}
    (hn : s.threads[n]? = some thread) (source : UInt64) (msg : T) :
    NullFree (s.receive n thread source msg) := by
  have hqueues : NonNull ((s.threadTable thread).findOrInsert source).queues :=
    NonNull.findOrInsert (h.threads thread (List.mem_of_getElem? hn)) source
  obtain ⟨queue, hqueue⟩ := hqueues.exists_queue (QueueTable.mem_findOrInsert source)
  rw [Sink.receive, QueueTable.queueOf_eq_some.mpr hqueue]
  refine ⟨h.recvs, fun th hmem => ?_, h.defined⟩
  rcases List.mem_or_eq_of_mem_set hmem with hmem | rfl
  · exact h.threads th hmem
  · exact hqueues

theorem receiveFixed (h : NullFree s) {n : ℕ} {thread : ReceiveThread}
    (hn : s.threads[n]? = some thread) {source : UInt64} (hsource : source ∈ thread.queues)
    (msg : T) : NullFree (s.receiveFixed n thread source msg) := by
  obtain ⟨queue, hqueue⟩ :=
    (h.threads thread (List.mem_of_getElem? hn)).exists_queue hsource
  rw [Sink.receiveFixed, hqueue]
  exact ⟨h.recvs, h.threads, h.defined⟩

theorem getMsg (h : NullFree s) {topic : Str} {source : UInt64}
    (hsource : source ∈ (s.tableOf topic).queues) :
    NullFree (s.getMsg topic source) ∧ (s.getMsg topic source).recvs = s.recvs := by
  obtain ⟨queue, hqueue⟩ := (h.recvs topic).exists_queue hsource
  rw [Sink.getMsg, hqueue]
  dsimp only
  split
  · exact ⟨h, rfl⟩
  · exact ⟨⟨h.recvs, h.threads, h.defined⟩, rfl⟩

theorem pollMsg (h : NullFree s) {hash : Str → UInt64} {topic source : Str} {indeterminate : Bool}
    (htopic : topic ∈ s.recvs) :
    NullFree (s.pollMsg hash topic source indeterminate).sink ∧
      (s.pollMsg hash topic source indeterminate).sink.recvs = s.recvs := by
  have hobject : ∀ entry ∈ s.walk hash topic source, entry.2 ≠ none := by
    intro entry hmem hnull
    have hentry : entry ∈ s.entries topic := (s.mem_entries hash).mpr (.inl hmem)
    rw [Sink.entries, ExtTreeMap.mem_toList_iff_getElem?_eq_some, hnull] at hentry
    exact h.recvs topic _ hentry
  rw [Sink.pollMsg, s.insert_known htopic]
  rcases s.pollFrom_cases topic indeterminate hobject
    with ⟨-, hpoll⟩ | ⟨before, owner, queue, after, msg, rest, -, -, -, hpoll⟩
  · rw [hpoll]
    exact ⟨h, rfl⟩
  · rw [hpoll]
    exact ⟨⟨h.recvs, h.threads, h.defined⟩, rfl⟩

theorem drain (h : NullFree s) : NullFree s.drain := by
  have hobject : ∀ q ∈ OrderedMaps.nestedValues s.recvs, q ≠ none := by
    rintro q hmem rfl
    obtain ⟨topic, source, hnull⟩ := OrderedMaps.mem_nestedValues.mp hmem
    exact h.recvs topic source hnull
  have hfold : ∀ (qs : List (Option ℕ)) (u : Sink T), (∀ q ∈ qs, q ≠ none) → NullFree u →
      NullFree (qs.foldl Sink.drainQueue u) := by
    intro qs
    induction qs with
    | nil => exact fun _ _ hu => hu
    | cons q qs ih =>
      intro u hqs hu
      apply ih _ (fun q hmem => hqs q (List.mem_cons_of_mem _ hmem))
      cases q with
      | none => exact absurd rfl (hqs none List.mem_cons_self)
      | some queue => exact ⟨hu.recvs, hu.threads, hu.defined⟩
  exact hfold _ _ hobject h

theorem step {recvFixed : Bool} {hash : Str → UInt64} {o o' : SinkObject T} {a : ObjectLabel T}
    (h : NullFree o.sink) (hknown : Known recvFixed hash o a)
    (hs : objectNext recvFixed hash o a = some o') :
    NullFree o'.sink ∧ (ReturnsFalse hash o.sink a → o'.sink.recvs = o.sink.recvs) := by
  simp only [objectNext, Option.ite_none_left_eq_some] at hs
  obtain ⟨-, hs⟩ := hs
  cases a with
  | prepareSources topic sources => cases hs; exact ⟨h.prepareSources topic _, False.elim⟩
  | start => cases hs; exact ⟨h.start, False.elim⟩
  | enter n =>
    obtain ⟨t, ht, rfl⟩ := Option.map_eq_some_iff.mp hs
    cases sinkMove_of_next ht with
    | enter _ topic queues hn => exact ⟨h.enter topic n, False.elim⟩
    | request _ topic request hsink => exact ⟨⟨h.recvs, h.threads, h.defined⟩, False.elim⟩
  | receive n source msg =>
    refine ⟨?_, False.elim⟩
    dsimp only at hs
    split at hs
    · rename_i thread hn
      simp only [Option.ite_none_right_eq_some, Option.some.injEq] at hs
      obtain ⟨-, rfl⟩ := hs
      cases recvFixed with
      | false => exact h.receive hn source msg
      | true => exact h.receiveFixed hn (hknown rfl thread hn) msg
    · cases hs
  | getMsgOf topic source =>
    cases hs
    exact ⟨(h.getMsg hknown).1, fun _ => (h.getMsg hknown).2⟩
  | getMsg topic source =>
    cases hs
    exact ⟨(h.getMsg hknown).1, fun _ => (h.getMsg hknown).2⟩
  | pollMsg topic source indeterminate =>
    cases hs
    exact ⟨(h.pollMsg hknown).1, fun _ => (h.pollMsg hknown).2⟩
  | stop => cases hs; exact ⟨⟨h.recvs, by simp, h.defined⟩, False.elim⟩
  | destroy =>
    simp only [Option.ite_none_right_eq_some, Option.some.injEq] at hs
    obtain ⟨-, rfl⟩ := hs
    exact ⟨h.drain, False.elim⟩

end NullFree

/-- Looking for an unknown source leaves a null pointer behind. -/
theorem not_nullFree_getMsg {s : Sink T} {topic : Str} {source : UInt64}
    (hunknown : source ∉ (s.tableOf topic).queues) : ¬ NullFree (s.getMsg topic source) := by
  intro h
  apply h.recvs topic source
  rw [Sink.getMsg, ExtTreeMap.getElem?_eq_none hunknown]
  simp [Sink.tableOf, ExtTreeMap.getD_eq_getD_getElem?]

/-- While `get_msg` asks for known sources only, and a thread in fixed mode hears from known sources
only, the sink holds and follows no null pointer and a failing `get_msg` changes no map; asking
for an unknown source stores a null pointer. -/
theorem null_free_while_sources_known (recvFixed : Bool) (hash : Str → UInt64) (serverIp : Str)
    (serverPort : Int32) (topics : List Str) :
    (∀ o : SinkObject T, Reachable (guarded (Known recvFixed hash) (objectNext recvFixed hash))
        ⟨Sink.init serverIp serverPort topics, false⟩ o →
      NullFree o.sink ∧ ∀ a o', Known recvFixed hash o a → objectNext recvFixed hash o a = some o' →
        ReturnsFalse hash o.sink a → o'.sink.recvs = o.sink.recvs) ∧
    ∀ (s : Sink T) topic source, source ∉ (s.tableOf topic).queues →
      ¬ NullFree (s.getMsg topic source) := by
  refine ⟨fun o h => ?_, fun s topic source => not_nullFree_getMsg⟩
  have hfree : NullFree o.sink :=
    h.invariant (I := fun o => NullFree o.sink) (nullFree_init serverIp serverPort topics)
      fun _ _ _ hu hv => (hu.step (guarded_eq_some.mp hv).1 (guarded_eq_some.mp hv).2).1
  exact ⟨hfree, fun a o' hknown hs => (hfree.step hknown hs).2⟩

private def firstByte (name : Str) : UInt64 := LittleEndian.word (name.take 1)

private def freshObject : SinkObject ℕ := ⟨Sink.init [] 5555 [[116]], false⟩

/-- Two starts, receptions from a prepared source and from a new one, every kind of `get_msg`, and
the destructor. -/
private def knownSources : List (ObjectLabel ℕ) :=
  [.prepareSources [116] [[97], [98]], .getMsgOf [116] [97], .start, .enter 0, .receive 0 97 7,
    .receive 0 99 8, .getMsg [116] 97, .stop, .prepareSources [116] [[98]], .start, .enter 0,
    .receive 0 98 9, .pollMsg [116] [] true, .pollMsg [116] [98] true, .stop, .destroy]

theorem null_free_while_sources_known_example :
    (∃ o, run (guarded (Known false firstByte) (objectNext false firstByte)) freshObject
        knownSources = some o ∧ o.sink.fetched = [([116], 97, 7), ([116], 98, 9)] ∧
      NullFree o.sink) ∧
    ¬ NullFree (freshObject.sink.getMsg [116] 97) := by
  have htheorem := null_free_while_sources_known (T := ℕ) false firstByte [] 5555 [[116]]
  have hrun : (run (guarded (Known false firstByte) (objectNext false firstByte)) freshObject
      knownSources).map (fun o => o.sink.fetched) =
        some [([116], 97, 7), ([116], 98, 9)] := by decide +kernel
  obtain ⟨o, ho, heq⟩ := Option.map_eq_some_iff.mp hrun
  exact ⟨⟨o, ho, heq, (htheorem.1 o ⟨_, ho⟩).1⟩, htheorem.2 _ _ _ (by decide +kernel)⟩

/-- A `get_msg` for a source that was never prepared makes the destructor follow a null pointer. -/
theorem unknown_source_breaks_destructor :
    ∃ o, run (objectNext false firstByte) freshObject
        [.prepareSources [116] [[97]], .getMsg [116] 9] = some o ∧ ¬ NullFree o.sink ∧
      (objectNext false firstByte o .destroy).map (fun o' => o'.sink.undefined) = some true := by
  have hrun : (run (objectNext false firstByte) freshObject
      [.prepareSources [116] [[97]], .getMsg [116] 9]).map (fun o =>
        ((o.sink.tableOf [116]).queues[(9 : UInt64)]?, (objectNext false firstByte o .destroy).map
          fun o' => o'.sink.undefined)) = some (some none, some true) := by decide +kernel
  obtain ⟨o, ho, heq⟩ := Option.map_eq_some_iff.mp hrun
  obtain ⟨hnull, hundefined⟩ := Prod.ext_iff.mp heq
  exact ⟨o, ho, fun h => h.recvs [116] 9 hnull, hundefined⟩

end MessagePass.SinkQueues
