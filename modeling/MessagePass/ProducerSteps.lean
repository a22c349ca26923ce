import MessagePass.RingSteps

/-!
# The steps of the producer

Each step of `inner_enqueue` keeps the description of the queue, and none of its assertions fails.
-/
namespace MessagePass.BlockRings
open QueueBlocks LabelledRuns

variable {T : Type} {q : Queue T} {free : List ℕ} {contents : ℕ → List T} {capacity : ℕ}

namespace Describes
variable {s : State T} {active : List ℕ} {b : ℕ} {block : Block T} {held : List T}

theorem tailFull (h : Describes capacity s active free contents)
    (hpending : s.pending s.queue.tailBlock = [])
    (hfull : s.queue.tail.loadFront.nextTail = s.queue.tail.loadFront.localFront) :
    s.removing s.queue.tailBlock + (contents s.queue.tailBlock).length =
      s.queue.tail.sizeMask := by
  have hstores := h.shape.stores_tail
  rw [hpending] at hstores
  exact hstores.full hfull

/-- When the tail block is full and no spare block is left, the queue holds the elements it was
built for. -/
theorem capacity_le_held (h : Describes capacity s active [] contents)
    (hpending : s.pending s.queue.tailBlock = [])
    (hfull : s.queue.tail.loadFront.nextTail = s.queue.tail.loadFront.localFront) :
    capacity ≤ s.held := by
  have htail := h.tailFull hpending hfull
  have hheld : s.held = (active.map fun b => (contents b).length).sum + s.removals := by
    rw [State.held, h.queue, List.length_append, Nat.add_sub_cancel_left, List.length_flatMap]
  have hsized := h.sized
  rw [List.append_nil] at hsized
  obtain ⟨rest, hactive⟩ := h.shape.exists_front
  cases rest with
  | nil =>
    have heq : s.queue.tailBlock = s.queue.frontBlock := by
      have htailMem := h.shape.tail_mem
      rw [hactive] at htailMem
      exact List.mem_singleton.mp htailMem
    have hsingle := hsized.single _ hactive
    rw [Queue.tail, heq, State.removing, if_pos rfl] at htail
    rw [hheld, hactive]
    simp only [List.map_cons, List.map_nil, List.sum_cons, List.sum_nil]
    omega
  | cons n rest =>
    have hseveral := hsized.several (by simp [hactive]) s.queue.frontBlock h.shape.front_mem
    have hnotin : s.queue.frontBlock ∉ n :: rest := by
      have hnodup := (List.nodup_append.mp h.shape.nodup).1
      rw [hactive] at hnodup
      exact (List.nodup_cons.mp hnodup).1
    have hrest : ((n :: rest).map fun b => (s.queue.heap b).sizeMask) =
        (n :: rest).map fun b => (contents b).length := by
      apply List.map_congr_left
      intro b hb
      have hne : b ≠ s.queue.frontBlock := ne_of_mem_of_not_mem hb hnotin
      have hmem : b ∈ active := hactive ▸ List.mem_cons_of_mem _ hb
      by_cases hbt : b = s.queue.tailBlock
      · subst hbt
        rw [State.removing, if_neg hne, Nat.zero_add] at htail
        exact htail.symm
      · exact (h.shape.full b hmem hne hbt).symm
    rw [hactive, List.map_cons, List.sum_cons, hrest] at hseveral
    rw [hheld, hactive, List.map_cons, List.sum_cons]
    omega

theorem startEnqueue (h : Describes capacity s active free contents)
    (hpc : s.producer = .idle ∨ ∃ success, s.producer = .returned success) (v : T)
    (mode : AllocationMode) : Describes capacity (s.startEnqueue v mode) active free contents := by
  have hpending : s.pending = fun _ => [] := by
    funext b
    rcases hpc with hpc | ⟨success, hpc⟩ <;> simp [State.pending, hpc]
  have hstaged : s.staged = fun _ => [] := by
    funext b
    rcases hpc with hpc | ⟨success, hpc⟩ <;> simp [State.staged, hpc]
  have hlinked : s.unlinked = 0 := by
    rcases hpc with hpc | ⟨success, hpc⟩ <;> simp [State.unlinked, hpc]
  unfold State.startEnqueue
  split
  · exact h.producerMove _ hpending.symm hstaged.symm hlinked.symm ‹_›
  · exact h.producerMove _ hpending.symm hstaged.symm hlinked.symm trivial

theorem tailFull_set (block : Block T) (held : List T) {n : ℕ} (hne : n ≠ q.tailBlock)
    (h : TailFull q contents) :
    TailFull (q.set n block) (Function.update contents n held) := by
  intro hfront
  rw [Queue.tailBlock_set, Function.update_of_ne (Ne.symm hne),
    Queue.tail_set_of_ne _ _ (Ne.symm hne)]
  exact h hfront

theorem loadFront (h : Describes capacity s active free contents) {v : T} {mode : AllocationMode}
    (hpc : s.producer = .loadFront v mode) :
    Described capacity { s with
      queue := s.queue.set s.queue.tailBlock s.queue.tail.loadFront
      producer := if s.queue.tail.loadFront.nextTail ≠ s.queue.tail.loadFront.localFront
        then .construct v else .checkNext v mode s.held } := by
  have hquiet : s.pending s.queue.tailBlock = [] := by simp [State.pending, hpc]
  have hstores := h.shape.stores_tail.loadFront
  rw [hquiet] at hstores
  split
  · rename_i hroom
    refine ⟨active, free, _, h.producerSet _ s.queue.tail.loadFront (contents s.queue.tailBlock) []
      (.construct v) (by simp) (.inl rfl) rfl rfl ⟨rfl, rfl⟩ hstores (fun x _ => ?_)
      (fun x _ => ?_) (fun hfree => absurd hfree h.tail_notMem_free)
      (fun _ => (List.append_nil _).symm) ?_ ?_⟩
    · simp [State.pending, hpc]
    · simp [State.staged, hpc]
    · simp [State.unlinked, hpc]
    · simpa [ProducerOk, HasRoom] using hroom
  · rename_i hnot
    have hfull := not_not.mp hnot
    refine ⟨active, free, _, h.producerSet _ s.queue.tail.loadFront (contents s.queue.tailBlock) []
      (.checkNext v mode s.held) (by simp) (.inl rfl) rfl rfl ⟨rfl, rfl⟩ hstores (fun x _ => ?_)
      (fun x _ => ?_) (fun hfree => absurd hfree h.tail_notMem_free)
      (fun _ => (List.append_nil _).symm) ?_ ⟨?_, ?_⟩⟩
    · simp [State.pending, hpc]
    · simp [State.staged, hpc]
    · simp [State.unlinked, hpc]
    · intro hne
      have htail := h.tailFull hquiet hfull
      have hzero : s.removing s.queue.tailBlock = 0 := if_neg (Ne.symm hne)
      rw [hzero, Nat.zero_add] at htail
      simpa using htail
    · rintro rfl
      exact h.capacity_le_held hquiet hfull

theorem construct (h : Describes capacity s active free contents) {v : T} {pc : ProducerPc T}
    (hmem : b = s.queue.tailBlock ∨ free.head? = some b)
    (hroom : HasRoom (s.queue.heap b)) (hquiet : s.pending = fun _ => [])
    (hstaged : s.staged = fun _ => []) (hlinked : s.unlinked = 0)
    (hpending' : ∀ x, { s with producer := pc }.pending x = if x = b then [v] else [])
    (hstaged' : { s with producer := pc }.staged = fun _ => [])
    (hlinked' : { s with producer := pc }.unlinked = 0)
    (hproducer : ∀ block, (block : Block T).sizeMask = (s.queue.heap b).sizeMask →
      ProducerOk (s.queue.set b block) (active ++ free) free contents capacity pc) :
    Described capacity (s.construct b v pc) := by
  have hring : b ∈ active ++ free := by
    rcases hmem with rfl | hhead
    · exact List.mem_append_left _ h.shape.tail_mem
    · exact List.mem_append_right _ (List.mem_of_head? hhead)
  have hstores := h.shape.stores b hring
  rw [hquiet] at hstores
  obtain ⟨hcell, hnew⟩ := hstores.construct hroom v
  unfold State.construct
  rw [hcell]
  refine ⟨active, free, _, h.producerSet b ((s.queue.heap b).construct v) (contents b) [] pc
    (by simp) ?_ rfl rfl ⟨rfl, rfl⟩ ?_ ?_ ?_ ?_ (fun _ => (List.append_nil _).symm)
    (hlinked'.trans hlinked.symm) ?_⟩
  · exact hmem.imp_right fun hhead => ⟨List.mem_of_head? hhead, rfl⟩
  · have hb := hpending' b
    rw [if_pos rfl] at hb
    exact hb ▸ hnew
  · intro x hx
    rw [hquiet]
    exact (hpending' x).trans (if_neg hx)
  · intro x _
    rw [hstaged]
    exact congrFun hstaged' x
  · intro hfree
    rw [h.shape.spare b hfree, hstaged]
    exact (congrFun hstaged' b).symm
  · rw [Function.update_eq_self]
    exact hproducer _ rfl

theorem publish (h : Describes capacity s active free contents) {v : T}
    (hpc : s.producer = .publish v) :
    Described capacity { s with
      queue := s.queue.set s.queue.tailBlock s.queue.tail.publishTail
      producer := .returned true
      enqueued := s.enqueued ++ [v] } := by
  have hstores := h.shape.stores_tail
  have hquiet : s.pending s.queue.tailBlock = [v] := by simp [State.pending, hpc]
  rw [hquiet] at hstores
  refine ⟨active, free, _, h.producerSet _ s.queue.tail.publishTail
    (contents s.queue.tailBlock ++ [v]) [v] (.returned true) rfl (.inl rfl) rfl rfl ⟨rfl, rfl⟩
    hstores.publishTail (fun x hx => ?_) (fun x _ => ?_)
    (fun hfree => absurd hfree h.tail_notMem_free) (fun _ => rfl) ?_ trivial⟩
  · simp [State.pending, hpc, hx]
  · simp [State.staged, hpc]
  · simp [State.unlinked, hpc]

theorem checkNext (h : Describes capacity s active free contents) {v : T} {mode : AllocationMode}
    {held' : ℕ} (hpc : s.producer = .checkNext v mode held') :
    (s.queue.tail.next ≠ some s.queue.frontBlock →
      Described capacity { s with producer := .loadNextFront v }) ∧
    (s.queue.tail.next = some s.queue.frontBlock →
      Described capacity { s with producer := .makeBlock v held' } ∧
      Described capacity { s with
        producer := .returned false, noRoom := s.noRoom ++ [held'] }) := by
  have hquiet : s.pending = fun _ => [] := by
    funext b
    simp [State.pending, hpc]
  have hstaged : s.staged = fun _ => [] := by
    funext b
    simp [State.staged, hpc]
  have hlinked : s.unlinked = 0 := by simp [State.unlinked, hpc]
  have hok := h.producer
  rw [hpc] at hok
  constructor
  · intro hne
    obtain ⟨n, rest, hfree, -⟩ := h.shape.exists_spare hne
    refine ⟨active, free, contents, h.producerMove _ hquiet.symm hstaged.symm hlinked.symm ?_⟩
    exact ⟨hok.1, hfree ▸ List.cons_ne_nil n rest⟩
  · intro heq
    have hnil : free = [] := by
      have hnext := h.shape.next_tail
      cases free with
      | nil => rfl
      | cons n rest =>
        rw [hnext] at heq
        exact absurd (Option.some.inj heq) (h.ne_front_of_head? rfl)
    have hroom := hok.2 hnil
    constructor
    · exact ⟨active, free, contents,
        h.producerMove _ hquiet.symm hstaged.symm hlinked.symm ⟨hok.1, hroom⟩⟩
    · have hmove := h.producerMove (.returned false) hquiet.symm hstaged.symm hlinked.symm
        trivial
      exact ⟨active, free, contents, { hmove with noRoom := forall_mem_concat h.noRoom hroom }⟩

theorem stores_head? {n : ℕ} (h : Describes capacity s active free contents)
    (hn : free.head? = some n) : (s.queue.heap n).Stores 0 (s.staged n) (s.pending n) := by
  have hmem := List.mem_of_head? hn
  have hstores := h.shape.stores n (List.mem_append_right _ hmem)
  rwa [h.shape.spare n hmem, State.removing, if_neg (h.ne_front_of_head? hn)] at hstores

theorem loadNextFront (h : Describes capacity s active free contents) {v : T}
    (hpc : s.producer = .loadNextFront v) :
    ∃ n, s.queue.tail.next = some n ∧
      (s.queue.heap n).loadFront.localFront = (s.queue.heap n).loadFront.tail ∧
      Described capacity { s with
        queue := s.queue.set n (s.queue.heap n).loadFront, producer := .constructNext v n } := by
  have hok := h.producer
  rw [hpc] at hok
  obtain ⟨hfull, hspare⟩ := hok
  obtain ⟨n, rest, rfl⟩ := List.exists_cons_of_ne_nil hspare
  have hstores := h.stores_head? rfl
  have hstaged : s.staged = fun _ => [] := by
    funext b
    simp [State.staged, hpc]
  have hpending : s.pending = fun _ => [] := by
    funext b
    simp [State.pending, hpc]
  rw [hstaged, hpending] at hstores
  have hne := h.ne_tail_of_head? rfl
  refine ⟨n, h.shape.next_tail, hstores.eq_nil_iff.mpr rfl, active, n :: rest, _,
    h.producerSet n (s.queue.heap n).loadFront [] [] (.constructNext v n) (by simp)
      (.inr ⟨List.mem_cons_self, rfl⟩) rfl rfl ⟨rfl, rfl⟩ ?_ (fun x _ => ?_) (fun x _ => ?_)
      (fun _ => ?_) (fun htail => absurd htail hne) ?_ ⟨?_, rfl, ?_⟩⟩
  · have hzero : s.removing n = 0 := if_neg (h.ne_front_of_head? rfl)
    rw [hzero]
    exact hstores.loadFront
  · simp [State.pending, hpc]
  · simp [State.staged, hpc]
  · simp [State.staged]
  · simp [State.unlinked, hpc]
  · exact tailFull_set _ _ hne hfull
  · rw [Queue.heap_set_self]
    exact hstores.room_of_nil

theorem publishNext (h : Describes capacity s active free contents) {v : T} {n : ℕ}
    (hpc : s.producer = .publishNext v n) :
    Described capacity { s with
      queue := s.queue.set n (s.queue.heap n).publishTail, producer := .moveTail v n } := by
  have hok := h.producer
  rw [hpc] at hok
  obtain ⟨hfull, hn⟩ := hok
  have hstores := h.stores_head? hn
  have hstaged : s.staged n = [] := by simp [State.staged, hpc]
  have hpending : s.pending n = [v] := by simp [State.pending, hpc]
  rw [hstaged, hpending] at hstores
  have hne := h.ne_tail_of_head? hn
  refine ⟨active, free, _, h.producerSet n (s.queue.heap n).publishTail [v] [] (.moveTail v n)
    (by simp) (.inr ⟨List.mem_of_head? hn, rfl⟩) rfl rfl ⟨rfl, rfl⟩ ?_ (fun x hx => ?_)
    (fun x hx => ?_) (fun _ => ?_) (fun htail => absurd htail hne) ?_ ⟨?_, hn⟩⟩
  · have hzero : s.removing n = 0 := if_neg (h.ne_front_of_head? hn)
    rw [hzero]
    exact hstores.publishTail
  · simp [State.pending, hpc, hx]
  · simp [State.staged, hpc, hx]
  · simp [State.staged]
  · simp [State.unlinked, hpc]
  · exact tailFull_set _ _ hne hfull

theorem moveTail (h : Describes capacity s active free contents) {v : T} {n : ℕ}
    (hpc : s.producer = .moveTail v n) :
    Described capacity { s with
      queue := { s.queue with tailBlock := n }
      producer := .returned true
      enqueued := s.enqueued ++ [v] } := by
  have hok := h.producer
  rw [hpc] at hok
  obtain ⟨hfull, hn⟩ := hok
  obtain ⟨rest, rfl⟩ := List.head?_eq_some_iff.mp hn
  have hheld : contents n = [v] := by
    rw [h.shape.spare n List.mem_cons_self]
    simp [State.staged, hpc]
  have hpending : s.pending = fun _ => [] := by
    funext b
    simp [State.pending, hpc]
  have hne : s.queue.frontBlock ≠ n := Ne.symm (h.ne_front_of_head? hn)
  have hshape := h.shape.moveTail (fun _ => []) (hheld ▸ List.cons_ne_nil v []) hfull
    (fun x hx => by simp [State.staged, hpc, hx])
  rw [hpending] at hshape
  refine ⟨active ++ [n], rest, contents, ⟨h.fault, hshape, ?_, ?_, ?_, trivial, ?_, ?_, h.misses,
    h.noRoom⟩⟩
  · change s.enqueued ++ [v] = s.dequeued ++ (active ++ [n]).flatMap contents
    rw [h.queue, List.flatMap_append, List.append_assoc]
    simp [hheld]
  · have hcount := h.count
    simpa [State.unlinked, hpc] using hcount
  · have hsized := h.sized
    rw [List.append_cons] at hsized
    exact hsized.congr rfl fun _ _ => rfl
  · exact h.consumer.frame rfl (fun _ => hne) ⟨rfl, rfl⟩ (fun _ _ hnext => ⟨hnext, rfl, rfl⟩)
      (fun _ => rfl) (by simp)
  · intro entry hentry
    obtain ⟨hlt, -⟩ := List.getElem?_eq_some_iff.mp (h.peeked entry hentry)
    exact (List.getElem?_append_left hlt).trans (h.peeked entry hentry)

theorem makeBlock (h : Describes capacity s active free contents) {v : T} {held' : ℕ}
    (hpc : s.producer = .makeBlock v held') (maxBlockSize : ℕ) :
    Described capacity { s with
      queue := s.queue.addBlock maxBlockSize v
      producer := .link v s.queue.allocated
      noRoom := s.noRoom ++ [held'] } ∧
    Described capacity { s with producer := .returned false, noRoom := s.noRoom ++ [held'] } := by
  have hok := h.producer
  rw [hpc] at hok
  obtain ⟨hfull, hroom⟩ := hok
  have hpending : s.pending = fun _ => [] := by
    funext b
    simp [State.pending, hpc]
  have hstaged : s.staged = fun _ => [] := by
    funext b
    simp [State.staged, hpc]
  have hunlinked : s.unlinked = 0 := by simp [State.unlinked, hpc]
  have hlog := forall_mem_concat h.noRoom hroom
  constructor
  · have hlt : ∀ b ∈ active ++ free, b < s.queue.allocated := h.shape.allocated
    have htail : s.queue.tailBlock < s.queue.allocated :=
      hlt _ (List.mem_append_left _ h.shape.tail_mem)
    have hsame : ∀ b < s.queue.allocated,
        (s.queue.addBlock maxBlockSize v).heap b = s.queue.heap b := fun b hb =>
      Function.update_of_ne (Nat.ne_of_lt hb) ..
    have hnew : (s.queue.addBlock maxBlockSize v).heap s.queue.allocated =
        Block.withFirst (s.queue.newBlockSize maxBlockSize) v s.queue.tail.next :=
      Function.update_self ..
    have hsized := h.sized.addBlock maxBlockSize v hlt
    obtain ⟨k, hk⟩ := hsized.power
    have hsize : s.queue.newBlockSize maxBlockSize = 2 ^ (k + 1) := hk
    have hshape := h.shape.addBlock maxBlockSize v
    rw [hpending, hstaged] at hshape
    refine ⟨active, free, contents, ⟨h.fault, hshape, h.queue, ?_, hsized, ⟨?_, ?_, ?_, ?_, ?_,
      ?_⟩, ?_, h.peeked, h.misses, hlog⟩⟩
    · have hcount := h.count
      rw [hunlinked, Nat.add_zero] at hcount
      exact congrArg (· + 1) hcount
    · intro hne
      have heq : (s.queue.addBlock maxBlockSize v).tail = s.queue.tail := hsame _ htail
      rw [heq]
      exact hfull hne
    · exact fun hmem => Nat.lt_irrefl _ (hlt _ hmem)
    · exact Nat.lt_succ_self _
    · change ((s.queue.addBlock maxBlockSize v).heap s.queue.allocated).Stores 0 [v] []
      rw [hnew, hsize]
      exact .withFirst k v _
    · change ((s.queue.addBlock maxBlockSize v).heap s.queue.allocated).next =
        (s.queue.addBlock maxBlockSize v).tail.next
      have heq : (s.queue.addBlock maxBlockSize v).tail = s.queue.tail := hsame _ htail
      rw [hnew, heq]
      rfl
    · change ((s.queue.addBlock maxBlockSize v).heap s.queue.allocated).sizeMask + 1 = _
      rw [hnew]
      exact Nat.sub_add_cancel (hsize ▸ Nat.one_le_two_pow)
    · have hfront : s.queue.frontBlock < s.queue.allocated :=
        hlt _ (List.mem_append_left _ h.shape.front_mem)
      have hfrontSame : (s.queue.addBlock maxBlockSize v).front = s.queue.front :=
        hsame _ hfront
      refine h.consumer.frame rfl id ?_ ?_ (fun _ => rfl) (Nat.le_refl _)
      · rw [hfrontSame]
        exact ⟨rfl, rfl⟩
      · intro n hne hn
        obtain ⟨m, rest, rfl, hm⟩ := h.shape.exists_second hne
        obtain rfl : n = m := Option.some.inj (hn.symm.trans hm)
        rw [hfrontSame, hsame n (hlt n (by simp))]
        exact ⟨hn, rfl, rfl⟩
  · have hmove := h.producerMove (.returned false) hpending.symm hstaged.symm hunlinked.symm
      trivial
    exact ⟨active, free, contents, { hmove with noRoom := hlog }⟩

theorem link (h : Describes capacity s active free contents) {v : T} {n : ℕ}
    (hpc : s.producer = .link v n) :
    Described capacity { s with
      queue := s.queue.set s.queue.tailBlock { s.queue.tail with next := some n }
      producer := .moveTail v n } := by
  have hok := h.producer
  rw [hpc] at hok
  obtain ⟨hfull, hfresh, hlt, hstores, hnext, hmask⟩ := hok
  have hpending : s.pending = fun _ => [] := by
    funext b
    simp [State.pending, hpc]
  have hstaged : s.staged = fun _ => [] := by
    funext b
    simp [State.staged, hpc]
  have hfront : s.queue.frontBlock ≠ n :=
    ne_of_mem_of_not_mem (List.mem_append_left _ h.shape.front_mem) hfresh
  have htail : s.queue.tailBlock ≠ n :=
    ne_of_mem_of_not_mem (List.mem_append_left _ h.shape.tail_mem) hfresh
  have hzero : s.removing n = 0 := if_neg (Ne.symm hfront)
  have hshape := h.shape.link (fun _ => []) (fun x => if x = n then [v] else []) hfresh hlt hnext
    hstores hzero rfl (if_pos rfl) (fun x _ => by rw [hpending])
    (fun x hx => by rw [hstaged, if_neg hx])
  have hsame : SameFront (s.queue.heap s.queue.tailBlock) { s.queue.tail with next := some n } :=
    ⟨rfl, rfl⟩
  refine ⟨active, n :: free, _, ⟨h.fault, hshape, ?_, ?_, ?_, ⟨?_, rfl⟩, ?_, h.peeked, h.misses,
    h.noRoom⟩⟩
  · have hnotin : n ∉ active := fun hmem => hfresh (List.mem_append_left _ hmem)
    rw [flatMap_update_of_notMem hnotin]
    exact h.queue
  · have hcount := h.count
    have hperm : (active ++ n :: free).Perm (n :: (active ++ free)) := List.perm_middle
    have hlen := hperm.length_eq
    simp only [State.unlinked, hpc] at hcount ⊢
    rw [hlen, List.length_cons]
    exact hcount
  · have hne : active ++ free ≠ [] := List.append_ne_nil_of_left_ne_nil
      (List.ne_nil_of_mem h.shape.tail_mem) _
    exact ((h.sized.insert hne hmask).perm List.perm_middle).set rfl
  · intro hne
    change (Function.update contents n [v] s.queue.tailBlock).length = _
    rw [Function.update_of_ne htail, Queue.tail_set_self]
    exact hfull hne
  · refine h.consumer.frame rfl id ?_ ?_ ?_ (Nat.le_refl _)
    · exact sameFront_set hsame _
    · intro m hne hm
      refine ⟨?_, sameFront_set hsame m⟩
      rw [Queue.front_set_of_ne _ _ hne]
      exact hm
    · intro _
      exact Function.update_of_ne hfront ..

theorem producerStep (h : Describes capacity s active free contents) {maxBlockSize : ℕ}
    {malloc : Bool} {t : State T} (hs : s.producerStep maxBlockSize malloc = some t) :
    Described capacity t := by
  unfold State.producerStep at hs
  cases hpc : s.producer with
  | idle => simp [hpc] at hs
  | returned success => simp [hpc] at hs
  | loadFront v mode =>
    simp only [hpc, Option.some.injEq] at hs
    exact hs ▸ h.loadFront hpc
  | construct v =>
    simp only [hpc, Option.some.injEq] at hs
    have hok := h.producer
    rw [hpc] at hok
    refine hs ▸ h.construct (.inl rfl) hok ?_ ?_ ?_ (fun _ => rfl) rfl rfl (fun _ _ => trivial)
    · funext b
      simp [State.pending, hpc]
    · funext b
      simp [State.staged, hpc]
    · simp [State.unlinked, hpc]
  | publish v =>
    simp only [hpc, Option.some.injEq] at hs
    exact hs ▸ h.publish hpc
  | checkNext v mode held =>
    simp only [hpc] at hs
    split at hs
    · cases hs
      exact (h.checkNext hpc).1 ‹_›
    · rename_i heq
      have hend := (h.checkNext hpc).2 (not_not.mp heq)
      cases mode with
      | canAlloc =>
        cases hs
        exact hend.1
      | cannotAlloc =>
        cases hs
        exact hend.2
  | loadNextFront v =>
    obtain ⟨n, hnext, heq, hdescribed⟩ := h.loadNextFront hpc
    simp only [hpc, hnext, if_pos heq, Option.some.injEq] at hs
    exact hs ▸ hdescribed
  | constructNext v n =>
    simp only [hpc, Option.some.injEq] at hs
    have hok := h.producer
    rw [hpc] at hok
    obtain ⟨hfull, hn, hroom⟩ := hok
    have hne := h.ne_tail_of_head? hn
    refine hs ▸ h.construct (.inr hn) hroom ?_ ?_ ?_ (fun _ => rfl) rfl rfl ?_
    · funext b
      simp [State.pending, hpc]
    · funext b
      simp [State.staged, hpc]
    · simp [State.unlinked, hpc]
    · intro block _
      refine ⟨?_, hn⟩
      have hset := tailFull_set block (contents n) hne hfull
      rwa [Function.update_eq_self] at hset
  | publishNext v n =>
    simp only [hpc, Option.some.injEq] at hs
    exact hs ▸ h.publishNext hpc
  | makeBlock v held =>
    have hboth := h.makeBlock hpc maxBlockSize
    simp only [hpc] at hs
    split at hs
    · cases hs
      exact hboth.1
    · cases hs
      exact hboth.2
  | link v n =>
    simp only [hpc, Option.some.injEq] at hs
    exact hs ▸ h.link hpc
  | moveTail v n =>
    simp only [hpc, Option.some.injEq] at hs
    exact hs ▸ h.moveTail hpc

end Describes
end MessagePass.BlockRings
