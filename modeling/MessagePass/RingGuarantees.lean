import MessagePass.ConsumerSteps
import MessagePass.ProducerSteps
import Mathlib.Algebra.Order.BigOperators.Group.List
import Mathlib.Algebra.Order.Group.Nat
import Mathlib.Data.List.Perm.Subperm

/-!
# What a reader-writer queue guarantees

A queue that was constructed for some elements stays described by its circle of blocks whatever the
two threads do. No assertion fails and no cell is read or overwritten at the wrong time; elements
leave in the order in which they came, none lost and none twice; a call returns without an element
only when the queue was empty; and the producer runs out of blocks only when the queue is as full
as it was built for.
-/
namespace MessagePass.BlockRings
open QueueBlocks LabelledRuns LinkedCycles PowersOfTwo

variable {T : Type}

theorem ceilToPow2_eq {x : ℕ} (hpos : 0 < x) (hle : x ≤ 2 ^ 63) :
    ceilToPow2 x = 2 ^ Nat.clog 2 x := by
  have hpred : (x + (2 ^ 64 - 1)) % 2 ^ 64 = x - 1 := by omega
  have hwidth : Nat.clog 2 x ≤ 63 := Nat.clog_le_of_le_pow hle
  have hbound : 2 ^ Nat.clog 2 x < 2 ^ 64 := Nat.pow_lt_pow_right Nat.one_lt_two (by omega)
  have hsmear := (((((smeared_one (x - 1)).double).double).double).double).double.double
  have hsucc := hsmear.succ_eq (Nat.lt_of_le_of_lt (Nat.sub_le x 1) (by omega))
  rw [Nat.sub_add_cancel hpos] at hsucc
  unfold ceilToPow2
  rw [hpred]
  simp only [hsucc, Nat.mod_eq_of_lt hbound]

theorem reserve_apply (size count : ℕ) {i : ℕ} (hi : i < count) :
    reserve T size count i =
      { makeBlock T size with next := some (if i + 1 < count then i + 1 else 0) } := by
  induction count generalizing i with
  | zero => cases hi
  | succ n ih =>
    cases n with
    | zero =>
      obtain rfl : i = 0 := Nat.lt_one_iff.mp hi
      simp [reserve]
    | succ n =>
      rw [reserve]
      rcases Nat.lt_trichotomy i n with hlt | rfl | hgt
      · have hprev := ih (i := i) (by omega)
        rw [Function.update_of_ne (by omega), Function.update_of_ne (by omega), hprev,
          if_pos (by omega), if_pos (by omega)]
      · have hprev := ih (i := i) (Nat.lt_succ_self i)
        rw [Function.update_of_ne (by omega), Function.update_self, hprev]
        simp
      · obtain rfl : i = n + 1 := by omega
        rw [Function.update_self, if_neg (by omega)]

theorem linked_range' {next : ℕ → Option ℕ} (count start : ℕ)
    (hnext : ∀ i, start ≤ i → i < start + count →
      next i = some (if i + 1 < start + count then i + 1 else 0)) :
    Linked next 0 (List.range' start count) := by
  induction count generalizing start with
  | zero => trivial
  | succ count ih =>
    refine ⟨?_, ?_⟩
    · rw [hnext start (Nat.le_refl _) (by omega)]
      cases count with
      | zero => simp
      | succ count => simp [List.range'_succ]
    · apply ih
      intro i hlow hhigh
      rw [hnext i (by omega) (by omega)]
      congr 2
      simp only [eq_iff_iff]
      omega

theorem described_reserve {capacity k count : ℕ} (hcount : 0 < count)
    (hsingle : count = 1 → capacity ≤ 2 ^ (k + 1) - 1)
    (hseveral : 2 ≤ count → capacity + (2 ^ (k + 1) - 1) ≤ count * (2 ^ (k + 1) - 1)) :
    Described capacity { queue := {
      heap := reserve T (2 ^ (k + 1)) count
      allocated := count
      frontBlock := 0
      tailBlock := 0
      largestBlockSize := 2 ^ (k + 1) } } := by
  obtain ⟨n, rfl⟩ : ∃ n, count = n + 1 := ⟨count - 1, by omega⟩
  have hring : [0] ++ List.range' 1 n = List.range' 0 (n + 1) := by
    rw [List.range'_succ]
    rfl
  have hmem : ∀ b, b ∈ List.range' 0 (n + 1) ↔ b < n + 1 := by
    simp
  have hmask : ∀ b ∈ List.range' 0 (n + 1),
      (reserve T (2 ^ (k + 1)) (n + 1) b).sizeMask = 2 ^ (k + 1) - 1 := by
    intro b hb
    rw [reserve_apply _ _ ((hmem b).mp hb)]
    rfl
  have hsum : ((List.range' 0 (n + 1)).map fun b =>
      (reserve T (2 ^ (k + 1)) (n + 1) b).sizeMask).sum = (n + 1) * (2 ^ (k + 1) - 1) := by
    rw [List.map_congr_left hmask, List.map_const', List.sum_replicate_nat, List.length_range']
  refine ⟨[0], List.range' 1 n, fun _ => [], ⟨rfl, ⟨?_, ?_, rfl, rfl, ?_, ?_, ?_, ?_, ?_⟩, rfl, ?_,
    ⟨⟨k, rfl⟩, ?_, ?_, ?_⟩, trivial, trivial, ?_, ?_, ?_⟩⟩
  · rw [hring]
    exact List.nodup_range'
  · rw [hring]
    exact fun b hb => (hmem b).mp hb
  · rw [hring]
    apply linked_range'
    intro i _ hi
    rw [Nat.zero_add] at hi ⊢
    change (reserve T (2 ^ (k + 1)) (n + 1) i).next = _
    rw [reserve_apply _ _ hi]
  · rw [hring]
    intro b hb
    rw [removing_eq_zero rfl]
    change (reserve T (2 ^ (k + 1)) (n + 1) b).Stores 0 [] []
    rw [reserve_apply _ _ ((hmem b).mp hb)]
    exact .make k _
  · exact fun _ _ => rfl
  · intro b hb hne
    exact absurd (List.mem_singleton.mp hb) hne
  · intro b hb hne
    exact absurd (List.mem_singleton.mp hb) hne
  · rw [hring, List.length_range']
    rfl
  · rw [hring]
    intro b hb
    rw [hmask b hb]
    exact Nat.le_of_eq (Nat.sub_add_cancel Nat.one_le_two_pow)
  · rw [hring]
    intro b hb
    have hlen := congrArg List.length hb
    simp only [List.length_range', List.length_singleton] at hlen
    rw [hmask b (hb ▸ List.mem_singleton_self b)]
    exact hsingle hlen
  · rw [hring, List.length_range', hsum]
    intro htwo b hb
    rw [hmask b hb]
    exact hseveral htwo
  · simp
  · simp
  · simp

theorem described_make {maxBlockSize size : ℕ} (hmax : ∃ k, maxBlockSize = 2 ^ (k + 1))
    (hpos : 0 < size) (hsize : size < 2 ^ 63) : Described size (make T maxBlockSize size) := by
  obtain ⟨k, rfl⟩ := hmax
  have hceil : ceilToPow2 ((size + 1) % 2 ^ 64) = 2 ^ Nat.clog 2 (size + 1) := by
    rw [Nat.mod_eq_of_lt (by omega)]
    exact ceilToPow2_eq size.succ_pos hsize
  have hclog : 0 < Nat.clog 2 (size + 1) := Nat.clog_pos Nat.one_lt_two (by omega)
  unfold make Queue.make
  simp only [hceil]
  split
  · -- blocks of the maximal size: one of them may be the consumer's, the others hold `size`
    have htwo : 2 ≤ 2 ^ (k + 1) := Nat.le_self_pow k.succ_ne_zero 2
    obtain ⟨d, hd⟩ : ∃ d, 2 ^ (k + 1) = d + 2 := ⟨2 ^ (k + 1) - 2, by omega⟩
    have hnum : size + 2 ^ (k + 1) * 2 - 3 = size + 2 * (d + 1) - 1 := by omega
    have hden : 2 ^ (k + 1) - 1 = d + 1 := by omega
    have hdiv := Nat.div_add_mod (size + 2 * (d + 1) - 1) (d + 1)
    have hmod : (size + 2 * (d + 1) - 1) % (d + 1) < d + 1 := Nat.mod_lt _ (Nat.succ_pos d)
    have hcomm := Nat.mul_comm (d + 1) ((size + 2 * (d + 1) - 1) / (d + 1))
    rw [hnum, hden]
    apply described_reserve
    · exact Nat.div_pos (by omega) (Nat.succ_pos d)
    · intro hone
      rw [hone] at hdiv
      omega
    · intro _
      rw [hden]
      omega
  · rw [← Nat.sub_add_cancel hclog]
    apply described_reserve Nat.one_pos
    · intro _
      rw [Nat.sub_add_cancel hclog]
      have hle := Nat.le_pow_clog Nat.one_lt_two (size + 1)
      omega
    · omega

theorem described_next {capacity maxBlockSize : ℕ} {s t : State T} {label : Label T}
    (h : Described capacity s) (hs : next maxBlockSize s label = some t) :
    Described capacity t := by
  obtain ⟨active, free, contents, h⟩ := h
  simp only [next, h.fault, Option.isSome_none, Bool.false_eq_true, if_false] at hs
  cases label with
  | enqueue v mode =>
    cases hpc : s.producer <;> simp only [hpc, Option.some.injEq, reduceCtorEq] at hs
    case idle => exact ⟨active, free, contents, hs ▸ h.startEnqueue (.inl hpc) v mode⟩
    case returned success =>
      exact ⟨active, free, contents, hs ▸ h.startEnqueue (.inr ⟨success, hpc⟩) v mode⟩
  | producer malloc => exact h.producerStep hs
  | call op =>
    cases hpc : s.consumer <;> simp only [hpc, Option.some.injEq, reduceCtorEq] at hs
    case idle => exact ⟨active, free, contents, hs ▸ h.startCall (.inl hpc) op⟩
    case returned success =>
      exact ⟨active, free, contents, hs ▸ h.startCall (.inr ⟨success, hpc⟩) op⟩
  | consumer => exact h.consumerStep hs

theorem described_reachable {maxBlockSize size : ℕ} {s : State T}
    (h : Reachable (next maxBlockSize) (make T maxBlockSize size) s)
    (hmax : ∃ k, maxBlockSize = 2 ^ (k + 1)) (hpos : 0 < size) (hsize : size < 2 ^ 63) :
    Described size s :=
  h.invariant (described_make hmax hpos hsize) fun _ _ _ => described_next

/-- Between calls, a walk round the circle meets every block once and finds the elements in the
queue. -/
theorem exists_circle {capacity : ℕ} {s : State T} (h : Described capacity s)
    (hproducer : s.producer.remaining = 0) (hconsumer : s.consumer.remaining = 0) :
    ∃ ring contents, s.queue.blocks = some ring ∧ ring.Perm (List.range s.queue.allocated) ∧
      s.enqueued = s.dequeued ++ ring.flatMap contents ∧ ring ≠ [] ∧ Sized s.queue ring capacity ∧
      ∀ b ∈ ring, (s.queue.heap b).Stores 0 (contents b) [] := by
  obtain ⟨active, free, contents, h⟩ := h
  have hpending : s.pending = fun _ => [] := by
    funext b
    cases hpc : s.producer <;> simp_all [State.pending, ProducerPc.remaining]
  have hstaged : s.staged = fun _ => [] := by
    funext b
    cases hpc : s.producer <;> simp_all [State.staged, ProducerPc.remaining]
  have hunlinked : s.unlinked = 0 := by
    cases hpc : s.producer <;> simp_all [State.unlinked, ProducerPc.remaining]
  have hremoving : s.removing = fun _ => 0 := by
    apply removing_eq_zero
    cases hpc : s.consumer <;> simp_all [State.removals, ConsumerPc.remaining]
  have hcount := h.count
  rw [hunlinked, Nat.add_zero] at hcount
  refine ⟨active ++ free, contents, ?_, ?_, ?_, ?_, h.sized, ?_⟩
  · obtain ⟨rest, rfl⟩ := h.shape.exists_front
    have hnotin := (List.nodup_cons.mp h.shape.nodup).1
    exact walk_eq h.shape.linked hnotin (by rw [← hcount]; simp)
  · have hsub : active ++ free ⊆ List.range s.queue.allocated := fun b hb =>
      List.mem_range.mpr (h.shape.allocated b hb)
    apply (List.subperm_of_subset h.shape.nodup hsub).perm_of_length_le
    rw [List.length_range, hcount]
  · have hfree : free.flatMap contents = [] := by
      rw [List.flatMap_eq_nil_iff]
      intro b hb
      rw [h.shape.spare b hb, hstaged]
    rw [List.flatMap_append, hfree, List.append_nil]
    exact h.queue
  · exact List.append_ne_nil_of_left_ne_nil (List.ne_nil_of_mem h.shape.front_mem) _
  · intro b hb
    have hb := h.shape.stores b hb
    rwa [hremoving, hpending] at hb

theorem scanBlocks_eq {q : Queue T} {contents : ℕ → List T} {bs : List ℕ}
    (h : ∀ b ∈ bs, (q.heap b).Stores 0 (contents b) []) :
    q.scanBlocks bs = some (bs.flatMap contents) := by
  induction bs with
  | nil => rfl
  | cons b bs ih =>
    have hb := (h b List.mem_cons_self).scan_eq
    simp [Queue.scanBlocks, hb, ih fun x hx => h x (List.mem_cons_of_mem b hx)]

theorem destroy_eq {capacity : ℕ} {s : State T} (h : Described capacity s)
    (hproducer : s.producer.remaining = 0) (hconsumer : s.consumer.remaining = 0) :
    ∃ elements blocks, s.queue.destroy = some (elements, blocks) ∧
      s.enqueued = s.dequeued ++ elements ∧ blocks.Perm (List.range s.queue.allocated) := by
  obtain ⟨ring, contents, hblocks, hperm, hqueue, -, -, hstores⟩ :=
    exists_circle h hproducer hconsumer
  refine ⟨ring.flatMap contents, ring, ?_, hqueue, hperm⟩
  simp [Queue.destroy, hblocks, scanBlocks_eq hstores]

theorem producerStep_effect {maxBlockSize : ℕ} {malloc : Bool} {s t : State T}
    (hs : s.producerStep maxBlockSize malloc = some t) (hfault : t.fault = none) :
    t.producer.remaining < s.producer.remaining ∧ t.consumer = s.consumer ∧
      t.dequeued = s.dequeued ∧
      ∃ v, s.producer.value? = some v ∧
        (t.producer = .returned true ∧ t.enqueued = s.enqueued ++ [v] ∨
          t.producer = .returned false ∧ t.enqueued = s.enqueued ∨
          t.producer.value? = some v ∧ t.enqueued = s.enqueued) := by
  have hconstruct : ∀ b v pc, (s.construct b v pc).fault = none →
      (s.construct b v pc).producer = pc ∧ (s.construct b v pc).consumer = s.consumer ∧
        (s.construct b v pc).dequeued = s.dequeued ∧
        (s.construct b v pc).enqueued = s.enqueued := by
    intro b v pc hnone
    unfold State.construct at hnone ⊢
    split at hnone
    · exact ⟨rfl, rfl, rfl, rfl⟩
    · simp at hnone
  unfold State.producerStep at hs
  split at hs <;> rename_i hpc
  · cases hs
  · cases hs
  · cases hs
    simp only [hpc]
    split <;> simp [ProducerPc.remaining, ProducerPc.value?]
  · cases hs
    obtain ⟨hproducer, hconsumer, hdequeued, henqueued⟩ := hconstruct _ _ _ hfault
    simp [hproducer, hconsumer, hdequeued, henqueued, hpc, ProducerPc.remaining, ProducerPc.value?]
  · cases hs
    simp [hpc, ProducerPc.remaining, ProducerPc.value?]
  · split at hs
    · cases hs
      simp [hpc, ProducerPc.remaining, ProducerPc.value?]
    · split at hs <;> cases hs <;> simp [hpc, ProducerPc.remaining, ProducerPc.value?]
  · split at hs
    · cases hs
      simp at hfault
    · dsimp only at hs
      split at hs <;> cases hs
      · simp [hpc, ProducerPc.remaining, ProducerPc.value?]
      · simp at hfault
  · cases hs
    obtain ⟨hproducer, hconsumer, hdequeued, henqueued⟩ := hconstruct _ _ _ hfault
    simp [hproducer, hconsumer, hdequeued, henqueued, hpc, ProducerPc.remaining, ProducerPc.value?]
  · cases hs
    simp [hpc, ProducerPc.remaining, ProducerPc.value?]
  · split at hs <;> cases hs <;> simp [hpc, ProducerPc.remaining, ProducerPc.value?]
  · cases hs
    simp [hpc, ProducerPc.remaining, ProducerPc.value?]
  · cases hs
    simp [hpc, ProducerPc.remaining, ProducerPc.value?]

/-- A step of the consumer brings its call nearer to the end and leaves the producer alone. A call
goes on, removes an element, or ends; when it ends without an element it logs what it knows. -/
theorem consumerStep_effect {s t : State T} (hs : s.consumerStep = some t)
    (hfault : t.fault = none) :
    t.consumer.remaining < s.consumer.remaining ∧ t.producer = s.producer ∧
      t.enqueued = s.enqueued ∧
      (s.consumer = .publishFront ∧ t.consumer = .returned true ∧ t.dequeued = s.dequeued ∨
        ∃ call, s.consumer.call? = some call ∧
          (t.consumer.call? = some call ∧ t.dequeued = s.dequeued ∨
            t.consumer = .publishFront ∧ call.op ≠ .peek ∧
              (∃ v, t.dequeued = s.dequeued ++ [v]) ∨
            t.consumer = .returned true ∧ call.op = .peek ∧ t.dequeued = s.dequeued ∨
            t.consumer = .returned false ∧ t.dequeued = s.dequeued ∧
              (call.since, t.dequeued.length) ∈ t.misses)) := by
  unfold State.consumerStep at hs
  split at hs <;> rename_i hpc
  · cases hs
  · cases hs
  · cases hs
    simp only [hpc]
    split <;> simp [ConsumerPc.remaining, ConsumerPc.call?]
  · split at hs <;> cases hs <;> simp [hpc, ConsumerPc.remaining, ConsumerPc.call?]
  · cases hs
    simp only [hpc]
    split <;> simp [ConsumerPc.remaining, ConsumerPc.call?]
  · split at hs <;> cases hs
    · simp at hfault
    · simp [hpc, ConsumerPc.remaining, ConsumerPc.call?]
  · split at hs
    · split at hs <;> cases hs <;> simp [hpc, ConsumerPc.remaining, ConsumerPc.call?]
    · cases hs
      simp at hfault
  · cases hs
    simp [hpc, ConsumerPc.remaining, ConsumerPc.call?]
  · split at hs
    · cases hs
      simp at hfault
    · split at hs <;> rename_i hop <;> cases hs <;>
        simp [hpc, hop, ConsumerPc.remaining, ConsumerPc.call?]
  · cases hs
    simp [hpc, ConsumerPc.remaining]

theorem consumerStep_allocated {s t : State T} (hs : s.consumerStep = some t) :
    t.queue.allocated = s.queue.allocated ∧
      t.queue.largestBlockSize = s.queue.largestBlockSize := by
  unfold State.consumerStep at hs
  split at hs
  · cases hs
  · cases hs
  · cases hs
    exact ⟨rfl, rfl⟩
  · split at hs <;> cases hs <;> exact ⟨rfl, rfl⟩
  · cases hs
    exact ⟨rfl, rfl⟩
  · split at hs <;> cases hs <;> exact ⟨rfl, rfl⟩
  · split at hs
    · split at hs <;> cases hs <;> exact ⟨rfl, rfl⟩
    · cases hs
      exact ⟨rfl, rfl⟩
  · cases hs
    exact ⟨rfl, rfl⟩
  · split at hs
    · cases hs
      exact ⟨rfl, rfl⟩
    · split at hs <;> cases hs <;> exact ⟨rfl, rfl⟩
  · cases hs
    exact ⟨rfl, rfl⟩

theorem producerStep_largest {maxBlockSize : ℕ} {malloc : Bool} {s t : State T}
    (hs : s.producerStep maxBlockSize malloc = some t) :
    t.queue.largestBlockSize = s.queue.largestBlockSize ∨
      t.queue.largestBlockSize = s.queue.newBlockSize maxBlockSize := by
  have hconstruct : ∀ b v pc,
      (s.construct b v pc).queue.largestBlockSize = s.queue.largestBlockSize := by
    intro b v pc
    unfold State.construct
    split <;> rfl
  unfold State.producerStep at hs
  split at hs
  · cases hs
  · cases hs
  · cases hs
    exact .inl rfl
  · cases hs
    exact .inl (hconstruct ..)
  · cases hs
    exact .inl rfl
  · split at hs
    · cases hs
      exact .inl rfl
    · split at hs <;> cases hs <;> exact .inl rfl
  · split at hs
    · cases hs
      exact .inl rfl
    · dsimp only at hs
      split at hs <;> cases hs <;> exact .inl rfl
  · cases hs
    exact .inl (hconstruct ..)
  · cases hs
    exact .inl rfl
  · split at hs <;> cases hs
    · exact .inr rfl
    · exact .inl rfl
  · cases hs
    exact .inl rfl
  · cases hs
    exact .inl rfl

theorem largest_le {maxBlockSize size : ℕ} {s : State T}
    (h : Reachable (next maxBlockSize) (make T maxBlockSize size) s) :
    s.queue.largestBlockSize ≤ maxBlockSize * 2 := by
  refine h.invariant (I := fun u => u.queue.largestBlockSize ≤ maxBlockSize * 2) ?_ ?_
  · simp only [make, Queue.make]
    split <;> simp only <;> omega
  · intro u label v hu hv
    simp only [next] at hv
    split at hv
    · cases hv
    · cases label with
      | enqueue w mode =>
        simp only at hv
        split at hv <;> cases hv <;> exact hu
      | producer malloc =>
        rcases producerStep_largest hv with hlargest | hlargest <;> rw [hlargest]
        · exact hu
        · unfold Queue.newBlockSize
          split <;> omega
      | call op =>
        simp only at hv
        split at hv <;> cases hv <;> exact hu
      | consumer => rwa [(consumerStep_allocated hv).2]

theorem next_remaining {capacity maxBlockSize : ℕ} {s t : State T} {label : Label T}
    (h : Described capacity s) (hs : next maxBlockSize s label = some t) :
    ((∀ v mode, label ≠ .enqueue v mode) →
      t.producer.remaining + (if label.ofProducer then 1 else 0) ≤ s.producer.remaining) ∧
    ((∀ op, label ≠ .call op) →
      t.consumer.remaining + (if label.ofConsumer then 1 else 0) ≤ s.consumer.remaining) := by
  obtain ⟨_, _, _, h'⟩ := described_next h hs
  obtain ⟨_, _, _, h⟩ := h
  simp only [next, h.fault, Option.isSome_none, Bool.false_eq_true, if_false] at hs
  cases label with
  | enqueue v mode =>
    refine ⟨fun hno => absurd rfl (hno v mode), fun _ => ?_⟩
    simp only at hs
    split at hs <;> cases hs <;> exact Nat.le_refl _
  | producer malloc =>
    obtain ⟨hlt, hsame, -⟩ := producerStep_effect hs h'.fault
    exact ⟨fun _ => hlt, fun _ => hsame ▸ Nat.le_refl _⟩
  | call op =>
    refine ⟨fun _ => ?_, fun hno => absurd rfl (hno op)⟩
    simp only at hs
    split at hs <;> cases hs <;> exact Nat.le_refl _
  | consumer =>
    obtain ⟨hlt, hsame, -⟩ := consumerStep_effect hs h'.fault
    exact ⟨fun _ => hsame ▸ Nat.le_refl _, fun _ => hlt⟩

theorem next_isSome {maxBlockSize : ℕ} {s : State T} (hfault : s.fault = none) :
    (s.producer.remaining ≠ 0 → ∀ malloc, (next maxBlockSize s (.producer malloc)).isSome) ∧
      (s.consumer.remaining ≠ 0 → (next maxBlockSize s .consumer).isSome) := by
  simp only [next, hfault, Option.isSome_none, Bool.false_eq_true, if_false]
  constructor
  · intro hin malloc
    cases hpc : s.producer with
    | idle => simp [hpc, ProducerPc.remaining] at hin
    | returned => simp [hpc, ProducerPc.remaining] at hin
    | checkNext v mode held =>
      simp only [State.producerStep, hpc]
      split
      · rfl
      · cases mode <;> rfl
    | loadNextFront v =>
      simp only [State.producerStep, hpc]
      split
      · rfl
      · split <;> rfl
    | makeBlock v held =>
      simp only [State.producerStep, hpc]
      split <;> rfl
    | _ => simp [State.producerStep, hpc]
  · intro hin
    cases hpc : s.consumer with
    | idle => simp [hpc, ConsumerPc.remaining] at hin
    | returned => simp [hpc, ConsumerPc.remaining] at hin
    | checkTailBlock call =>
      simp only [State.consumerStep, hpc]
      split <;> rfl
    | loadNext call =>
      simp only [State.consumerStep, hpc]
      split <;> rfl
    | loadNextTail call n =>
      simp only [State.consumerStep, hpc]
      split
      · split <;> rfl
      · rfl
    | element call n =>
      simp only [State.consumerStep, hpc]
      split
      · rfl
      · split <;> rfl
    | _ => simp [State.consumerStep, hpc]

section Runs
variable {maxBlockSize size : ℕ} {s : State T}

/-- The second element has a block linked in. It is written while the consumer looks at the first
one, and the queue is full again when the producer calls `try_enqueue`. -/
private def grownSchedule : List (Label ℕ) :=
  [.enqueue 7 .canAlloc, .producer false, .producer false, .enqueue 8 .canAlloc, .producer false,
    .producer false, .producer true, .call .peek, .producer false, .consumer, .producer false,
    .consumer, .call .tryDequeue, .enqueue 9 .cannotAlloc, .consumer, .producer false,
    .producer false, .consumer]

/-- Both elements are taken out, and a third call finds none. -/
private def drainedSchedule : List (Label ℕ) :=
  grownSchedule ++ .call .pop :: List.replicate 8 .consumer ++
    .call .tryDequeue :: List.replicate 2 .consumer

/-- The first block of a queue constructed for no element has a single cell, and an element in it
looks like none to the consumer that comes round to it. -/
example : (run (next 2) (make ℕ 2 0)
    (List.flatten
      [[.enqueue 7 .canAlloc], List.replicate 5 (.producer true),
        [.call .tryDequeue], List.replicate 8 .consumer,
        [.enqueue 8 .canAlloc], List.replicate 3 (.producer true),
        [.enqueue 9 .canAlloc], List.replicate 6 (.producer true),
        [.call .tryDequeue], List.replicate 3 .consumer,
        [.call .tryDequeue], List.replicate 5 .consumer])).map (fun s => s.fault) =
    some (some .assertion) := by decide +kernel

private theorem exists_grown :
    ∃ s, run (next 2) (make ℕ 2 1) grownSchedule = some s ∧ s.producer.remaining = 0 ∧
      s.consumer.remaining = 0 ∧ (s.enqueued, s.dequeued) = ([7, 8], [7]) := by
  have hcalls : (run (next 2) (make ℕ 2 1) grownSchedule).map (fun s =>
      (s.producer.remaining, s.consumer.remaining, s.enqueued, s.dequeued)) =
        some (0, 0, [7, 8], [7]) := by decide +kernel
  obtain ⟨s, hs, heq⟩ := Option.map_eq_some_iff.mp hcalls
  simp only [Prod.mk.injEq] at heq
  exact ⟨s, hs, heq.1, heq.2.1, by rw [heq.2.2.1, heq.2.2.2]⟩

/-- The elements that the blocks hold together. -/
def Queue.capacity (q : Queue T) : ℕ :=
  ((List.range q.allocated).map fun b => (q.heap b).sizeMask).sum

end Runs

end MessagePass.BlockRings
