import MessagePass.PeerMessages

/-!
# Harmless and harmful multipart messages

While only harmless messages are delivered, every well-formed message of a prepared source reaches
its queue. A message against that condition which finds the loop with nothing left to receive does
harm: with another number of frames the iterations never end where a message ends again, and with
two frames it ends the process or is enqueued under a prepared source that did not send it so.
-/
namespace MessagePass.PeerMessages
open DataMessages ReceiveQueues LittleEndian LabelledRuns RelatedLists ReceiveLoop

variable {T : Type} [ReceivedMessage T] {sources : List UInt64} {s : Ingress T}

structure Attentive (s : Ingress T) : Prop where
  pc : s.receiver.pc = .loop
  running : s.receiver.running = true
  wired : s.receiver.table.Wired

theorem iteration_terminates (h : Attentive s) {id sizeFrame : Frame} {rest : List Frame}
    (hframes : s.receiver.frames = id :: sizeFrame :: rest) (indeterminate : UInt64)
    (hnew : (ofCapacity (overwrite 0 sizeFrame) : Option T) = none) :
    ∃ t, run ingressNext s (List.replicate 3 (.thread true indeterminate)) = some t ∧
      t.receiver.pc = .terminated := by
  refine ⟨_, rfl, ?_⟩
  simp [recvMessage, h.pc, h.running, Receiver.recv, hframes, hnew]

theorem iteration_enqueues (h : Attentive s) {id sizeFrame payloadFrame : Frame}
    {rest : List Frame} (hframes : s.receiver.frames = id :: sizeFrame :: payloadFrame :: rest)
    (indeterminate : UInt64) {buffer : T}
    (hnew : ofCapacity (overwrite 0 sizeFrame) = some buffer) :
    ∃ queue t, run ingressNext s (List.replicate 5 (.thread true indeterminate)) = some t ∧
      t.delivered = s.delivered ∧
      (s.receiver.table.findOrInsert (overwrite indeterminate id)).queueOf
        (overwrite indeterminate id) = some queue ∧
      t.receiver = { s.receiver with
        frames := rest
        table := s.receiver.table.findOrInsert (overwrite indeterminate id)
        enqueued := s.receiver.enqueued ++ [(queue, setSize (copyIn buffer
          (payloadFrame.take (overwrite 0 sizeFrame).toNat)) (received payloadFrame))] } := by
  obtain ⟨queue, hqueue⟩ := (h.wired.findOrInsert (overwrite indeterminate id)).exists_queueOf
    (QueueTable.mem_findOrInsert _)
  refine ⟨queue, _, rfl, rfl, hqueue, ?_⟩
  simp [recvMessage, h.pc, h.running, Receiver.recv, hframes, hnew, Receiver.enqueueMsg, hqueue]

omit [ReceivedMessage T] in
theorem Attentive.of_receiver {t : Ingress T} (h : Attentive s) {frames : List Frame}
    {source : UInt64} {enqueued : List (ℕ × T)}
    (ht : t.receiver = { s.receiver with
      frames := frames
      table := s.receiver.table.findOrInsert source
      enqueued := enqueued }) : Attentive t := by
  constructor <;> rw [ht]
  · exact h.pc
  · exact h.running
  · exact h.wired.findOrInsert source

theorem exists_drained (h : Attentive s) :
    ∃ labels t, run ingressNext s labels = some t ∧
      (t.receiver.pc = .terminated ∨ Attentive t ∧ t.delivered = s.delivered ∧
        t.receiver.frames.length = s.receiver.frames.length % 3) := by
  induction hlength : s.receiver.frames.length using Nat.strong_induction_on generalizing s with
  | _ n ih =>
    match hframes : s.receiver.frames with
    | [] | [_] | [_, _] =>
      refine ⟨[], s, rfl, .inr ⟨h, rfl, ?_⟩⟩
      rw [← hlength, hframes]
      rfl
    | id :: sizeFrame :: payloadFrame :: rest =>
      cases hnew : (ofCapacity (overwrite 0 sizeFrame) : Option T) with
      | none =>
        obtain ⟨t, ht, hpc⟩ := iteration_terminates h hframes 0 hnew
        exact ⟨_, t, ht, .inl hpc⟩
      | some buffer =>
        obtain ⟨queue, u, hu, hdelivered, -, hreceiver⟩ := iteration_enqueues h hframes 0 hnew
        have hrest : u.receiver.frames.length + 3 = n := by
          rw [hreceiver, ← hlength, hframes]
          rfl
        obtain ⟨labels, t, ht, hend⟩ := ih _ (by omega) (h.of_receiver hreceiver) rfl
        refine ⟨_ ++ labels, t, by rw [run_append, hu]; exact ht, hend.imp_right ?_⟩
        rintro ⟨hattentive, hsame, hleft⟩
        exact ⟨hattentive, hsame.trans hdelivered, by omega⟩

private def probe : Multipart := ⟨image 0, [image 0, []]⟩

/-- After a message with the wrong number of frames no iteration ends where a message does. -/
theorem misaligned_harms (h : Attentive s) (hframes : s.receiver.frames = []) {m : Multipart}
    (hparts : m.parts.length % 3 ≠ 2) :
    ∃ labels t, run ingressNext s (.deliver m :: labels) = some t ∧ ¬ Unharmed sources t := by
  let u : Ingress T := { s with
    receiver.frames := s.receiver.frames ++ m.frames ++ probe.frames
    delivered := s.delivered ++ [m] ++ [probe] }
  have hu : Attentive u := ⟨h.pc, h.running, h.wired⟩
  obtain ⟨labels, t, ht, hend⟩ := exists_drained hu
  refine ⟨.deliver probe :: labels, t, ht, fun hunharmed => ?_⟩
  rcases hend with hpc | ⟨hattentive, hdelivered, hleft⟩
  · exact hunharmed.defined.2 hpc
  obtain ⟨taken, rest, hsplit, hrest, -⟩ := hunharmed.taken
  have hcount : t.receiver.frames.length % 3 ≠ 0 ∧ t.receiver.frames.length < 3 := by
    have htotal : u.receiver.frames.length = m.parts.length + 4 := by
      simp [u, hframes, Multipart.frames, probe]
    omega
  rw [hrest hattentive.pc] at hcount
  rcases rest.eq_nil_or_concat with rfl | ⟨front, last, rfl⟩
  · simp [framesOf] at hcount
  · -- the probe is the last message, and its frames alone are three
    have hlast : last = probe := by
      rw [hdelivered, List.concat_eq_append, ← List.append_assoc] at hsplit
      exact (List.cons.inj (List.append_inj_right' hsplit rfl)).1.symm
    simp only [List.concat_eq_append, framesOf, List.flatMap_append, hlast, List.flatMap_singleton,
      List.length_append, Multipart.frames, probe, List.length_cons, List.length_nil] at hcount
    omega

theorem overwrite_of_announces {m : Multipart} {source : UInt64} (h : Announces m source) :
    overwrite source m.routingId = source := by
  by_cases hle : m.routingId.length ≤ 8
  · rw [Announces, List.take_of_length_le hle] at h
    obtain ⟨rest, hrest⟩ := h
    have hdrop : (image source).drop m.routingId.length = rest := by
      rw [← hrest, List.drop_left]
    rw [overwrite, hdrop, hrest, word_image]
  · have htake : m.routingId.take 8 = image source :=
      h.eq_of_length (by rw [List.length_take, length_image]; omega)
    rw [overwrite, word, List.take_append_of_le_length (by omega), htake]
    have himage := word_image source
    rwa [word, List.take_of_length_le (length_image source).le] at himage

omit [ReceivedMessage T] in
theorem eq_nil_of_framesOf {rest : List Multipart} (h : framesOf rest = []) : rest = [] := by
  cases rest with
  | nil => rfl
  | cons m rest => simp [framesOf, Multipart.frames] at h

theorem Unharmed.served_all (h : Unharmed sources s) (hpc : s.receiver.pc = .loop)
    (hframes : s.receiver.frames = []) (source : UInt64) (hmem : source ∈ sources) :
    ∃ queue, (QueueTable.prepareSources {} sources).queueOf source = some queue ∧
      s.receiver.table.queueOf source = some queue ∧
      ServedFrom source s.delivered
        ((s.receiver.enqueued.filter fun entry => entry.1 = queue).map Prod.snd) := by
  obtain ⟨taken, rest, hsplit, hrest, hserved⟩ := h.taken
  have hnone := eq_nil_of_framesOf ((hrest hpc).symm.trans hframes)
  rw [hnone, List.append_nil] at hsplit
  rw [hsplit]
  exact hserved source hmem

theorem carries_of_servedFrom {source : UInt64} {taken : List Multipart} {contents : List T}
    {m : Multipart} {got : T} (h : ServedFrom source taken contents)
    (hmore : ServedFrom source (taken ++ [m]) (contents ++ [got])) :
    m.routingId = image source ∧ WellFormed m.parts ∧ Carries m got := by
  have hlast := List.forall₂_drop_append _ _ _ hmore
  rw [List.filter_append, ← h.length_eq, List.drop_left] at hlast
  by_cases howed : m.routingId = image source ∧ WellFormed m.parts
  · rw [List.filter_cons_of_pos (by simpa using howed)] at hlast
    exact ⟨howed.1, howed.2, (List.forall₂_cons.mp hlast).1⟩
  · rw [List.filter_cons_of_neg (by simpa using howed)] at hlast
    cases hlast

/-- A message of two frames under the id of a prepared source that may not be taken for one of it:
what is enqueued for it is not what the source is owed. -/
theorem spurious_harms (h : Attentive s) (hin : Unharmed sources s)
    (hframes : s.receiver.frames = []) {m : Multipart} (hm : ¬ Harmless T sources m)
    (hparts : m.parts.length = 2) :
    ∃ labels t, run ingressNext s (.deliver m :: labels) = some t ∧ ¬ Unharmed sources t := by
  obtain ⟨sizeFrame, payloadFrame, hparts⟩ := List.length_eq_two.mp hparts
  let u : Ingress T := { s with
    receiver.frames := s.receiver.frames ++ m.frames
    delivered := s.delivered ++ [m] }
  have hu : Attentive u := ⟨h.pc, h.running, h.wired⟩
  have huframes : u.receiver.frames = m.routingId :: sizeFrame :: payloadFrame :: [] := by
    simp [u, hframes, Multipart.frames, hparts]
  cases hnew : (ofCapacity (overwrite 0 sizeFrame) : Option T) with
  | none =>
    obtain ⟨t, ht, hpc⟩ := iteration_terminates hu huframes 0 hnew
    exact ⟨List.replicate 3 (.thread true 0), t, ht, fun hunharmed => hunharmed.defined.2 hpc⟩
  | some buffer =>
    have halloc : Allocated T m := by simp [Allocated, hparts, hnew]
    obtain ⟨source, hmem, hsource, hbad⟩ : ∃ source ∈ sources, Announces m source ∧
        ¬ (m.routingId.length = 8 ∧ WellFormed m.parts ∧
          ∀ part ∈ m.parts, part.length < 2 ^ 31) := by
      by_contra hno
      refine hm ⟨by simp [hparts], or_iff_not_imp_left.mpr fun hbad => ⟨?_, halloc⟩⟩
      exact fun source hmem hsource => hno ⟨source, hmem, hsource, hbad⟩
    obtain ⟨queue, t, ht, hdelivered, hqueue, hreceiver⟩ :=
      iteration_enqueues hu huframes source hnew
    rw [overwrite_of_announces hsource] at hqueue hreceiver
    refine ⟨List.replicate 5 (.thread true source), t, ht, fun hunharmed => hbad ?_⟩
    obtain ⟨queue₁, hprepared, hbefore, hserved⟩ := hin.served_all h.pc hframes source hmem
    obtain ⟨queue₂, hprepared', -, hserved'⟩ := hunharmed.served_all
      (by rw [hreceiver]; exact h.pc) (by rw [hreceiver]) source hmem
    obtain rfl : queue₁ = queue₂ := Option.some.inj (hprepared.symm.trans hprepared')
    have hsame : queue = queue₁ := by
      have hqueue' : (s.receiver.table.findOrInsert source).queueOf source = some queue := hqueue
      rw [QueueTable.findOrInsert_of_queueOf hbefore, hbefore] at hqueue'
      exact (Option.some.inj hqueue').symm
    rw [hreceiver, hdelivered, hsame, List.filter_append, List.map_append] at hserved'
    obtain ⟨hid, hformed, frame, hcarries, hsize⟩ :=
      carries_of_servedFrom hserved (by simpa using hserved')
    rw [hparts] at hcarries hformed
    obtain ⟨rfl, -⟩ := List.cons.inj hcarries
    have hint := congrArg UInt64.toNat hsize
    rw [ReceivedMessage.size_setSize, toNat_received, hformed.2] at hint
    refine ⟨by rw [hid, length_image], hparts ▸ hformed, ?_⟩
    have hshort := hformed.1
    simp only [hparts, List.mem_cons, List.not_mem_nil, or_false, forall_eq_or_imp, forall_eq]
    omega

/-- While only harmless messages are delivered, whatever receives fail and whenever `stop()` comes,
a malformed message harms only itself. A harmful one that finds the loop with nothing left to
receive can be followed by a run in which messages are lost or made up. -/
theorem malformed_messages_harm_themselves (sources : List UInt64) :
    (∀ s : Ingress T,
      Reachable (guarded (Welcome sources) ingressNext) (Ingress.prepared sources) s →
        Unharmed sources s) ∧
    ∀ (s : Ingress T) (m : Multipart),
      Reachable (guarded (Welcome sources) ingressNext) (Ingress.prepared sources) s →
      s.receiver.pc = .loop → s.receiver.running = true → s.receiver.frames = [] →
      ¬ Harmless T sources m → (m.parts.length = 2 ∨ m.parts.length % 3 ≠ 2) →
        ∃ labels t, run ingressNext s (.deliver m :: labels) = some t ∧ ¬ Unharmed sources t := by
  refine ⟨fun s h => unharmed_reachable h, fun s m h hpc hrunning hframes hm hparts => ?_⟩
  have hattentive : Attentive s := ⟨hpc, hrunning, (inStep_reachable h).wired⟩
  rcases hparts with htwo | hthree
  · exact spurious_harms hattentive (unharmed_reachable h) hframes hm htwo
  · exact misaligned_harms hattentive hframes hthree

private def sizeless (byte : UInt8) : Multipart := ⟨image 6, [[byte]]⟩

private def greeting : Multipart := ⟨image 5, [image 2, [104, 105]]⟩

/-- A foreign message of two frames that are not well formed, then one of a prepared source, with
a failed receive in between. -/
private def tolerated : List IngressLabel :=
  [.deliver ⟨image 6, [[1], [2, 3]]⟩, .thread true 0, .thread true 0, .thread true 0,
    .thread true 0, .thread true 0, .deliver greeting, .thread true 0, .thread false 0,
    .thread true 0, .thread true 0, .thread true 0, .thread true 0, .thread true 0]

theorem malformed_messages_harm_themselves_example :
    ∃ s : Ingress ByteMessage,
      run (guarded (Welcome [5]) ingressNext) (Ingress.prepared [5]) tolerated = some s ∧
      s.receiver.enqueued = [(1, ⟨[2], 2⟩), (0, .ofBytes [104, 105])] ∧ Unharmed [5] s ∧
      ∃ labels t, run ingressNext s (.deliver (sizeless 1) :: labels) = some t ∧
        ¬ Unharmed [5] t := by
  have hrun : (run (guarded (Welcome [5]) ingressNext)
      (Ingress.prepared [5] : Ingress ByteMessage) tolerated).map
      (fun s => (s.receiver.enqueued, s.receiver.pc, s.receiver.running, s.receiver.frames)) =
        some ([(1, ⟨[2], 2⟩), (0, .ofBytes [104, 105])], .loop, true, []) := by decide +kernel
  obtain ⟨s, hs, heq⟩ := Option.map_eq_some_iff.mp hrun
  simp only [Prod.mk.injEq] at heq
  obtain ⟨henqueued, hpc, hrunning, hframes⟩ := heq
  obtain ⟨hunharmed, hharm⟩ := malformed_messages_harm_themselves (T := ByteMessage) [5]
  exact ⟨s, hs, henqueued, hunharmed s ⟨_, hs⟩,
    hharm s (sizeless 1) ⟨_, hs⟩ hpc hrunning hframes (by decide) (.inr (by decide))⟩

/-- Three messages that lack a frame make the loop lose the well-formed one among them. -/
private def shifted : List IngressLabel :=
  [.deliver (sizeless 1), .deliver greeting, .deliver (sizeless 2), .deliver (sizeless 3)] ++
    List.replicate 15 (.thread true 0)

theorem short_message_harms_others :
    ∃ s : Ingress ByteMessage,
      run ingressNext (Ingress.prepared [5]) shifted = some s ∧ ¬ Unharmed [5] s := by
  have hrun : (run ingressNext (Ingress.prepared [5] : Ingress ByteMessage) shifted).map
      (fun s => (decide (s.receiver.pc = .loop), s.receiver.frames, s.delivered,
        s.receiver.table.queueOf 5, s.receiver.enqueued.countP fun entry => entry.1 = 0)) =
      some (true, [], [sizeless 1, greeting, sizeless 2, sizeless 3], some 0, 0) := by
    decide +kernel
  obtain ⟨s, hs, heq⟩ := Option.map_eq_some_iff.mp hrun
  simp only [Prod.mk.injEq] at heq
  obtain ⟨hpc, hframes, hdelivered, hqueue, hempty⟩ := heq
  refine ⟨s, hs, fun h => ?_⟩
  obtain ⟨taken, rest, hsplit, hrest, hserved⟩ := h.taken
  have hnone := eq_nil_of_framesOf ((hrest (of_decide_eq_true hpc)).symm.trans hframes)
  obtain ⟨queue, -, hq, hforall⟩ := hserved 5 List.mem_cons_self
  obtain rfl := Option.some.inj (hq.symm.trans hqueue)
  rw [hnone, List.append_nil, hdelivered] at hsplit
  rw [List.countP_eq_length_filter, List.length_eq_zero_iff] at hempty
  rw [hempty, ← hsplit, ServedFrom] at hforall
  exact absurd hforall.length_eq (by decide)

end MessagePass.PeerMessages
