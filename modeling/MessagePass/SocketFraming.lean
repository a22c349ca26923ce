import MessagePass.DataMessages
import MessagePass.FlaggedGroups

/-!
# Framing when sends fail

`send_msg` makes a multipart message of two calls of `zmq_send` and looks at the result of
neither. The frames a socket has accepted are kept with the message each belongs to, so that a
size joined to the payload of another message is told apart from a whole message.
-/
namespace MessagePass.SocketFraming
open DataMessages LittleEndian FlaggedGroups

variable {T : Type} [IDataMessage T]

/-- A frame that a socket has accepted: the position of its message among the calls of `send_msg`,
its bytes, and the flag `ZMQ_SNDMORE`. -/
structure AcceptedFrame where
  owner : ℕ
  bytes : List UInt8
  more : Bool
  deriving DecidableEq

/-- One call of `send_msg`: a message with `size()` bytes to read, and the outcomes of the two
calls of `zmq_send`. -/
structure Attempt (T : Type) [IDataMessage T] where
  msg : T
  readable : (size msg).toNat ≤ (constData msg).length
  sizeSent : Bool
  payloadSent : Bool

namespace Attempt
variable (a : Attempt T) (n : ℕ)

def sizeFrame : AcceptedFrame := ⟨n, image (size a.msg), true⟩

def payloadFrame : AcceptedFrame := ⟨n, (constData a.msg).take (size a.msg).toNat, false⟩

end Attempt

/-- `zmq_send`: a call that returns -1 has accepted nothing. -/
def zmqSend (socket : List AcceptedFrame) (sent : Bool) (frame : AcceptedFrame) :
    List AcceptedFrame := if sent then socket ++ [frame] else socket

/-- `send_msg` in variable-size mode, as the `n`-th call on a socket. -/
def sendMsg (socket : List AcceptedFrame) (a : Attempt T) (n : ℕ) : List AcceptedFrame :=
  zmqSend (zmqSend socket a.sizeSent (a.sizeFrame n)) a.payloadSent (a.payloadFrame n)

def sendAll (attempts : List (Attempt T)) : List AcceptedFrame :=
  attempts.zipIdx.foldl (fun socket call => sendMsg socket call.1 call.2) []

def multiparts (socket : List AcceptedFrame) : List (List AcceptedFrame) × List AcceptedFrame :=
  groups AcceptedFrame.more socket

/-- No multipart message is left open, and each is the pair of one of the messages, in order: an
eight-byte size and as many bytes of payload. -/
structure Whole (attempts : List (Attempt T)) (socket : List AcceptedFrame) : Prop where
  closed : (multiparts socket).2 = []
  pairs : ∃ kept : List (Attempt T × ℕ), kept.Sublist attempts.zipIdx ∧ (multiparts socket).1 =
    kept.map fun call => [call.1.sizeFrame call.2, call.1.payloadFrame call.2]
  framed : ∀ parts ∈ (multiparts socket).1, ∃ sizePart payloadPart : AcceptedFrame,
    parts = [sizePart, payloadPart] ∧ sizePart.bytes.length = 8 ∧
      (word sizePart.bytes).toNat = payloadPart.bytes.length

def framesOf (call : Attempt T × ℕ) : List AcceptedFrame :=
  (if call.1.sizeSent then [call.1.sizeFrame call.2] else []) ++
    if call.1.payloadSent then [call.1.payloadFrame call.2] else []

theorem sendAll_eq (attempts : List (Attempt T)) :
    sendAll attempts = attempts.zipIdx.flatMap framesOf := by
  have hfold : ∀ (calls : List (Attempt T × ℕ)) socket,
      calls.foldl (fun socket call => sendMsg socket call.1 call.2) socket =
        socket ++ calls.flatMap framesOf := by
    intro calls
    induction calls with
    | nil => simp
    | cons call calls ih =>
      intro socket
      rw [List.foldl_cons, ih, List.flatMap_cons, ← List.append_assoc]
      congr 1
      unfold sendMsg zmqSend framesOf
      cases call.1.sizeSent <;> cases call.1.payloadSent <;> simp
  exact hfold _ _

theorem multiparts_of_both_or_neither {calls : List (Attempt T × ℕ)}
    (h : ∀ call ∈ calls, call.1.sizeSent = call.1.payloadSent) :
    multiparts (calls.flatMap framesOf) = ((calls.filter fun call => call.1.sizeSent).map
      fun call => [call.1.sizeFrame call.2, call.1.payloadFrame call.2], []) := by
  induction calls with
  | nil => rfl
  | cons call calls ih =>
    have hrest := ih fun c hc => h c (List.mem_cons_of_mem _ hc)
    have hboth := h call List.mem_cons_self
    cases hsize : call.1.sizeSent with
    | false => simpa [framesOf, hsize, ← hboth] using hrest
    | true =>
      have hpair := groups_pair AcceptedFrame.more (a := call.1.sizeFrame call.2)
        (b := call.1.payloadFrame call.2) rfl rfl (calls.flatMap framesOf)
      simp only [multiparts] at hrest ⊢
      simp [framesOf, hsize, ← hboth, hpair, hrest]

/-- How many of the frames carry a size of this message, or its payload. -/
def countOf (socket : List AcceptedFrame) (n : ℕ) (more : Bool) : ℕ :=
  socket.countP fun frame => frame.owner = n ∧ frame.more = more

theorem countOf_pairs (kept : List (Attempt T × ℕ)) (n : ℕ) :
    countOf (kept.map fun call => [call.1.sizeFrame call.2, call.1.payloadFrame call.2]).flatten n
      true = countOf (kept.map fun call =>
        [call.1.sizeFrame call.2, call.1.payloadFrame call.2]).flatten n false := by
  induction kept with
  | nil => rfl
  | cons call kept ih =>
    simp only [countOf, List.map_cons, List.flatten_cons, List.countP_append] at ih ⊢
    rw [ih]
    simp [Attempt.sizeFrame, Attempt.payloadFrame, List.countP_cons]

def Attempt.accepted (a : Attempt T) (more : Bool) : Bool :=
  if more then a.sizeSent else a.payloadSent

theorem countOf_framesOf (call : Attempt T × ℕ) (n : ℕ) (more : Bool) :
    countOf (framesOf call) n more = if call.2 = n ∧ call.1.accepted more then 1 else 0 := by
  by_cases howner : call.2 = n
  · cases more <;> cases hsize : call.1.sizeSent <;> cases hpayload : call.1.payloadSent <;>
      simp [countOf, framesOf, Attempt.sizeFrame, Attempt.payloadFrame, Attempt.accepted, hsize,
        hpayload, howner]
  · rw [if_neg fun h => howner h.1, countOf, List.countP_eq_zero]
    intro frame hmem
    have hframe : frame.owner = call.2 := by
      simp only [framesOf, List.mem_append] at hmem
      rcases hmem with hmem | hmem <;> split at hmem
      all_goals simp_all [Attempt.sizeFrame, Attempt.payloadFrame]
    simp [hframe, howner]

theorem countOf_later (attempts : List (Attempt T)) {start n : ℕ} (h : n < start) (more : Bool) :
    countOf ((attempts.zipIdx start).flatMap framesOf) n more = 0 := by
  induction attempts generalizing start with
  | nil => rfl
  | cons a attempts ih =>
    simp only [List.zipIdx_cons, List.flatMap_cons, countOf, List.countP_append] at ih ⊢
    have hframes := countOf_framesOf (a, start) n more
    rw [countOf, if_neg fun hn => absurd hn.1 (Nat.ne_of_gt h)] at hframes
    rw [hframes, ih (Nat.lt_succ_of_lt h)]

theorem countOf_sent {attempts : List (Attempt T)} {start i : ℕ} {a : Attempt T}
    (ha : attempts[i]? = some a) (more : Bool) :
    countOf ((attempts.zipIdx start).flatMap framesOf) (start + i) more =
      if a.accepted more then 1 else 0 := by
  induction attempts generalizing start i with
  | nil => simp at ha
  | cons first attempts ih =>
    have hframes := countOf_framesOf (first, start) (start + i) more
    cases i with
    | zero =>
      cases ha
      have hlater := countOf_later attempts (Nat.lt_succ_self start) more
      simp only [List.zipIdx_cons, List.flatMap_cons, countOf, List.countP_append]
        at hlater ⊢ hframes
      rw [hframes, Nat.add_zero, hlater]
      simp
    | succ i =>
      have hrest : countOf ((attempts.zipIdx (start + 1)).flatMap framesOf) (start + 1 + i) more =
          if a.accepted more then 1 else 0 := ih ha
      rw [Nat.add_assoc, Nat.add_comm 1 i] at hrest
      rw [if_neg (by omega)] at hframes
      simp only [List.zipIdx_cons, List.flatMap_cons, countOf, List.countP_append]
        at hrest ⊢ hframes
      rw [hframes, hrest, Nat.zero_add]

/-- A socket whose frames form whole pairs carries a payload exactly where it carries a size. -/
theorem Whole.both_or_neither {attempts : List (Attempt T)} (h : Whole attempts (sendAll attempts))
    {a : Attempt T} (ha : a ∈ attempts) : a.sizeSent = a.payloadSent := by
  obtain ⟨i, hi⟩ := List.mem_iff_getElem?.mp ha
  obtain ⟨kept, -, hkept⟩ := h.pairs
  have hflat := flatten_groups AcceptedFrame.more (sendAll attempts)
  have hclosed := h.closed
  simp only [multiparts] at hkept hclosed
  rw [hkept, hclosed, List.append_nil] at hflat
  have hcount := countOf_pairs kept (0 + i)
  rw [hflat, sendAll_eq, countOf_sent hi, countOf_sent hi] at hcount
  cases hsize : a.sizeSent <;> cases hpayload : a.payloadSent <;>
    simp_all [Attempt.accepted]

theorem Attempt.frames_agree (a : Attempt T) (n : ℕ) : (a.sizeFrame n).bytes.length = 8 ∧
    (word (a.sizeFrame n).bytes).toNat = (a.payloadFrame n).bytes.length := by
  refine ⟨by simp [sizeFrame], ?_⟩
  simp only [sizeFrame, payloadFrame, word_image, List.length_take]
  exact (Nat.min_eq_left a.readable).symm

/-- The socket holds whole pairs, each of one message and in order, exactly if for every message
both calls of `zmq_send` succeeded or both failed. -/
theorem whole_iff_both_or_neither (attempts : List (Attempt T)) :
    Whole attempts (sendAll attempts) ↔ ∀ a ∈ attempts, a.sizeSent = a.payloadSent := by
  constructor
  · intro h a ha
    exact h.both_or_neither ha
  · intro h
    have hcalls : ∀ call ∈ attempts.zipIdx, call.1.sizeSent = call.1.payloadSent :=
      fun call hmem => h call.1 (List.fst_mem_of_mem_zipIdx hmem)
    have hparts := multiparts_of_both_or_neither hcalls
    rw [← sendAll_eq] at hparts
    refine ⟨by rw [hparts], ⟨_, List.filter_sublist, by rw [hparts]⟩, ?_⟩
    intro parts hmem
    rw [hparts, List.mem_map] at hmem
    obtain ⟨call, -, rfl⟩ := hmem
    exact ⟨_, _, rfl, call.1.frames_agree call.2⟩

/-- One message whose size fails and whose payload is accepted leaves a lone payload. -/
theorem lone_payload_breaks_framing :
    let m := ByteMessage.ofBytes [1, 2, 3, 4, 5, 6, 7, 8]
    let a : Attempt ByteMessage := ⟨m, by decide, false, true⟩
    (multiparts (sendAll [a])).1 = [[⟨0, [1, 2, 3, 4, 5, 6, 7, 8], false⟩]] ∧
      ¬ Whole [a] (sendAll [a]) := by
  refine ⟨by decide, fun h => ?_⟩
  obtain ⟨_, _, hpair, -⟩ := h.framed _ (List.mem_singleton.mpr rfl)
  simpa using congrArg List.length hpair

end MessagePass.SocketFraming
