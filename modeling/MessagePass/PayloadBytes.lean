import MessagePass.RequestCodec

/-!
# The bytes a request is decoded from

`recv_request` is given a pointer and a length, and uses the pointer only: the bytes it parses end
at the first zero in memory, which may lie within the payload or behind it. No request that
parses is decoded from exactly its own bytes.
-/
namespace MessagePass.RequestCodec
open RequestMessages

/-- The payload of a Kafka message: a null pointer, as an empty payload may have, or bytes in
memory. -/
inductive Payload where
  | null
  | bytes (bs : List UInt8)
  deriving DecidableEq

def Payload.own : Payload → List UInt8
  | .null => []
  | .bytes bs => bs

inductive Outcome where
  | undefined
  | rejected
  | enqueued (req : RequestMessage)
  deriving DecidableEq

def Outcome.ofParse : Option RequestMessage → Outcome
  | none => .rejected
  | some req => .enqueued req

variable (p : ProtobufRuntime)

/-- `recv_request` on one message, with the memory behind the payload. A string from a null
pointer, or from memory that ends before any zero byte, is undefined. -/
def recvPayload (payload : Payload) (after : List UInt8) : Outcome :=
  match payload with
  | .null => .undefined
  | .bytes bs => match cstring (bs ++ after) with
    | none => .undefined
    | some str => Outcome.ofParse (ParseFromString p str)

/-- The memory behind the payload makes no difference, and the outcome is that of parsing exactly
the bytes of the payload. -/
structure OwnBytesOnly (payload : Payload) : Prop where
  same : ∀ after after', recvPayload p payload after = recvPayload p payload after'
  exact : ∀ after, recvPayload p payload after = Outcome.ofParse (ParseFromString p payload.own)

def uptoZero (bs : List UInt8) : List UInt8 := bs.takeWhile (· ≠ 0)

theorem uptoZero_append {str : Str} (h : 0 ∉ str) (rest : List UInt8) :
    uptoZero (str ++ 0 :: rest) = str := by
  have hread := cstring_append h rest
  rw [cstring, if_pos (by simp)] at hread
  exact Option.some.inj hread

theorem cstring_of_mem {bs : List UInt8} (h : 0 ∈ bs) (after : List UInt8) :
    cstring (bs ++ after) = some (uptoZero bs) := by
  obtain ⟨str, rest, rfl, hstr⟩ := List.eq_append_cons_of_mem h
  rw [List.append_assoc, List.cons_append, cstring_append hstr, uptoZero_append hstr]

theorem ofParse_injective {a b : Option RequestMessage}
    (h : Outcome.ofParse a = Outcome.ofParse b) : a = b := by
  cases a <;> cases b <;> simp_all [Outcome.ofParse]

theorem ofParse_ne_undefined (a : Option RequestMessage) : Outcome.ofParse a ≠ .undefined := by
  cases a <;> simp [Outcome.ofParse]

/-- The payload holds a zero byte, and the bytes before it parse like all of them. -/
theorem ownBytesOnly_iff_parses_alike {payload : Payload} : OwnBytesOnly p payload ↔
    0 ∈ payload.own ∧
      ParseFromString p (uptoZero payload.own) = ParseFromString p payload.own := by
  constructor
  · intro h
    -- nothing behind the payload: the string must end within it
    have hexact := h.exact []
    cases payload with
    | null => exact absurd hexact.symm (ofParse_ne_undefined _)
    | bytes bs =>
      by_cases hzero : 0 ∈ bs
      · rw [recvPayload, cstring_of_mem hzero] at hexact
        exact ⟨hzero, ofParse_injective hexact⟩
      · rw [recvPayload, List.append_nil, cstring, if_neg hzero] at hexact
        exact absurd hexact.symm (ofParse_ne_undefined _)
  · rintro ⟨hzero, hparse⟩
    cases payload with
    | null => simp [Payload.own] at hzero
    | bytes bs =>
      have hrecv : ∀ after, recvPayload p (.bytes bs) after =
          Outcome.ofParse (ParseFromString p bs) := by
        intro after
        have hread : cstring (bs ++ after) = some (uptoZero bs) := cstring_of_mem hzero after
        rw [recvPayload, hread]
        exact congrArg Outcome.ofParse hparse
      exact ⟨fun after after' => (hrecv after).trans (hrecv after').symm, hrecv⟩

/-- A string or an unknown field that is read to its end does not depend on what follows. -/
structure ProtobufRuntime.ReadsForward (p : ProtobufRuntime) : Prop where
  readString : ∀ bs str rest after, p.InlineGreedyStringParser bs = some (str, rest) →
    p.InlineGreedyStringParser (bs ++ after) = some (str, rest ++ after)
  unknownField : ∀ tag bs rest after, p.UnknownFieldParse tag bs = some rest →
    p.UnknownFieldParse tag (bs ++ after) = some (rest ++ after)

section Extension
variable {p} (hp : p.Documented) (hf : p.ReadsForward)
include hp

theorem readTag_append {bs rest : List UInt8} {tag : UInt32}
    (h : p.ReadTag bs = some (tag, rest)) (after : List UInt8) :
    p.ReadTag (bs ++ after) = some (tag, rest ++ after) := by
  rw [hp.readTag] at h ⊢
  obtain ⟨⟨n, left⟩, hn, heq⟩ := Option.map_eq_some_iff.mp h
  cases heq
  rw [Base128.decode_append hn]
  rfl

theorem readVarint64_append {bs rest : List UInt8} {v : UInt64}
    (h : p.ReadVarint64 bs = some (v, rest)) (after : List UInt8) :
    p.ReadVarint64 (bs ++ after) = some (v, rest ++ after) := by
  rw [hp.readVarint64] at h ⊢
  obtain ⟨⟨n, left⟩, hn, heq⟩ := Option.map_eq_some_iff.mp h
  cases heq
  rw [Base128.decode_append hn]
  rfl

include hf

theorem parseField_append {tag : UInt32} {bs rest : List UInt8} {req req' : RequestMessage}
    (h : parseField p tag bs req = some (req', rest)) (after : List UInt8) :
    parseField p tag (bs ++ after) req = some (req', rest ++ after) := by
  have hunusual : (if tag = 0 ∨ tag &&& 7 = 4 then none
        else (p.UnknownFieldParse tag bs).map fun rest => (req, rest)) = some (req', rest) →
      (if tag = 0 ∨ tag &&& 7 = 4 then none
        else (p.UnknownFieldParse tag (bs ++ after)).map fun rest => (req, rest)) =
          some (req', rest ++ after) := by
    intro h
    split at h
    · cases h
    · rename_i hfield
      obtain ⟨left, hleft, heq⟩ := Option.map_eq_some_iff.mp h
      cases heq
      rw [if_neg hfield, hf.unknownField _ _ _ after hleft]
      rfl
  unfold parseField at h ⊢
  dsimp only at h ⊢
  split at h <;> rename_i hnumber
  · split at h <;> rename_i htag
    · obtain ⟨⟨v, left⟩, hv, heq⟩ := Option.map_eq_some_iff.mp h
      cases heq
      simp [htag, readVarint64_append hp hv after]
    · rw [if_neg htag]
      exact hunusual h
  · split at h <;> rename_i htag
    · obtain ⟨⟨v, left⟩, hv, heq⟩ := Option.map_eq_some_iff.mp h
      cases heq
      simp [htag, readVarint64_append hp hv after]
    · rw [if_neg htag]
      exact hunusual h
  · split at h <;> rename_i htag
    · obtain ⟨⟨str, left⟩, hstr, heq⟩ := Option.bind_eq_some_iff.mp h
      simp only [Option.ite_none_right_eq_some, Option.some.injEq] at heq
      obtain ⟨hutf, heq⟩ := heq
      cases heq
      simp [htag, hf.readString _ _ _ after hstr, hutf]
    · rw [if_neg htag]
      exact hunusual h
  · exact hunusual h

omit hf in
theorem internalParse_zero_tag (after : List UInt8) (req : RequestMessage) (fuel : ℕ) :
    internalParse p fuel (0 :: after) req = none := by
  cases fuel with
  | zero => rfl
  | succ fuel =>
    have htag : p.ReadTag (0 :: after) = some (0, after) := by
      rw [hp.readTag]
      rfl
    have hfield : parseField p 0 after req = none := by simp [parseField]
    simp only [internalParse, htag, Option.bind_some, hfield, Option.bind_none]

theorem internalParse_append_zero {fuel : ℕ} {bs : List UInt8} {req result : RequestMessage}
    (h : internalParse p fuel bs req = some result) (after : List UInt8) (fuel' : ℕ) :
    internalParse p fuel' (bs ++ 0 :: after) req = none := by
  induction fuel generalizing bs req fuel' with
  | zero =>
    cases bs with
    | nil => exact internalParse_zero_tag hp after req fuel'
    | cons b bs => cases h
  | succ fuel ih =>
    cases bs with
    | nil => exact internalParse_zero_tag hp after req fuel'
    | cons b bs =>
      rw [internalParse] at h
      obtain ⟨⟨tag, body⟩, htag, h⟩ := Option.bind_eq_some_iff.mp h
      obtain ⟨⟨req', rest⟩, hfield, hrest⟩ := Option.bind_eq_some_iff.mp h
      cases fuel' with
      | zero => rfl
      | succ fuel' =>
        have htag' := readTag_append hp htag (0 :: after)
        rw [List.cons_append] at htag' ⊢
        have hfield' := parseField_append hp hf hfield (0 :: after)
        simp only [internalParse, htag', Option.bind_some, hfield']
        exact ih hrest fuel'

/-- A request is decoded from its own bytes only if the payload holds a zero byte and is rejected,
and so are the bytes before that zero: of no payload that parses is it true. -/
theorem own_bytes_only_iff_rejected (payload : Payload) : OwnBytesOnly p payload ↔
    0 ∈ payload.own ∧ ParseFromString p (uptoZero payload.own) = none ∧
      ParseFromString p payload.own = none := by
  rw [ownBytesOnly_iff_parses_alike]
  apply and_congr_right
  intro hzero
  constructor
  · intro hparse
    obtain ⟨str, rest, heq, hstr⟩ := List.eq_append_cons_of_mem hzero
    rw [heq, uptoZero_append hstr] at hparse ⊢
    cases hfront : ParseFromString p str with
    | none => exact ⟨rfl, hparse.symm.trans hfront⟩
    | some result =>
      have hwhole : ParseFromString p (str ++ 0 :: rest) = none :=
        internalParse_append_zero hp hf hfront rest _
      rw [hwhole, hfront] at hparse
      cases hparse
  · rintro ⟨hfront, hwhole⟩
    rw [hfront, hwhole]

end Extension

theorem readsForward_wireRuntime : wireRuntime.ReadsForward where
  readString bs str rest after h := by
    obtain ⟨⟨n, body⟩, hn, h⟩ := Option.bind_eq_some_iff.mp h
    simp only [Option.ite_none_right_eq_some, Option.some.injEq, Prod.mk.injEq] at h
    obtain ⟨⟨hint, hle⟩, rfl, rfl⟩ := h
    have hle' : n ≤ (body ++ after).length := by rw [List.length_append]; omega
    simp only [wireRuntime, Base128.decode_append hn, Option.bind_some]
    rw [if_pos ⟨hint, hle'⟩, List.take_append_of_le_length hle, List.drop_append_of_le_length hle]
  unknownField _ _ _ _ h := by cases h

/-- Of two end-group tags with a zero byte behind them nothing is decoded, wherever they are cut. -/
theorem own_bytes_only_iff_rejected_example : OwnBytesOnly wireRuntime (.bytes [12, 12, 0, 7]) :=
  (own_bytes_only_iff_rejected documented_wireRuntime readsForward_wireRuntime _).mpr
    (by decide +kernel)

/-- A GET request becomes a DEL request by the bytes behind its payload. -/
theorem neighbouring_bytes_change_request :
    let payload := Payload.bytes (SerializeToString wireRuntime (getRequest [97]))
    recvPayload wireRuntime payload [0] = .enqueued (getRequest [97]) ∧
      recvPayload wireRuntime payload [8, 1, 0] = .enqueued (delRequest [97] 0) ∧
      ¬ OwnBytesOnly wireRuntime payload := by
  have hget : recvPayload wireRuntime (.bytes (SerializeToString wireRuntime (getRequest [97])))
      [0] = .enqueued (getRequest [97]) := by decide +kernel
  have hdel : recvPayload wireRuntime (.bytes (SerializeToString wireRuntime (getRequest [97])))
      [8, 1, 0] = .enqueued (delRequest [97] 0) := by decide +kernel
  refine ⟨hget, hdel, fun h => ?_⟩
  have hsame := hget.symm.trans ((h.same [0] [8, 1, 0]).trans hdel)
  exact absurd hsame (by decide)

end MessagePass.RequestCodec
