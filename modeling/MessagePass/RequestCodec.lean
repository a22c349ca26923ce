import MessagePass.Base128
import MessagePass.RequestMessages

/-!
# The encoding of requests

`_InternalSerialize` and `_InternalParse` of the generated `RequestMessage` class, and the way
`recv_request` finds the bytes to parse: it builds a `std::string` from the payload pointer, which
reads up to the first zero byte in memory. The protobuf runtime is a parameter; `Documented`
states what the generated code relies on.
-/
namespace MessagePass.RequestCodec
open RequestMessages

/-- The functions of the protobuf runtime that the generated code calls. A reader returns what it
read and the bytes after it, or fails. -/
structure ProtobufRuntime where
  WriteTagToArray : UInt32 → List UInt8
  WriteVarint32 : UInt32 → List UInt8
  WriteVarint64 : UInt64 → List UInt8
  ReadTag : List UInt8 → Option (UInt32 × List UInt8)
  ReadVarint64 : List UInt8 → Option (UInt64 × List UInt8)
  InlineGreedyStringParser : List UInt8 → Option (Str × List UInt8)
  VerifyUTF8 : Str → Bool
  UnknownFieldParse : UInt32 → List UInt8 → Option (List UInt8)

/-- The bytes are the UTF-8 encoding of some sequence of characters. -/
def ValidUTF8 (str : Str) : Prop := (ByteArray.mk str.toArray).IsValidUTF8

/-- Canonical varint writing, varint reading, strings read with their length in front, and a check
that accepts exactly valid UTF-8. -/
structure ProtobufRuntime.Documented (p : ProtobufRuntime) : Prop where
  writeTag : ∀ tag, p.WriteTagToArray tag = Base128.encode 4 tag.toNat
  writeVarint32 : ∀ v, p.WriteVarint32 v = Base128.encode 4 v.toNat
  writeVarint64 : ∀ v, p.WriteVarint64 v = Base128.encode 9 v.toNat
  readTag : ∀ bs, p.ReadTag bs =
    (Base128.decode 5 bs).map fun (n, rest) => (UInt32.ofNat n, rest)
  readVarint64 : ∀ bs, p.ReadVarint64 bs =
    (Base128.decode 10 bs).map fun (n, rest) => (UInt64.ofNat n, rest)
  readString : ∀ bs n rest, Base128.decode 5 bs = some (n, rest) → n < 2 ^ 31 → n ≤ rest.length →
    p.InlineGreedyStringParser bs = some (rest.take n, rest.drop n)
  verifyUTF8 : ∀ str, p.VerifyUTF8 str = true ↔ ValidUTF8 str

variable (p : ProtobufRuntime)

def WriteEnumToArray (field : UInt32) (value : Int32) : List UInt8 :=
  p.WriteTagToArray (field <<< 3) ++ p.WriteVarint64 value.toInt64.toUInt64

def WriteUInt64ToArray (field : UInt32) (value : UInt64) : List UInt8 :=
  p.WriteTagToArray (field <<< 3) ++ p.WriteVarint64 value

def WriteStringMaybeAliased (field : UInt32) (value : Str) : List UInt8 :=
  p.WriteTagToArray (field <<< 3 ||| 2) ++ p.WriteVarint32 (UInt32.ofNat value.length) ++ value

/-- `_InternalSerialize`: a field with the default value is not written. -/
def InternalSerialize (req : RequestMessage) : List UInt8 :=
  (if req.cmd ≠ 0 then WriteEnumToArray p 1 req.cmd else []) ++
  (if req.key ≠ 0 then WriteUInt64ToArray p 2 req.key else []) ++
  (if req.sink ≠ [] then WriteStringMaybeAliased p 3 req.sink else [])

/-- What the loop of `_InternalParse` does with one field: go on after it, or fail. Ending the
message by a zero tag or an end-group tag makes `ParseFromString` fail. -/
def parseField (tag : UInt32) (bs : List UInt8) (req : RequestMessage) :
    Option (RequestMessage × List UInt8) :=
  let handleUnusual :=
    if tag = 0 ∨ tag &&& 7 = 4 then none
    else (p.UnknownFieldParse tag bs).map fun rest => (req, rest)
  match (tag >>> 3).toNat with
  | 1 =>
      if tag.toUInt8 = 8 then
        (p.ReadVarint64 bs).map fun (val, rest) => ({ req with cmd := val.toUInt32.toInt32 }, rest)
      else handleUnusual
  | 2 =>
      if tag.toUInt8 = 16 then
        (p.ReadVarint64 bs).map fun (val, rest) => ({ req with key := val }, rest)
      else handleUnusual
  | 3 =>
      if tag.toUInt8 = 26 then
        (p.InlineGreedyStringParser bs).bind fun (str, rest) =>
          if p.VerifyUTF8 str then some ({ req with sink := str }, rest) else none
      else handleUnusual
  | _ => handleUnusual

/-- The loop of `_InternalParse`; every tag takes at least one byte, which bounds the rounds. -/
def internalParse : ℕ → List UInt8 → RequestMessage → Option RequestMessage
  | _, [], req => some req
  | 0, _ :: _, _ => none
  | fuel + 1, b :: bs, req =>
      (p.ReadTag (b :: bs)).bind fun (tag, rest) =>
        (parseField p tag rest req).bind fun (req, rest) => internalParse fuel rest req

def SerializeToString (req : RequestMessage) : Str := InternalSerialize p req

def ParseFromString (str : Str) : Option RequestMessage := internalParse p str.length str {}

/-- `std::string(const char*)` on the memory from a pointer on; `none` when it has no zero byte. -/
def cstring (memory : List UInt8) : Option Str :=
  if 0 ∈ memory then some (memory.takeWhile (· ≠ 0)) else none

/-- The request `recv_request` parses from the memory at `msg->payload()`. -/
def parsePayload (memory : List UInt8) : Option RequestMessage :=
  (cstring memory).bind (ParseFromString p)

@[simp] theorem toInt32_signExtended (v : Int32) :
    v.toInt64.toUInt64.toUInt32.toInt32 = v := by
  apply Int32.toBitVec_inj.mp
  apply BitVec.eq_of_getLsbD_eq
  intro i hi
  simp [BitVec.getLsbD_signExtend, hi]
  omega

theorem signExtended_pos {v : Int32} (h : v ≠ 0) : 0 < v.toInt64.toUInt64.toNat := by
  refine Nat.pos_of_ne_zero fun hz => h ?_
  have hzero : v.toInt64.toUInt64 = 0 := UInt64.toNat_inj.mp hz
  rw [← toInt32_signExtended v, hzero]
  rfl

private def Parses (p : ProtobufRuntime) (bs : List UInt8) (req result : RequestMessage) : Prop :=
  ∀ fuel, bs.length ≤ fuel → internalParse p fuel bs req = some result

private theorem uint32_lt (v : UInt32) : v.toNat < 128 ^ (4 + 1) := v.toNat_lt.trans (by decide)

private theorem uint64_lt (v : UInt64) : v.toNat < 128 ^ (9 + 1) := v.toNat_lt.trans (by decide)

section RoundTrip
variable {p : ProtobufRuntime} (hp : p.Documented)
include hp

theorem readTag_writeTag (tag : UInt32) (rest : List UInt8) :
    p.ReadTag (p.WriteTagToArray tag ++ rest) = some (tag, rest) := by
  simp [hp.readTag, hp.writeTag, Base128.decode_encode (uint32_lt tag)]

theorem readVarint64_writeVarint64 (v : UInt64) (rest : List UInt8) :
    p.ReadVarint64 (p.WriteVarint64 v ++ rest) = some (v, rest) := by
  simp [hp.readVarint64, hp.writeVarint64, Base128.decode_encode (uint64_lt v)]

theorem readString_writeString {str : Str} (h : str.length < 2 ^ 31) (rest : List UInt8) :
    p.InlineGreedyStringParser (p.WriteVarint32 (UInt32.ofNat str.length) ++ (str ++ rest)) =
      some (str, rest) := by
  have hlength : (UInt32.ofNat str.length).toNat = str.length :=
    UInt32.toNat_ofNat_of_lt' (h.trans (by decide))
  have hdecode := Base128.decode_encode (uint32_lt (UInt32.ofNat str.length)) (str ++ rest)
  rw [hlength] at hdecode
  rw [hp.writeVarint32, hlength, hp.readString _ _ _ hdecode h (by simp)]
  simp

private theorem parses_field (tag : UInt32) {body rest : List UInt8}
    {req req' result : RequestMessage}
    (hfield : parseField p tag (body ++ rest) req = some (req', rest))
    (hrest : Parses p rest req' result) :
    Parses p (p.WriteTagToArray tag ++ body ++ rest) req result := by
  intro fuel hfuel
  have htag := readTag_writeTag hp tag (body ++ rest)
  rw [List.append_assoc] at hfuel ⊢
  have hne : p.WriteTagToArray tag ≠ [] := by
    rw [hp.writeTag]
    unfold Base128.encode
    split <;> simp
  obtain ⟨b, bs, hcons⟩ := List.exists_cons_of_ne_nil hne
  rw [hcons] at hfuel htag ⊢
  cases fuel with
  | zero => simp at hfuel
  | succ fuel =>
    rw [List.cons_append] at htag ⊢
    simp only [internalParse, htag, Option.bind_some, hfield]
    apply hrest fuel
    simp only [List.cons_append, List.length_cons, List.length_append] at hfuel
    omega

private theorem parses_cmd {v : Int32} {rest : List UInt8} {req result : RequestMessage}
    (hdefault : req.cmd = 0) (hrest : Parses p rest { req with cmd := v } result) :
    Parses p ((if v ≠ 0 then WriteEnumToArray p 1 v else []) ++ rest) req result := by
  split
  · refine parses_field hp 8 ?_ hrest
    simp [parseField, readVarint64_writeVarint64 hp]
  · rename_i hv
    obtain rfl := not_not.mp hv
    cases req
    cases hdefault
    exact hrest

private theorem parses_key {v : UInt64} {rest : List UInt8} {req result : RequestMessage}
    (hdefault : req.key = 0) (hrest : Parses p rest { req with key := v } result) :
    Parses p ((if v ≠ 0 then WriteUInt64ToArray p 2 v else []) ++ rest) req result := by
  split
  · refine parses_field hp 16 ?_ hrest
    simp [parseField, readVarint64_writeVarint64 hp]
  · rename_i hv
    obtain rfl := not_not.mp hv
    cases req
    cases hdefault
    exact hrest

private theorem parses_sink {v : Str} {rest : List UInt8} {req result : RequestMessage}
    (hutf : ValidUTF8 v) (hlen : v.length < 2 ^ 31) (hdefault : req.sink = [])
    (hrest : Parses p rest { req with sink := v } result) :
    Parses p ((if v ≠ [] then WriteStringMaybeAliased p 3 v else []) ++ rest) req result := by
  split
  · unfold WriteStringMaybeAliased
    rw [List.append_assoc (p.WriteTagToArray _)]
    refine parses_field hp 26 ?_ hrest
    simp [parseField, readString_writeString hp hlen, (hp.verifyUTF8 v).mpr hutf]
  · rename_i hv
    obtain rfl := not_not.mp hv
    cases req
    cases hdefault
    exact hrest

/-- Parsing inverts serialization on every request whose sink is valid UTF-8. -/
theorem parse_serialize {req : RequestMessage} (hutf : ValidUTF8 req.sink)
    (hlen : req.sink.length < 2 ^ 31) :
    ParseFromString p (SerializeToString p req) = some req := by
  have hparses : Parses p (InternalSerialize p req ++ []) {} req := by
    unfold InternalSerialize
    rw [List.append_assoc, List.append_assoc]
    refine parses_cmd hp rfl (parses_key hp rfl (parses_sink hp hutf hlen rfl ?_))
    intro fuel _
    cases fuel <;> rfl
  rw [List.append_nil] at hparses
  exact hparses _ le_rfl

theorem zero_notMem_writeTag {tag : UInt32} (h : tag ≠ 0) : 0 ∉ p.WriteTagToArray tag := by
  rw [hp.writeTag]
  exact Base128.zero_notMem_encode
    (Nat.pos_of_ne_zero fun hz => h (UInt32.toNat_inj.mp hz)) (uint32_lt tag)

theorem zero_notMem_writeVarint64 {v : UInt64} (h : 0 < v.toNat) : 0 ∉ p.WriteVarint64 v := by
  rw [hp.writeVarint64]
  exact Base128.zero_notMem_encode h (uint64_lt v)

/-- Only default values would be written as zero bytes, and they are not written. -/
theorem zero_notMem_serialize {req : RequestMessage} (hnul : 0 ∉ req.sink)
    (hlen : req.sink.length < 2 ^ 31) : 0 ∉ SerializeToString p req := by
  simp only [SerializeToString, InternalSerialize, List.mem_append, not_or]
  refine ⟨⟨?_, ?_⟩, ?_⟩
  · split <;> rename_i hcmd
    · simp only [WriteEnumToArray, List.mem_append, not_or]
      exact ⟨zero_notMem_writeTag hp (by decide),
        zero_notMem_writeVarint64 hp (signExtended_pos hcmd)⟩
    · simp
  · split <;> rename_i hkey
    · simp only [WriteUInt64ToArray, List.mem_append, not_or]
      refine ⟨zero_notMem_writeTag hp (by decide), zero_notMem_writeVarint64 hp ?_⟩
      exact Nat.pos_of_ne_zero fun hz => hkey (UInt64.toNat_inj.mp hz)
    · simp
  · split <;> rename_i hsink
    · simp only [WriteStringMaybeAliased, List.mem_append, not_or]
      refine ⟨⟨zero_notMem_writeTag hp (by decide), ?_⟩, hnul⟩
      have hlength : (UInt32.ofNat req.sink.length).toNat = req.sink.length :=
        UInt32.toNat_ofNat_of_lt' (hlen.trans (by decide))
      rw [hp.writeVarint32]
      refine Base128.zero_notMem_encode ?_ (uint32_lt _)
      rw [hlength]
      exact List.length_pos_of_ne_nil hsink
    · simp

end RoundTrip

theorem cstring_append {str : Str} (h : 0 ∉ str) (after : List UInt8) :
    cstring (str ++ 0 :: after) = some str := by
  have hall : ∀ b ∈ str, decide (b ≠ 0) = true := by
    intro b hb
    simpa using fun hz : b = 0 => h (hz ▸ hb)
  rw [cstring, if_pos (by simp), List.takeWhile_append_of_pos hall]
  simp

theorem request_survives_cstring {p : ProtobufRuntime} (hp : p.Documented) (req : RequestMessage)
    (hutf : ValidUTF8 req.sink) (hnul : 0 ∉ req.sink) (hlen : req.sink.length < 2 ^ 31)
    (after : List UInt8) :
    0 ∉ SerializeToString p req ∧
      cstring (SerializeToString p req ++ 0 :: after) = some (SerializeToString p req) ∧
      parsePayload p (SerializeToString p req ++ 0 :: after) = some req := by
  have hzero := zero_notMem_serialize hp hnul hlen
  have hread := cstring_append hzero after
  exact ⟨hzero, hread, by rw [parsePayload, hread, Option.bind_some, parse_serialize hp hutf hlen]⟩

/-- A runtime that follows the documented wire format and knows no other fields. -/
def wireRuntime : ProtobufRuntime where
  WriteTagToArray tag := Base128.encode 4 tag.toNat
  WriteVarint32 v := Base128.encode 4 v.toNat
  WriteVarint64 v := Base128.encode 9 v.toNat
  ReadTag bs := (Base128.decode 5 bs).map fun (n, rest) => (UInt32.ofNat n, rest)
  ReadVarint64 bs := (Base128.decode 10 bs).map fun (n, rest) => (UInt64.ofNat n, rest)
  InlineGreedyStringParser bs := (Base128.decode 5 bs).bind fun (n, rest) =>
    if n < 2 ^ 31 ∧ n ≤ rest.length then some (rest.take n, rest.drop n) else none
  VerifyUTF8 str := (ByteArray.mk str.toArray).validateUTF8
  UnknownFieldParse _ _ := none

theorem documented_wireRuntime : wireRuntime.Documented where
  writeTag _ := rfl
  writeVarint32 _ := rfl
  writeVarint64 _ := rfl
  readTag _ := rfl
  readVarint64 _ := rfl
  readString bs n rest h hn hle := by
    simp only [wireRuntime, h, Option.bind_some]
    exact if_pos ⟨hn, hle⟩
  verifyUTF8 _ := ByteArray.validateUTF8_eq_true_iff

theorem request_survives_cstring_example :
    let req := delRequest [116, 99, 112, 58, 47, 47, 97, 58, 49] 0x8000000000000080
    SerializeToString wireRuntime req = [8, 1, 16, 128, 129, 128, 128, 128, 128, 128, 128, 128, 1,
      26, 9, 116, 99, 112, 58, 47, 47, 97, 58, 49] ∧
    0 ∉ SerializeToString wireRuntime req ∧
      cstring (SerializeToString wireRuntime req ++ [0, 5]) =
        some (SerializeToString wireRuntime req) ∧
      parsePayload wireRuntime (SerializeToString wireRuntime req ++ [0, 5]) = some req :=
  ⟨by decide, request_survives_cstring documented_wireRuntime _
    ⟨['t', 'c', 'p', ':', '/', '/', 'a', ':', '1'], rfl⟩ (by decide) (by decide) [5]⟩

end MessagePass.RequestCodec
