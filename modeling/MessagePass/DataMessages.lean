import MessagePass.LittleEndian

/-!
# Data messages

`MessageSource<T>` and `MessageSink<T>` are templates over an `IDataMessage`. The source only
reads messages; the sink also builds them, from a capacity and from what `zmq_recv` copies into
their buffer.
-/
namespace MessagePass.DataMessages

/-- The part of `IDataMessage` that reads an object: `const_data`, `size` and `key`. The buffer
is the whole memory behind `const_data()`. As its comment demands, `key()` is parsed from the
data, so equal payloads have equal keys. -/
class IDataMessage (T : Type) where
  constData : T → List UInt8
  size : T → UInt64
  key : T → UInt64
  key_parsed : ∀ a b, (constData a).take (size a).toNat = (constData b).take (size b).toNat →
    key a = key b

export IDataMessage (constData size key)

def payload {T : Type} [IDataMessage T] (m : T) : List UInt8 := (constData m).take (size m).toNat

theorem key_eq_of_payload {T : Type} [IDataMessage T] {a b : T} (h : payload a = payload b) :
    key a = key b := IDataMessage.key_parsed a b h

/-- What the sink does to a message of its own: the capacity constructor, copying bytes to the
front of `data()`, and `size(std::size_t)`. The constructor throws when it cannot allocate its
buffer, which is taken not to happen below the 2^31 bytes that `zmq_recv` can count. -/
class ReceivedMessage (T : Type) extends IDataMessage T where
  ofCapacity : UInt64 → Option T
  copyIn : T → List UInt8 → T
  setSize : T → UInt64 → T
  ofCapacity_isSome : ∀ c : UInt64, c.toNat < 2 ^ 31 → (ofCapacity c).isSome = true
  length_ofCapacity : ∀ c m, ofCapacity c = some m → (constData m).length = c.toNat
  constData_copyIn : ∀ m bs, bs.length ≤ (constData m).length →
    constData (copyIn m bs) = bs ++ (constData m).drop bs.length
  constData_setSize : ∀ m n, constData (setSize m n) = constData m
  size_setSize : ∀ m n, size (setSize m n) = n

export ReceivedMessage (ofCapacity copyIn setSize)

/-- A message with a heap buffer and a size, as the `TestDataMessage` of the test programs. Its
`key()` is parsed from the data. -/
structure ByteMessage where
  buffer_ : List UInt8
  size_ : UInt64
  deriving DecidableEq, Repr

instance : IDataMessage ByteMessage where
  constData m := m.buffer_
  size m := m.size_
  key m := LittleEndian.word (m.buffer_.take m.size_.toNat)
  key_parsed a b h := by rw [h]

/-- `new char[capacity]` throws for more than `PTRDIFF_MAX` bytes. -/
instance : ReceivedMessage ByteMessage where
  -- `new char[capacity]` throws for more than `PTRDIFF_MAX` bytes
  ofCapacity c := if c.toNat < 2 ^ 63 then some ⟨List.replicate c.toNat 0, 0⟩ else none
  copyIn m bs := ⟨bs ++ m.buffer_.drop bs.length, m.size_⟩
  setSize m n := ⟨m.buffer_, n⟩
  ofCapacity_isSome c h := by
    rw [if_pos (h.trans (by decide))]
    rfl
  length_ofCapacity c m h := by
    simp only [Option.ite_none_right_eq_some, Option.some.injEq] at h
    obtain ⟨-, rfl⟩ := h
    simp [constData]
  constData_copyIn m bs _ := rfl
  constData_setSize m n := rfl
  size_setSize m n := rfl

def ByteMessage.ofBytes (bs : List UInt8) : ByteMessage := ⟨bs, UInt64.ofNat bs.length⟩

/-- `key()` of `TestDataMessage`, which copies eight bytes of the buffer whatever `size()` is, and
reads past the end of a shorter one. -/
def testDataMessageKey (m : ByteMessage) : Option UInt64 :=
  if 8 ≤ m.buffer_.length then some (LittleEndian.word m.buffer_) else none

theorem testDataMessageKey_eq {m : ByteMessage} (hsize : 8 ≤ m.size_.toNat)
    (hbuffer : m.size_.toNat ≤ m.buffer_.length) : testDataMessageKey m = some (key m) := by
  have hlong : 8 ≤ m.buffer_.length := hsize.trans hbuffer
  have htake : (m.buffer_.take m.size_.toNat).take 8 = m.buffer_.take 8 := by
    rw [List.take_take, Nat.min_eq_left hsize]
  simp only [testDataMessageKey, hlong, if_true, key, LittleEndian.word, htake]

end MessagePass.DataMessages
