import MessagePass.DataMessages
import MessagePass.LabelledRuns
import MessagePass.ReceiveQueues

/-!
# Sending and receiving data frames

`send_msg` hands a message to ZeroMQ as one or two frames, and `recv_message` parses frames from
a `ZMQ_ROUTER` socket back into messages. The socket puts the routing id of the sender in front
of each multipart message and keeps the frames of one message together; the loop never looks at
frame boundaries. Its program counter stands before each receive and before each read of
`running_`, so that receives can time out and `stop()` can come at every such point.
-/
namespace MessagePass.ReceiveLoop
open Std DataMessages ReceiveQueues LittleEndian

abbrev Frame := List UInt8

variable {T : Type}

/-- `send_msg`: only the data when sending is fixed to a size, otherwise the image of the size
and the data. -/
def sendMsg [IDataMessage T] (sendFixed : Option UInt64) (msg : T) : List Frame :=
  match sendFixed with
  | some fixedSize => [(constData msg).take fixedSize.toNat]
  | none => [image (size msg), (constData msg).take (size msg).toNat]

def routed [IDataMessage T] (sendFixed : Option UInt64) (source : UInt64) (msg : T) : List Frame :=
  image source :: sendMsg sendFixed msg

/-- Where `recv_message` stands, with its local variables: in the loop for variable sizes the
stages `recvSize` and `recvPayload`, in the loop for a fixed size `recvFixed`, each followed by
the read of `running_` after a failed receive. The process is `terminated` when the constructor of
a message throws, for the thread catches nothing. -/
inductive Pc (T : Type) where
  | loop
  | recvSource
  | recvSize (source : UInt64)
  | sizeFailed (source : UInt64)
  | recvPayload (source size : UInt64) (msg : T)
  | payloadFailed (source size : UInt64) (msg : T)
  | enqueue (source : UInt64) (msg : T)
  | recvFixed (source size : UInt64) (msg : T)
  | fixedFailed (source size : UInt64) (msg : T)
  | enqueueFixed (source : UInt64) (msg : T)
  | closed
  | terminated
  | undefined
  deriving DecidableEq

def VariableSize : Pc T → Prop
  | .recvFixed _ _ _ | .fixedFailed _ _ _ | .enqueueFixed _ _ => False
  | _ => True

/-- A receive thread with its socket and its own map of queues. The logs keep the multipart
messages that arrived and the calls of `enqueue`. -/
structure Receiver (T : Type) where
  running : Bool := true
  frames : List Frame := []
  pc : Pc T := .loop
  table : QueueTable := {}
  arrived : List (UInt64 × T) := []
  enqueued : List (ℕ × T) := []

def Receiver.prepared (sources : List UInt64) : Receiver T :=
  { table := QueueTable.prepareSources {} sources }

/-- `zmq_recv`: a failed receive consumes nothing. -/
def Receiver.recv (s : Receiver T) (ok : Bool) : Option (Frame × List Frame) :=
  match ok, s.frames with
  | true, frame :: rest => some (frame, rest)
  | _, _ => none

/-- Receiving a frame into a `std::size_t`, which keeps the bytes the frame does not reach. -/
def overwrite (w : UInt64) (frame : Frame) : UInt64 := word (frame ++ (image w).drop frame.length)

/-- What a successful `zmq_recv` returns, as an `int`: the length of the whole frame. -/
def received (frame : Frame) : UInt64 := UInt64.ofNat (min frame.length (2 ^ 31 - 1))

def Receiver.enqueueMsg (s : Receiver T) (source : UInt64) (msg : T) : Receiver T :=
  match s.table.queueOf source with
  | some queue => { s with enqueued := s.enqueued ++ [(queue, msg)], pc := .loop }
  | none => { s with pc := .undefined }

section Step
variable [ReceivedMessage T]

/-- One step of `recv_message`. A receive succeeds only if the schedule says so and there is a
frame; `indeterminate` is what the uninitialised variable `source` holds before its receive. -/
def recvMessage (fixed : Option UInt64) (ok : Bool) (indeterminate : UInt64) (s : Receiver T) :
    Receiver T :=
  match s.pc with
  | .loop => if s.running then { s with pc := .recvSource } else { s with pc := .closed }
  | .recvSource => match s.recv ok with
    | none => { s with pc := .loop }
    | some (frame, rest) =>
        let source := overwrite indeterminate frame
        match fixed with
        | some size => match ofCapacity size with
            | some msg => { s with frames := rest, pc := .recvFixed source size msg }
            | none => { s with frames := rest, pc := .terminated }
        | none => { s with frames := rest, pc := .recvSize source }
  | .recvSize source => match s.recv ok with
    | none => { s with pc := .sizeFailed source }
    | some (frame, rest) =>
        let size := overwrite 0 frame
        match ofCapacity size with
        | some msg => { s with frames := rest, pc := .recvPayload source size msg }
        | none => { s with frames := rest, pc := .terminated }
  | .sizeFailed source =>
      if s.running then { s with pc := .recvSize source } else { s with pc := .closed }
  | .recvPayload source size msg => match s.recv ok with
    | none => { s with pc := .payloadFailed source size msg }
    | some (frame, rest) => { s with
        frames := rest
        pc := .enqueue source (setSize (copyIn msg (frame.take size.toNat)) (received frame)) }
  | .payloadFailed source size msg =>
      if s.running then { s with pc := .recvPayload source size msg } else { s with pc := .closed }
  | .enqueue source msg =>
      { s with table := s.table.findOrInsert source }.enqueueMsg source msg
  | .recvFixed source size msg => match s.recv ok with
    | none => { s with pc := .fixedFailed source size msg }
    | some (frame, rest) => { s with
        frames := rest
        pc := .enqueueFixed source (copyIn msg (frame.take size.toNat)) }
  | .fixedFailed source size msg =>
      if s.running then { s with pc := .recvFixed source size msg } else { s with pc := .closed }
  | .enqueueFixed source msg => s.enqueueMsg source msg
  | .closed | .terminated | .undefined => s

inductive Label (T : Type) where
  | arrive (source : UInt64) (msg : T)
  | thread (ok : Bool) (indeterminate : UInt64)
  | stop

def Sendable (msg : T) : Prop :=
  (size msg).toNat ≤ (constData msg).length ∧ (size msg).toNat < 2 ^ 31

instance (msg : T) : Decidable (Sendable msg) := inferInstanceAs (Decidable (_ ∧ _))

def receiverNext (fixed : Option UInt64) (s : Receiver T) : Label T → Option (Receiver T)
  | .arrive source msg =>
      if Sendable msg then some { s with
        frames := s.frames ++ routed fixed source msg
        arrived := s.arrived ++ [(source, msg)] }
      else none
  | .thread ok indeterminate => some (recvMessage fixed ok indeterminate s)
  | .stop => some { s with running := false }

end Step
end MessagePass.ReceiveLoop
