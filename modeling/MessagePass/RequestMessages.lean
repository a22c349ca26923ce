import Mathlib.Data.List.Basic

/-!
# Request messages

The three requests a sink sends over the topic server, as `request_message.proto` declares them.
`cmd` is an open proto3 enumeration: the parser stores any `int`, so requests with a value
outside the three named ones do reach the source.
-/
namespace MessagePass.RequestMessages

/-- `std::string`: a sequence of bytes, ordered byte by byte. -/
abbrev Str := List UInt8

structure RequestMessage where
  cmd : Int32 := 0
  key : UInt64 := 0
  sink : Str := []
  deriving DecidableEq, Repr

def RequestMessage_CMD_GET : Int32 := 0
def RequestMessage_CMD_DEL : Int32 := 1
def RequestMessage_CMD_RECOVER : Int32 := 2

/-- The branches of `switch(remote_req->cmd())`. -/
inductive Branch | get | del | recover | other deriving DecidableEq, Repr

def RequestMessage.branch (req : RequestMessage) : Branch :=
  if req.cmd = RequestMessage_CMD_GET then .get
  else if req.cmd = RequestMessage_CMD_DEL then .del
  else if req.cmd = RequestMessage_CMD_RECOVER then .recover
  else .other

def getRequest (sink : Str) : RequestMessage := { cmd := RequestMessage_CMD_GET, sink := sink }

def delRequest (sink : Str) (key : UInt64) : RequestMessage :=
  { cmd := RequestMessage_CMD_DEL, key := key, sink := sink }

def recoverRequest (sink : Str) : RequestMessage :=
  { cmd := RequestMessage_CMD_RECOVER, sink := sink }

@[simp] theorem branch_getRequest (sink : Str) : (getRequest sink).branch = .get := rfl

@[simp] theorem branch_delRequest (sink : Str) (key : UInt64) :
    (delRequest sink key).branch = .del := rfl

@[simp] theorem branch_recoverRequest (sink : Str) : (recoverRequest sink).branch = .recover := rfl

@[simp] theorem sink_getRequest (sink : Str) : (getRequest sink).sink = sink := rfl

@[simp] theorem sink_delRequest (sink : Str) (key : UInt64) :
    (delRequest sink key).sink = sink := rfl

@[simp] theorem key_delRequest (sink : Str) (key : UInt64) : (delRequest sink key).key = key := rfl

@[simp] theorem sink_recoverRequest (sink : Str) : (recoverRequest sink).sink = sink := rfl

end MessagePass.RequestMessages
