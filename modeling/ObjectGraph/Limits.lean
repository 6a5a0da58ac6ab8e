/-! Limits of a session and of a container, and which limits no session can run under. -/
namespace ObjectGraph

structure Limits where
  /-- Records, and so distinct nodes, in one container. -/
  maxRecords : UInt32 := 1048576
  /-- Bytes of one record. -/
  maxRecordLen : UInt64 := 16777216
  /-- Bytes of one type name. -/
  maxTypeNameLen : UInt64 := 1024
  /-- Nodes on one chain of references that a session follows. -/
  maxDepth : UInt64 := 256
  /-- Whether type names, where a container has them, must match the requested types. -/
  verifyTypeNames : Bool := false
  deriving DecidableEq, Repr

namespace Limits

inductive Invalid where
  | noRecords
  /-- The greatest record number is kept for the absent reference. -/
  | noRoomForNil
  | noDepth
  /-- Record lengths are written in 32 bits. -/
  | recordLenTooWide
  deriving DecidableEq, Repr

def Invalid.field : Invalid → String
  | .noRecords | .noRoomForNil => "max_records"
  | .noDepth => "max_depth"
  | .recordLenTooWide => "max_record_len"

def Invalid.reason : Invalid → String
  | .noRecords | .noDepth => "must be at least 1"
  | .noRoomForNil => "must leave room for the nil id"
  | .recordLenTooWide => "must fit in a u32 length prefix"

def Invalid.message (fault : Invalid) : String := s!"invalid {fault.field}: {fault.reason}"

def validate (limits : Limits) : Except Invalid Unit :=
  if limits.maxRecords = 0 then .error .noRecords
  else if limits.maxRecords = 0xffffffff then .error .noRoomForNil
  else if limits.maxDepth = 0 then .error .noDepth
  else if 0xffffffff < limits.maxRecordLen then .error .recordLenTooWide
  else .ok ()

end Limits
end ObjectGraph
