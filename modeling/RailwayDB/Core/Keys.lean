/-
The keys of the two ordered stores.

`FocusedIntervalQueryIndex` keys a neighbour list by its head vertex and the time
of its newest edge; `PartitionIndex` keys a time slice by its end time.  leveldb
compares keys as unsigned byte strings, the shorter one first when one begins the
other, which is the order of `List Byte`.
-/
import RailwayDB.Core.NetworkByteBuffer
import RailwayDB.Core.Timestamp

namespace RailwayDB

variable {T : Type} [Preorder T] [Timestamp T]

/-- `keyBuf << pair<VertexId, Timestamp>(head, end)`, and the target of the iterator's
`Seek`. -/
def FocusedIntervalQueryIndex.key (vertex : VertexId) (time : T) : Except Fault (List Byte) := do
  let keyBuf := NetworkByteBuffer.ofSize 16
  let keyBuf ← keyBuf.addUInt64 (BitVec.ofFin vertex)
  let keyBuf ← keyBuf.addDouble (Timestamp.toBits time)
  return keyBuf.contents

/-- `keyBuf << endTime`, and the target of the lookup's `Seek`. -/
def PartitionIndex.key (time : T) : Except Fault (List Byte) := do
  let keyBuf := NetworkByteBuffer.ofSize 8
  let keyBuf ← keyBuf.addDouble (Timestamp.toBits time)
  return keyBuf.contents

end RailwayDB
