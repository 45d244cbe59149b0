/-
`NetworkByteBuffer.h` and `EndianHelper.h`: the byte buffer every stored format is
written to and read from.

The buffer is a block of memory with a write cursor and a read cursor.  It grows
when it owns its memory (`autoDealloc`) and never past 2^32 bytes.  Sizes and
cursors are 64-bit unsigned numbers, so the sums and differences of `ensure` and
`resize` are taken modulo 2^64.

The multi-byte `add` and `get` members of the source differ only in the width
they write, so each is the one member `addRaw` or `getRaw` at its own width.
-/
import RailwayDB.Lib.Bytes
import RailwayDB.Core.Types

namespace RailwayDB

/-- `host_to_network` on a little-endian host: the memory image reversed. -/
def hostToNetwork (rawData : List Byte) : List Byte := rawData.reverse

/-- `network_to_host` is the same reversal. -/
def networkToHost (rawData : List Byte) : List Byte := hostToNetwork rawData

structure NetworkByteBuffer where
  autoDealloc : Bool
  buf : List Byte
  icursor : Nat
  ocursor : Nat
  deriving DecidableEq

namespace NetworkByteBuffer

/-- `DEFAULT_SIZE`. -/
def defaultSize : Nat := 4096

/-- `std::numeric_limits<uint32_t>::max()`. -/
def maxUInt32 : Nat := 2 ^ 32 - 1

/-- `new unsigned char[mysize]`; the contents are never read before being written. -/
def alloc (mysize : Nat) : List Byte := List.replicate mysize 0

def size (sb : NetworkByteBuffer) : Nat := sb.buf.length

/-- `NetworkByteBuffer(uint64_t initialSize)`. -/
def ofSize (initialSize : Nat) : NetworkByteBuffer :=
  { autoDealloc := true, buf := alloc initialSize, icursor := 0, ocursor := 0 }

/-- `NetworkByteBuffer()`. -/
def new : NetworkByteBuffer := ofSize defaultSize

/-- `NetworkByteBuffer(unsigned char * mybuf, uint64_t mysize)`: someone else's bytes. -/
def ofBytes (mybuf : List Byte) : NetworkByteBuffer :=
  { autoDealloc := false, buf := mybuf, icursor := mybuf.length, ocursor := 0 }

/-- What has been written: the bytes handed to the store. -/
def contents (sb : NetworkByteBuffer) : List Byte := sb.buf.take sb.icursor

def getNRemainingBytes (sb : NetworkByteBuffer) : Nat :=
  (sb.icursor + 2 ^ 64 - sb.ocursor) % 2 ^ 64

/-! ### Growing -/

/-- How much `resize` grows: the required amount when that more than doubles the buffer,
else double, else half of the room left. -/
def growth (size maxGrowth extra : Nat) : Nat :=
  if size < extra then extra
  else if maxGrowth < size then max (maxGrowth / 2) extra
  else size

def resize (sb : NetworkByteBuffer) (extra : Nat) : Except Fault NetworkByteBuffer :=
  if sb.autoDealloc = false then
    .error (.runtimeError "cannot resize fixed buffer")
  else
    let maxGrowth := (1 + maxUInt32 + 2 ^ 64 - sb.size) % 2 ^ 64
    if maxGrowth < extra then
      .error (.runtimeError "Buffer exceeds maximum size")
    else
      .ok { sb with buf := sb.buf ++ alloc (growth sb.size maxGrowth extra) }

def ensure (sb : NetworkByteBuffer) (extra : Nat) : Except Fault NetworkByteBuffer :=
  if sb.size < (sb.icursor + extra) % 2 ^ 64 then
    sb.resize ((extra + sb.icursor + 2 ^ 64 - sb.size) % 2 ^ 64)
  else .ok sb

/-- A sum of 64-bit numbers, where it is the exact one. -/
def exactAdd (a b : Nat) : EStateM Fault NetworkByteBuffer Nat :=
  if a + b < 2 ^ 64 then pure (a + b) else throw (.undefined .intOverflow)

/-- A difference of 64-bit numbers, where it is the exact one. -/
def exactSub (a b : Nat) : EStateM Fault NetworkByteBuffer Nat :=
  if b ≤ a then pure (a - b) else throw (.undefined .intOverflow)

/-- `resize` step by step on the buffer itself.  A sum or difference that would wrap stops it. -/
def resizeInPlace (extra : Nat) : EStateM Fault NetworkByteBuffer Unit := do
  let sb ← get
  if sb.autoDealloc = false then throw (.runtimeError "cannot resize fixed buffer")
  else do
    let maxGrowth ← exactAdd 1 maxUInt32
    let maxGrowth ← exactSub maxGrowth sb.size
    if maxGrowth < extra then throw (.runtimeError "Buffer exceeds maximum size")
    else do
      let newsize ← exactAdd sb.size (growth sb.size maxGrowth extra)
      -- `memcpy(newbuf, buf, size)`
      let newbuf := sb.buf ++ (alloc newsize).drop sb.size
      modify fun sb => { sb with buf := newbuf }

/-- `ensure` in the same way. -/
def ensureInPlace (extra : Nat) : EStateM Fault NetworkByteBuffer Unit := do
  let sb ← get
  let needed ← exactAdd sb.icursor extra
  if sb.size < needed then do
    let missing ← exactAdd extra sb.icursor
    let missing ← exactSub missing sb.size
    resizeInPlace missing
  else pure ()

/-- `memcpy(buf+icursor, bytes, n); icursor += n`. -/
def write (sb : NetworkByteBuffer) (bytes : List Byte) : NetworkByteBuffer :=
  { sb with
    buf := sb.buf.take sb.icursor ++ bytes ++ sb.buf.drop (sb.icursor + bytes.length)
    icursor := sb.icursor + bytes.length }

/-- Make room for the bytes, then copy them. -/
def append (sb : NetworkByteBuffer) (bytes : List Byte) : Except Fault NetworkByteBuffer :=
  (sb.ensure bytes.length).map fun sb => sb.write bytes

/-- The bytes from the read cursor on, which must lie inside the memory. -/
def read (sb : NetworkByteBuffer) (n : Nat) : Except Fault (List Byte × NetworkByteBuffer) :=
  if sb.ocursor + n ≤ sb.size then
    .ok ((sb.buf.drop sb.ocursor).take n, { sb with ocursor := sb.ocursor + n })
  else .error (.undefined .bufferOverrun)

/-! ### Fixed-width values -/

/-- The common body of the multi-byte `add` members. -/
def addRaw (sb : NetworkByteBuffer) (width value : Nat) : Except Fault NetworkByteBuffer :=
  sb.append (hostToNetwork (Bytes.littleEndian width value))

/-- The common body of the multi-byte `get` members. -/
def getRaw (sb : NetworkByteBuffer) (width : Nat) : Except Fault (Nat × NetworkByteBuffer) :=
  (sb.read width).map fun r => (Bytes.ofLittleEndian (networkToHost r.1), r.2)

def addUInt32 (sb : NetworkByteBuffer) (i : BitVec 32) : Except Fault NetworkByteBuffer :=
  sb.addRaw 4 i.toNat

def getUInt32 (sb : NetworkByteBuffer) : Except Fault (BitVec 32 × NetworkByteBuffer) :=
  (sb.getRaw 4).map fun r => (BitVec.ofNat 32 r.1, r.2)

def addInt32 (sb : NetworkByteBuffer) (i : BitVec 32) : Except Fault NetworkByteBuffer :=
  sb.addRaw 4 i.toNat

def getInt32 (sb : NetworkByteBuffer) : Except Fault (BitVec 32 × NetworkByteBuffer) :=
  (sb.getRaw 4).map fun r => (BitVec.ofNat 32 r.1, r.2)

def addUInt64 (sb : NetworkByteBuffer) (i : BitVec 64) : Except Fault NetworkByteBuffer :=
  sb.addRaw 8 i.toNat

def getUInt64 (sb : NetworkByteBuffer) : Except Fault (BitVec 64 × NetworkByteBuffer) :=
  (sb.getRaw 8).map fun r => (BitVec.ofNat 64 r.1, r.2)

def addInt64 (sb : NetworkByteBuffer) (i : BitVec 64) : Except Fault NetworkByteBuffer :=
  sb.addRaw 8 i.toNat

def getInt64 (sb : NetworkByteBuffer) : Except Fault (BitVec 64 × NetworkByteBuffer) :=
  (sb.getRaw 8).map fun r => (BitVec.ofNat 64 r.1, r.2)

/-- A `double` is written as its bit pattern. -/
def addDouble (sb : NetworkByteBuffer) (d : BitVec 64) : Except Fault NetworkByteBuffer :=
  sb.addRaw 8 d.toNat

def getDouble (sb : NetworkByteBuffer) : Except Fault (BitVec 64 × NetworkByteBuffer) :=
  (sb.getRaw 8).map fun r => (BitVec.ofNat 64 r.1, r.2)

/-! ### Strings -/

/-- The length goes through a `uint32_t`, so only its low 32 bits are kept. -/
def addSTLString (sb : NetworkByteBuffer) (str : List Byte) : Except Fault NetworkByteBuffer := do
  let stlen : BitVec 32 := BitVec.ofNat 32 str.length
  let sb ← sb.addUInt32 stlen
  if 0 < stlen.toNat then sb.append (str.take stlen.toNat) else .ok sb

def getSTLString (sb : NetworkByteBuffer) : Except Fault (List Byte × NetworkByteBuffer) := do
  let (stlen, sb) ← sb.getUInt32
  if 0 < stlen.toNat then sb.read stlen.toNat else .ok ([], sb)

end NetworkByteBuffer

end RailwayDB
