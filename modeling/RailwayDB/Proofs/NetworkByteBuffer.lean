/-
What a write to a byte buffer does.

Everything the database stores is written piece by piece to a growable buffer.
Each piece either lands behind what is already there or, when the buffer would
pass 2^32 bytes, is refused.  `append_ok` and `append_full` are that alternative;
nothing above this file looks at the growth policy again.  `Growable` carries what
the policy relies on: the write cursor is inside the memory, and the memory is
within the limit.
-/
import RailwayDB.Core.NetworkByteBuffer
import Mathlib.Tactic.Ring

namespace RailwayDB.NetworkByteBuffer

/-- A buffer that owns its memory, within the limit. -/
structure Growable (sb : NetworkByteBuffer) : Prop where
  owned : sb.autoDealloc = true
  cursor : sb.icursor ≤ sb.size
  limit : sb.size ≤ 2 ^ 32

theorem growable_ofSize {n : Nat} (h : n ≤ 2 ^ 32) : Growable (ofSize n) :=
  ⟨rfl, Nat.zero_le _, by simpa [ofSize, size, alloc] using h⟩

theorem growable_new : Growable new := growable_ofSize (by decide)

@[simp] theorem contents_ofSize (n : Nat) : (ofSize n).contents = [] := by
  simp [ofSize, contents]

@[simp] theorem contents_new : new.contents = [] := contents_ofSize _

@[simp] theorem length_contents {sb : NetworkByteBuffer} (h : Growable sb) :
    sb.contents.length = sb.icursor := by
  have := h.cursor
  simp only [contents, List.length_take, size] at *
  omega

/-- The buffer grows by at least what was asked for and at most what is left. -/
theorem growth_bounds (size : Nat) {maxGrowth extra : Nat} (h : extra ≤ maxGrowth) :
    extra ≤ growth size maxGrowth extra ∧ growth size maxGrowth extra ≤ maxGrowth := by
  unfold growth
  split
  · omega
  · split
    · omega
    · omega

/-- The differences of `resize` are those of the numbers. -/
theorem resize_eq {sb : NetworkByteBuffer} (h : Growable sb) (extra : Nat) :
    sb.resize extra = if 2 ^ 32 - sb.size < extra then
        .error (.runtimeError "Buffer exceeds maximum size")
      else .ok { sb with buf := sb.buf ++ alloc (growth sb.size (2 ^ 32 - sb.size) extra) } := by
  have hlim := h.limit
  have hgrow : (1 + maxUInt32 + 2 ^ 64 - sb.size) % 2 ^ 64 = 2 ^ 32 - sb.size := by
    unfold maxUInt32
    omega
  unfold resize
  rw [if_neg (by simp [h.owned])]
  simp only [hgrow]

/-- So are those of `ensure`. -/
theorem ensure_eq {sb : NetworkByteBuffer} (h : Growable sb) {extra : Nat}
    (hextra : extra ≤ 2 ^ 32) :
    sb.ensure extra = if sb.size < sb.icursor + extra then
        sb.resize (sb.icursor + extra - sb.size)
      else .ok sb := by
  have hcur := h.cursor
  have hlim := h.limit
  have hmod : (sb.icursor + extra) % 2 ^ 64 = sb.icursor + extra := by
    apply Nat.mod_eq_of_lt
    omega
  unfold ensure
  rw [hmod]
  split_ifs with hroom
  · have hneed : (extra + sb.icursor + 2 ^ 64 - sb.size) % 2 ^ 64
        = sb.icursor + extra - sb.size := by omega
    rw [hneed]
  · rfl

/-- Growing keeps the memory there is and adds to its end. -/
theorem ensure_ok {sb : NetworkByteBuffer} (h : Growable sb) {extra : Nat}
    (hfit : sb.icursor + extra ≤ 2 ^ 32) :
    ∃ pad, sb.ensure extra = .ok { sb with buf := sb.buf ++ pad } ∧
      sb.icursor + extra ≤ (sb.buf ++ pad).length ∧ (sb.buf ++ pad).length ≤ 2 ^ 32 := by
  have hcur := h.cursor
  have hlim := h.limit
  rw [ensure_eq h (by omega)]
  by_cases hroom : sb.size < sb.icursor + extra
  · rw [if_pos hroom, resize_eq h, if_neg (by omega)]
    obtain ⟨hge, hle⟩ := growth_bounds sb.size
      (show sb.icursor + extra - sb.size ≤ 2 ^ 32 - sb.size by omega)
    have hlen : (alloc (growth sb.size (2 ^ 32 - sb.size) (sb.icursor + extra - sb.size))).length
        = growth sb.size (2 ^ 32 - sb.size) (sb.icursor + extra - sb.size) :=
      List.length_replicate
    refine ⟨_, rfl, ?_, ?_⟩
    · rw [List.length_append, hlen]
      unfold size at *
      omega
    · rw [List.length_append, hlen]
      unfold size at *
      omega
  · rw [if_neg hroom]
    refine ⟨[], by simp, ?_, ?_⟩
    · simpa [size] using Nat.le_of_not_lt hroom
    · simpa [size] using hlim

/-- A request past the limit is refused, and nothing has changed. -/
theorem ensure_full {sb : NetworkByteBuffer} (h : Growable sb) {extra : Nat}
    (hextra : extra ≤ 2 ^ 32) (hfull : 2 ^ 32 < sb.icursor + extra) :
    sb.ensure extra = .error (.runtimeError "Buffer exceeds maximum size") := by
  have hcur := h.cursor
  have hlim := h.limit
  rw [ensure_eq h hextra, if_pos (by omega), resize_eq h, if_pos (by omega)]

/-! ### Growing in place -/

theorem exactAdd_bind {β : Type} {a b : Nat} (h : a + b < 2 ^ 64)
    (f : Nat → EStateM Fault NetworkByteBuffer β) (sb : NetworkByteBuffer) :
    (exactAdd a b >>= f) sb = f (a + b) sb := by
  unfold exactAdd
  rw [if_pos h]
  rfl

theorem exactSub_bind {β : Type} {a b : Nat} (h : b ≤ a)
    (f : Nat → EStateM Fault NetworkByteBuffer β) (sb : NetworkByteBuffer) :
    (exactSub a b >>= f) sb = f (a - b) sb := by
  unfold exactSub
  rw [if_pos h]
  rfl

theorem inPlace_get_bind {β : Type} (f : NetworkByteBuffer → EStateM Fault NetworkByteBuffer β)
    (sb : NetworkByteBuffer) : (get >>= f) sb = f sb sb := rfl

/-- Whether the buffer grows or throws, the step by step version does the same on the buffer. -/
theorem resizeInPlace_eq {sb : NetworkByteBuffer} (h : Growable sb) (extra : Nat) :
    resizeInPlace extra sb = match sb.resize extra with
      | .ok sb' => .ok () sb'
      | .error e => .error e sb := by
  have hlim := h.limit
  have hmax : 1 + maxUInt32 = 2 ^ 32 := by decide
  unfold resizeInPlace
  rw [inPlace_get_bind, if_neg (by simp [h.owned]), exactAdd_bind (by decide), hmax,
    exactSub_bind hlim, resize_eq h]
  split_ifs with hfull
  · rfl
  · obtain ⟨-, hle⟩ := growth_bounds sb.size (Nat.le_of_not_lt hfull)
    rw [exactAdd_bind (by omega)]
    unfold alloc
    rw [List.drop_replicate, Nat.add_sub_cancel_left]
    rfl

theorem ensureInPlace_eq {sb : NetworkByteBuffer} (h : Growable sb) {extra : Nat}
    (hextra : extra ≤ 2 ^ 32) :
    ensureInPlace extra sb = match sb.ensure extra with
      | .ok sb' => .ok () sb'
      | .error e => .error e sb := by
  have hcur := h.cursor
  have hlim := h.limit
  unfold ensureInPlace
  rw [inPlace_get_bind, exactAdd_bind (by omega), ensure_eq h hextra]
  split_ifs with hroom
  · rw [exactAdd_bind (by omega), exactSub_bind (by omega), Nat.add_comm extra]
    exact resizeInPlace_eq h _
  · rfl

/-- **Growing is safe up to the limit.**  No sum or difference wraps.  A request past the limit
throws and leaves the buffer as it was; any other one makes the room and keeps what was written. -/
theorem ensureInPlace_safe {sb : NetworkByteBuffer} (h : Growable sb) {extra : Nat}
    (hextra : extra ≤ 2 ^ 32) :
    (2 ^ 32 < sb.icursor + extra →
      sb.ensure extra = .error (.runtimeError "Buffer exceeds maximum size") ∧
      ensureInPlace extra sb = .error (.runtimeError "Buffer exceeds maximum size") sb) ∧
    (sb.icursor + extra ≤ 2 ^ 32 → ∃ sb', sb.ensure extra = .ok sb' ∧
      ensureInPlace extra sb = .ok () sb' ∧ sb.icursor + extra ≤ sb'.size ∧ sb'.size ≤ 2 ^ 32 ∧
      sb'.icursor = sb.icursor ∧ sb'.ocursor = sb.ocursor ∧
      sb'.buf.take sb.icursor = sb.buf.take sb.icursor) := by
  rw [ensureInPlace_eq h hextra]
  refine ⟨?_, ?_⟩
  · intro hfull
    rw [ensure_full h hextra hfull]
    exact ⟨rfl, rfl⟩
  · intro hfit
    obtain ⟨pad, hok, hroom, hlim⟩ := ensure_ok h hfit
    rw [hok]
    exact ⟨_, rfl, rfl, hroom, hlim, rfl, rfl, List.take_append_of_le_length h.cursor⟩

/-- A full buffer of four bytes makes room for one more, and one of 2^32 bytes does not. -/
theorem ensureInPlace_safe_bounds :
    (∃ sb', ensureInPlace 1 ⟨true, [1, 2, 3, 4], 4, 0⟩ = .ok () sb' ∧ 5 ≤ sb'.size ∧
      sb'.contents = [1, 2, 3, 4]) ∧
    ∀ buf : List Byte, buf.length = 2 ^ 32 → ensureInPlace 1 ⟨true, buf, 2 ^ 32, 0⟩
      = .error (.runtimeError "Buffer exceeds maximum size") ⟨true, buf, 2 ^ 32, 0⟩ := by
  refine ⟨?_, ?_⟩
  · have hfull : Growable ⟨true, [1, 2, 3, 4], 4, 0⟩ := ⟨rfl, by decide, by decide⟩
    obtain ⟨sb', -, hok, hroom, -, hcursor, -, hkept⟩ :=
      (ensureInPlace_safe hfull (show 1 ≤ 2 ^ 32 by decide)).2 (by decide)
    refine ⟨sb', hok, hroom, ?_⟩
    unfold contents
    rw [hcursor]
    exact hkept
  · intro buf hbuf
    have hlimit : Growable ⟨true, buf, 2 ^ 32, 0⟩ := ⟨rfl, hbuf.ge, hbuf.le⟩
    exact ((ensureInPlace_safe hlimit (show 1 ≤ 2 ^ 32 by decide)).1
      (show 2 ^ 32 < 2 ^ 32 + 1 by decide)).2

/-- **A write that fits lands behind what is there.** -/
theorem append_ok {sb : NetworkByteBuffer} (h : Growable sb) (bytes : List Byte)
    (hfit : sb.contents.length + bytes.length ≤ 2 ^ 32) :
    ∃ sb', sb.append bytes = .ok sb' ∧ Growable sb' ∧
      sb'.contents = sb.contents ++ bytes := by
  rw [length_contents h] at hfit
  have hcur := h.cursor
  obtain ⟨pad, hok, hlen, hlim⟩ := ensure_ok h hfit
  refine ⟨{ sb with buf := sb.buf ++ pad }.write bytes, ?_, ⟨h.owned, ?_, ?_⟩, ?_⟩
  · rw [append, hok]
    rfl
  · simp only [write, size, List.length_append, List.length_take, List.length_drop] at *
    omega
  · simp only [write, size, List.length_append, List.length_take, List.length_drop] at *
    omega
  · have htake : (sb.buf ++ pad).take sb.icursor = sb.buf.take sb.icursor :=
      List.take_append_of_le_length hcur
    have hl : (sb.buf.take sb.icursor ++ bytes).length = sb.icursor + bytes.length := by
      simp only [List.length_append, List.length_take, size] at *
      omega
    simp only [contents, write, htake]
    rw [← hl, List.take_left]

/-- **A write that does not fit is refused.** -/
theorem append_full {sb : NetworkByteBuffer} (h : Growable sb) (bytes : List Byte)
    (hlen : bytes.length ≤ 2 ^ 32) (hfull : 2 ^ 32 < sb.contents.length + bytes.length) :
    sb.append bytes = .error (.runtimeError "Buffer exceeds maximum size") := by
  rw [length_contents h] at hfull
  rw [append, ensure_full h hlen hfull]
  rfl

/-- The network bytes of a value are its big-endian bytes. -/
theorem addRaw_eq (sb : NetworkByteBuffer) (width value : Nat) :
    sb.addRaw width value = sb.append (Bytes.bigEndian width value) := rfl

/-! ### Reading

What a buffer still has to give is the memory behind its read cursor.  A read takes
its bytes off the front of that. -/

/-- The memory behind the read cursor is `rest`. -/
structure Unread (sb : NetworkByteBuffer) (rest : List Byte) : Prop where
  cursor : sb.ocursor ≤ sb.size
  bytes : sb.buf.drop sb.ocursor = rest

/-- The buffer `n` bytes further on. -/
def advance (sb : NetworkByteBuffer) (n : Nat) : NetworkByteBuffer :=
  { sb with ocursor := sb.ocursor + n }

theorem unread_ofBytes (bytes : List Byte) : Unread (ofBytes bytes) bytes :=
  ⟨Nat.zero_le _, rfl⟩

theorem Unread.read {sb : NetworkByteBuffer} {bytes rest : List Byte}
    (h : Unread sb (bytes ++ rest)) :
    sb.read bytes.length = .ok (bytes, sb.advance bytes.length) ∧
      Unread (sb.advance bytes.length) rest := by
  have hlen := congrArg List.length h.bytes
  rw [List.length_drop, List.length_append] at hlen
  have hcur := h.cursor
  have hfit : sb.ocursor + bytes.length ≤ sb.size := by
    unfold size at *
    omega
  refine ⟨?_, hfit, ?_⟩
  · unfold NetworkByteBuffer.read
    rw [if_pos hfit, h.bytes, List.take_left]
    rfl
  · show sb.buf.drop (sb.ocursor + bytes.length) = rest
    rw [← List.drop_drop, h.bytes, List.drop_left]

theorem Unread.getRaw {sb : NetworkByteBuffer} {w n : Nat} {rest : List Byte} (hn : n < 256 ^ w)
    (h : Unread sb (Bytes.bigEndian w n ++ rest)) :
    sb.getRaw w = .ok (n, sb.advance w) ∧ Unread (sb.advance w) rest := by
  obtain ⟨hread, hrest⟩ := h.read
  rw [Bytes.length_bigEndian] at hread hrest
  refine ⟨?_, hrest⟩
  unfold NetworkByteBuffer.getRaw
  rw [hread]
  show Except.ok (Bytes.ofLittleEndian (Bytes.bigEndian w n).reverse, sb.advance w) = _
  unfold Bytes.bigEndian
  rw [List.reverse_reverse, Bytes.ofLittleEndian_littleEndian, Nat.mod_eq_of_lt hn]

end RailwayDB.NetworkByteBuffer
