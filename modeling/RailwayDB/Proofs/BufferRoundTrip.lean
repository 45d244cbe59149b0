/-
What is written with the stream operators comes back.

`encode` is the bytes of a value, by recursion on its type, and `wire` what a reader
makes of them.  A write lands those bytes behind what was there or is refused, and a
reader given them returns `wire`; both go by induction on the type, from the
`Written` and `Reads` of the members.  The one value that is not its own `wire` has
a text of 2^32 bytes or more in it: such a text is written with the low 32 bits of
its length.  A vector of that many items cannot be written, since an item takes at
least one byte.
-/
import RailwayDB.Core.ByteBufferOperators
import RailwayDB.Proofs.Codec
import Mathlib.Algebra.Order.BigOperators.Group.List

namespace RailwayDB

open NetworkByteBuffer

/-! ### The members of one byte -/

namespace NetworkByteBuffer

variable {sb : NetworkByteBuffer} {old : List Byte}

theorem Written.addByte (h : Written old sb) (ch : Byte) :
    WithinLimit (old ++ [ch]).length (Written (old ++ [ch])) (sb.addByte ch) :=
  h.append (show 1 ≤ 2 ^ 32 by decide)

theorem Reads.getByte (ch : Byte) : Reads NetworkByteBuffer.getByte [ch] ch := by
  intro sb rest hu
  obtain ⟨hread, hrest⟩ := hu.read
  refine ⟨?_, hrest⟩
  unfold NetworkByteBuffer.getByte
  rw [show sb.read 1 = _ from hread]
  rfl

theorem Reads.getBool (b : Bool) :
    Reads NetworkByteBuffer.getBool [if b then 1 else 0] b := by
  have h := (Reads.getByte (if b then 1 else 0)).map (f := fun ch => ch != 0)
  cases b with
  | false => exact h
  | true => exact h

theorem Reads.getUInt8 (i : BitVec 8) : Reads NetworkByteBuffer.getUInt8 [i.toFin] i := by
  have h := (Reads.getByte i.toFin).map (f := fun ch : Fin (2 ^ 8) => BitVec.ofFin ch)
  exact h

/-! ### No write moves the read cursor -/

theorem ocursor_append {sb' : NetworkByteBuffer} {bytes : List Byte}
    (h : sb.append bytes = .ok sb') : sb'.ocursor = sb.ocursor := by
  unfold append at h
  obtain ⟨grown, hgrown, rfl⟩ := Except.map_eq_ok.mp h
  show grown.ocursor = sb.ocursor
  unfold ensure resize at hgrown
  split at hgrown
  · split at hgrown
    · simp at hgrown
    · simp only at hgrown
      split at hgrown
      · simp at hgrown
      · rw [← Except.ok.inj hgrown]
  · rw [Except.ok.inj hgrown]

theorem ocursor_addSTLString {sb' : NetworkByteBuffer} {str : List Byte}
    (h : sb.addSTLString str = .ok sb') : sb'.ocursor = sb.ocursor := by
  unfold addSTLString at h
  obtain ⟨sb₁, hcount, h⟩ := Except.bind_eq_ok.mp h
  have hfirst : sb₁.ocursor = sb.ocursor := ocursor_append hcount
  split at h
  · rw [ocursor_append h, hfirst]
  · rw [← Except.ok.inj h, hfirst]

end NetworkByteBuffer

namespace BufferType

/-! ### The bytes of a value -/

def encode : (t : BufferType) → t.Val → List Byte
  | .bool, b => [if (show Bool from b) then 1 else 0]
  | .int8, i => [i.toFin]
  | .int16, i => Bytes.bigEndian 2 i.toNat
  | .int32, i => Bytes.bigEndian 4 i.toNat
  | .int64, i => Bytes.bigEndian 8 i.toNat
  | .uint8, i => [i.toFin]
  | .uint16, i => Bytes.bigEndian 2 i.toNat
  | .uint32, i => Bytes.bigEndian 4 i.toNat
  | .uint64, i => Bytes.bigEndian 8 i.toNat
  | .float, f => Bytes.bigEndian 4 f.toNat
  | .double, d => Bytes.bigEndian 8 d.toNat
  | .string, s => textBytes s
  | .vector item, l => Bytes.bigEndian 4 (List.length l % 2 ^ 32) ++ List.flatMap (encode item) l
  | .pair first second, v => encode first v.1 ++ encode second v.2

/-- How many bytes a value takes; a text counts modulo 2^32. -/
def wireSize : (t : BufferType) → t.Val → Nat
  | .bool, _ | .int8, _ | .uint8, _ => 1
  | .int16, _ | .uint16, _ => 2
  | .int32, _ | .uint32, _ | .float, _ => 4
  | .int64, _ | .uint64, _ | .double, _ => 8
  | .string, s => 4 + List.length s % 2 ^ 32
  | .vector item, l => 4 + (List.map (wireSize item) l).sum
  | .pair first second, v => wireSize first v.1 + wireSize second v.2

/-- What comes back of a value. -/
def wire : (t : BufferType) → t.Val → t.Val
  | .string, s => wireText s
  | .vector item, l => List.map (wire item) l
  | .pair first second, v => (wire first v.1, wire second v.2)
  | .bool, v | .int8, v | .int16, v | .int32, v | .int64, v | .uint8, v | .uint16, v
  | .uint32, v | .uint64, v | .float, v | .double, v => v

/-- Every text in the value is shorter than 2^32 bytes. -/
def Short : (t : BufferType) → t.Val → Prop
  | .string, s => List.length s < 2 ^ 32
  | .vector item, l => ∀ v ∈ (show List item.Val from l), Short item v
  | .pair first second, v => Short first v.1 ∧ Short second v.2
  | .bool, _ | .int8, _ | .int16, _ | .int32, _ | .int64, _ | .uint8, _ | .uint16, _
  | .uint32, _ | .uint64, _ | .float, _ | .double, _ => True

theorem length_encode (t : BufferType) (v : t.Val) : (encode t v).length = wireSize t v := by
  induction t with
  | string => exact length_textBytes v
  | vector item ih =>
      have hitems : ∀ l : List item.Val, (l.flatMap (encode item)).length =
          (l.map (wireSize item)).sum := by
        intro l
        simp only [List.length_flatMap, ih]
      show (Bytes.bigEndian 4 _ ++ List.flatMap (encode item) v).length = _
      rw [List.length_append, Bytes.length_bigEndian]
      exact congrArg (4 + ·) (hitems v)
  | pair first second ih₁ ih₂ =>
      show (encode first v.1 ++ encode second v.2).length = _
      rw [List.length_append, ih₁, ih₂]
      rfl
  | bool | int8 | uint8 => rfl
  | int16 | int32 | int64 | uint16 | uint32 | uint64 | float | double =>
      exact Bytes.length_bigEndian _ _

theorem wireSize_pos (t : BufferType) (v : t.Val) : 0 < wireSize t v := by
  induction t with
  | pair first second ih₁ ih₂ => exact Nat.add_pos_left (ih₁ v.1) _
  | string => exact Nat.add_pos_left (show 0 < 4 by decide) _
  | vector item => exact Nat.add_pos_left (show 0 < 4 by decide) _
  | bool | int8 | uint8 => exact Nat.one_pos
  | int16 | uint16 => exact Nat.two_pos
  | int32 | uint32 | float => exact Nat.succ_pos 3
  | int64 | uint64 | double => exact Nat.succ_pos 7

/-- A vector that fits has a length of 32 bits. -/
theorem length_lt_of_wireSize {item : BufferType} {l : List item.Val}
    (h : wireSize (.vector item) l ≤ 2 ^ 32) : l.length < 2 ^ 32 := by
  have hsum : l.length ≤ (l.map (wireSize item)).sum := by
    clear h
    induction l with
    | nil => simp
    | cons v l ih =>
        have hpos := wireSize_pos item v
        rw [List.map_cons, List.sum_cons, List.length_cons]
        omega
  have hsize : 4 + (l.map (wireSize item)).sum ≤ 2 ^ 32 := h
  omega

theorem wire_eq_self {t : BufferType} {v : t.Val} : wire t v = v ↔ Short t v := by
  induction t with
  | string => exact wireText_eq_self
  | vector item ih =>
      have hitems : ∀ l : List item.Val, l.map (wire item) = l ↔ ∀ x ∈ l, Short item x := by
        intro l
        simp only [← ih]
        conv_lhs => rhs; rw [← List.map_id l]
        exact List.map_inj_left
      exact hitems v
  | pair first second ih₁ ih₂ =>
      show (wire first v.1, wire second v.2) = v ↔ Short first v.1 ∧ Short second v.2
      rw [← ih₁, ← ih₂]
      exact Prod.ext_iff
  | bool | int8 | uint8 | int16 | int32 | int64 | uint16 | uint32 | uint64 | float | double =>
      exact iff_of_true rfl trivial

/-! ### Writing a value -/

theorem written_put (t : BufferType) (v : t.Val) {sb : NetworkByteBuffer} {old : List Byte}
    (h : Written old sb) :
    WithinLimit (old ++ encode t v).length (Written (old ++ encode t v)) (put t sb v) := by
  induction t generalizing sb old with
  | bool | int8 | uint8 => exact h.addByte _
  | int16 | uint16 => exact h.addRaw (show 2 ≤ 2 ^ 32 by decide) _
  | int32 | uint32 | float => exact h.addRaw (show 4 ≤ 2 ^ 32 by decide) _
  | int64 | uint64 | double => exact h.addRaw (show 8 ≤ 2 ^ 32 by decide) _
  | string => exact h.addSTLString v
  | vector item ih =>
      have hitems : ∀ l : List item.Val,
          WithinLimit (old ++ encode (.vector item) l).length
            (Written (old ++ encode (.vector item) l)) (put (.vector item) sb l) := by
        intro l
        have hcount := h.addUInt32 (BitVec.ofNat 32 l.length)
        rw [BitVec.toNat_ofNat] at hcount
        show WithinLimit (old ++ (Bytes.bigEndian 4 _ ++ l.flatMap (encode item))).length
          (Written (old ++ (Bytes.bigEndian 4 _ ++ l.flatMap (encode item)))) _
        rw [← List.append_assoc]
        refine hcount.bind (by simp) ?_
        intro sb' hsb'
        exact hsb'.foldlM l fun v _ _ _ hw => ih v hw
      exact hitems v
  | pair first second ih₁ ih₂ =>
      show WithinLimit (old ++ (encode first v.1 ++ encode second v.2)).length
        (Written (old ++ (encode first v.1 ++ encode second v.2))) _
      rw [← List.append_assoc]
      refine (ih₁ v.1 h).bind (by simp) ?_
      intro sb' hsb'
      exact ih₂ v.2 hsb'

theorem ocursor_put (t : BufferType) (v : t.Val) {sb sb' : NetworkByteBuffer}
    (h : put t sb v = .ok sb') : sb'.ocursor = sb.ocursor := by
  induction t generalizing sb sb' with
  | string => exact ocursor_addSTLString h
  | vector item ih =>
      have hput : (sb.addUInt32 (BitVec.ofNat 32 (List.length v)) >>= fun sb =>
        List.foldlM (put item) sb v) = .ok sb' := h
      obtain ⟨sb₁, hcount, hitems⟩ := Except.bind_eq_ok.mp hput
      refine Except.foldlM_inv (P := fun _ s => s.ocursor = sb.ocursor) ?_
        (ocursor_append hcount) hitems
      intro v _ s s' hs hstep
      rw [ih v hstep, hs]
  | pair first second ih₁ ih₂ =>
      have hput : (put first sb v.1 >>= fun sb => put second sb v.2) = .ok sb' := h
      obtain ⟨sb₁, hfirst, hsecond⟩ := Except.bind_eq_ok.mp hput
      rw [ih₂ v.2 hsecond, ih₁ v.1 hfirst]
  | bool | int8 | uint8 | int16 | int32 | int64 | uint16 | uint32 | uint64 | float | double =>
      exact ocursor_append h

/-! ### Reading a value -/

theorem reads_getItems {α : Type} {get : NetworkByteBuffer → Except Fault (α × NetworkByteBuffer)}
    {f : α → List Byte} {g : α → α} (l : List α) (h : ∀ a ∈ l, Reads get (f a) (g a)) :
    Reads (getItems get l.length) (l.flatMap f) (l.map g) := by
  induction l with
  | nil => exact Reads.pure
  | cons a l ih =>
      rw [List.flatMap_cons]
      have hrest := ih fun b hb => h b (List.mem_cons_of_mem _ hb)
      refine (h a List.mem_cons_self).bind (f := fun a' sb =>
        getItems get l.length sb >>= fun p => .ok (a' :: p.1, p.2)) ?_
      rw [← List.append_nil (l.flatMap f)]
      exact hrest.bind (f := fun items sb => .ok (g a :: items, sb)) Reads.pure

theorem reads_get (t : BufferType) (v : t.Val) (hfit : wireSize t v ≤ 2 ^ 32) :
    Reads (get t) (encode t v) (wire t v) := by
  induction t with
  | bool => exact Reads.getBool v
  | int8 | uint8 => exact Reads.getUInt8 v
  | int16 | uint16 => exact Reads.toBits (k := 16) (w := 2) v (by decide)
  | int32 | uint32 | float => exact Reads.getUInt32 v
  | int64 | uint64 | double => exact Reads.getUInt64 v
  | string => exact Reads.getSTLString v
  | vector item ih =>
      have hitems : ∀ l : List item.Val, wireSize (.vector item) l ≤ 2 ^ 32 →
          Reads (get (.vector item)) (encode (.vector item) l) (wire (.vector item) l) := by
        intro l hsize
        have hcount := Reads.getUInt32 (BitVec.ofNat 32 l.length)
        rw [BitVec.toNat_ofNat] at hcount
        refine hcount.bind (f := fun size sb => getItems (get item) size.toNat sb) ?_
        rw [BitVec.toNat_ofNat, Nat.mod_eq_of_lt (length_lt_of_wireSize hsize)]
        refine reads_getItems l ?_
        intro x hx
        have hle : wireSize item x ≤ (l.map (wireSize item)).sum :=
          List.le_sum_of_mem (List.mem_map_of_mem hx)
        have hsum : 4 + (l.map (wireSize item)).sum ≤ 2 ^ 32 := hsize
        exact ih x (by omega)
      exact hitems v hfit
  | pair first second ih₁ ih₂ =>
      have hsum : wireSize first v.1 + wireSize second v.2 ≤ 2 ^ 32 := hfit
      have h₁ := ih₁ v.1 (by omega)
      have h₂ := ih₂ v.2 (by omega)
      refine h₁.bind (f := fun a sb => get second sb >>= fun p => .ok ((a, p.1), p.2)) ?_
      rw [← List.append_nil (encode second v.2)]
      exact h₂.bind (f := fun b sb => .ok ((wire first v.1, b), sb)) Reads.pure

end BufferType

namespace BufferValue

/-! ### A sequence of values -/

/-- Every text in the value is shorter than 2^32 bytes. -/
def Short (val : BufferValue) : Prop := val.1.Short val.2

/-- How many bytes the values take, texts counted modulo 2^32. -/
def totalSize (vals : List BufferValue) : Nat := (vals.map fun val => val.1.wireSize val.2).sum

def encodeAll (vals : List BufferValue) : List Byte := vals.flatMap fun val => val.1.encode val.2

def wire (val : BufferValue) : BufferValue := ⟨val.1, val.1.wire val.2⟩

theorem wire_eq_self {val : BufferValue} : val.wire = val ↔ val.Short := by
  obtain ⟨t, v⟩ := val
  unfold wire Short
  rw [← BufferType.wire_eq_self, Sigma.mk.injEq]
  simp

theorem length_encodeAll (vals : List BufferValue) :
    (encodeAll vals).length = totalSize vals := by
  unfold encodeAll totalSize
  simp only [List.length_flatMap, BufferType.length_encode]

theorem written_putAll {n : Nat} (hn : n ≤ 2 ^ 32) (vals : List BufferValue) :
    WithinLimit (encodeAll vals).length (Written (encodeAll vals)) (putAll (ofSize n) vals) :=
  Written.foldlM vals (fun val _ _ _ hw => val.1.written_put val.2 hw)
    ⟨growable_ofSize hn, contents_ofSize n⟩

theorem ocursor_putAll {vals : List BufferValue} {sb sb' : NetworkByteBuffer}
    (h : putAll sb vals = .ok sb') : sb'.ocursor = sb.ocursor := by
  refine Except.foldlM_inv (P := fun _ s => s.ocursor = sb.ocursor) ?_ rfl h
  intro val _ s s' hs hstep
  rw [val.1.ocursor_put val.2 hstep, hs]

theorem reads_getAll (vals : List BufferValue) (hfit : totalSize vals ≤ 2 ^ 32) :
    Reads (getAll (vals.map Sigma.fst)) (encodeAll vals) (vals.map wire) := by
  induction vals with
  | nil => exact Reads.pure
  | cons val vals ih =>
      have hsum : val.1.wireSize val.2 + totalSize vals ≤ 2 ^ 32 := hfit
      have hval := val.1.reads_get val.2 (by omega)
      have hrest := ih (by omega)
      show Reads _ (val.1.encode val.2 ++ encodeAll vals) _
      refine hval.bind (f := fun v sb =>
        getAll (vals.map Sigma.fst) sb >>= fun p => .ok (⟨val.1, v⟩ :: p.1, p.2)) ?_
      rw [← List.append_nil (encodeAll vals)]
      exact hrest.bind (f := fun items sb => .ok (val.wire :: items, sb)) Reads.pure

/-- **A sequence of values is refused or comes back as its `wire`.** -/
theorem putAll_getAll {n : Nat} (hn : n ≤ 2 ^ 32) (vals : List BufferValue) :
    (2 ^ 32 < totalSize vals → putAll (ofSize n) vals = .error full) ∧
    (totalSize vals ≤ 2 ^ 32 → ∃ sb sb', putAll (ofSize n) vals = .ok sb ∧
      getAll (vals.map Sigma.fst) sb = .ok (vals.map wire, sb') ∧
      sb'.getNRemainingBytes = 0) := by
  have hput := written_putAll hn vals
  rw [length_encodeAll] at hput
  refine ⟨hput.2, ?_⟩
  intro hfit
  obtain ⟨sb, hsb, hwritten⟩ := hput.1 hfit
  have hocursor : sb.ocursor = 0 := ocursor_putAll hsb
  have hicursor := length_contents hwritten.growable
  rw [hwritten.contents] at hicursor
  have hunread : Unread sb (encodeAll vals ++ sb.buf.drop sb.icursor) := by
    refine ⟨by omega, ?_⟩
    rw [hocursor, List.drop_zero, ← hwritten.contents]
    exact (List.take_append_drop _ _).symm
  obtain ⟨hget, -⟩ := reads_getAll vals hfit sb _ hunread
  refine ⟨sb, _, hsb, hget, ?_⟩
  show (sb.icursor + 2 ^ 64 - (sb.ocursor + (encodeAll vals).length)) % 2 ^ 64 = 0
  omega

/-- The values come back as they were written and nothing remains, unless a write throws. -/
def RoundTrips (n : Nat) (vals : List BufferValue) : Prop :=
  (∃ text, putAll (ofSize n) vals = .error (.runtimeError text)) ∨
  ∃ sb sb', putAll (ofSize n) vals = .ok sb ∧
    getAll (vals.map Sigma.fst) sb = .ok (vals, sb') ∧ sb'.getNRemainingBytes = 0

/-- What was written and fits comes back only if it is its own `wire`. -/
theorem RoundTrips.short {n : Nat} (hn : n ≤ 2 ^ 32) {vals : List BufferValue}
    (h : RoundTrips n vals) (hfit : totalSize vals ≤ 2 ^ 32) : ∀ val ∈ vals, val.Short := by
  obtain ⟨sb, sb', hput, hget, -⟩ := (putAll_getAll hn vals).2 hfit
  rcases h with ⟨text, herror⟩ | ⟨sb₁, sb₁', hput₁, hget₁, -⟩
  · rw [hput] at herror
    simp at herror
  · rw [hput, Except.ok.injEq] at hput₁
    rw [← hput₁, hget, Except.ok.injEq, Prod.mk.injEq] at hget₁
    have hmap : vals.map wire = vals.map id := by rw [hget₁.1, List.map_id]
    intro val hval
    exact wire_eq_self.mp (List.map_inj_left.mp hmap val hval)

/-- Values without a long text come back or are refused. -/
theorem roundTrips_of_short {n : Nat} (hn : n ≤ 2 ^ 32) {vals : List BufferValue}
    (hshort : totalSize vals ≤ 2 ^ 32 → ∀ val ∈ vals, val.Short) : RoundTrips n vals := by
  obtain ⟨hfull, hok⟩ := putAll_getAll hn vals
  by_cases hfit : totalSize vals ≤ 2 ^ 32
  · obtain ⟨sb, sb', hput, hget, hnone⟩ := hok hfit
    refine Or.inr ⟨sb, sb', hput, ?_, hnone⟩
    have hwire : vals.map wire = vals := by
      conv_rhs => rw [← List.map_id vals]
      exact List.map_inj_left.mpr fun val hval => wire_eq_self.mpr (hshort hfit val hval)
    rw [hget, hwire]
  · exact Or.inl ⟨_, hfull (Nat.lt_of_not_le hfit)⟩

/-- **Values come back unless one has a text of 2^32 bytes or more in it and they fit all the
same.** -/
theorem roundTrips_iff {n : Nat} (hn : n ≤ 2 ^ 32) (vals : List BufferValue) :
    RoundTrips n vals ↔ (totalSize vals ≤ 2 ^ 32 → ∀ val ∈ vals, val.Short) :=
  ⟨fun h => h.short hn, roundTrips_of_short hn⟩

/-- A nested value in a buffer that has to grow. -/
theorem roundTrips_nested :
    RoundTrips 1
      [⟨.vector (.pair .int16 .string), ([(5, [1, 2]), (6, [])] : List (BitVec 16 × List Byte))⟩,
        ⟨.bool, true⟩] := by
  refine (roundTrips_iff (show 1 ≤ 2 ^ 32 by decide) _).mpr ?_
  intro _ val hval
  simp only [List.mem_cons, List.not_mem_nil, or_false] at hval
  rcases hval with rfl | rfl
  · have hpairs : ∀ v ∈ ([(5, [1, 2]), (6, [])] : List (BitVec 16 × List Byte)),
        v.2.length < 2 ^ 32 := by decide
    intro v hv
    exact ⟨trivial, hpairs v hv⟩
  · trivial

/-- A text of 2^32 bytes is written as an empty one. -/
theorem not_roundTrips_of_length {s : List Byte} (h : s.length = 2 ^ 32) :
    ¬ RoundTrips 0 [⟨.string, s⟩] := by
  intro hround
  have hsize : totalSize [⟨.string, s⟩] = 4 + s.length % 2 ^ 32 + 0 := rfl
  have hfit : totalSize [⟨.string, s⟩] ≤ 2 ^ 32 := by
    rw [hsize, h]
    decide
  have hshort : s.length < 2 ^ 32 := hround.short (Nat.zero_le _) hfit _ List.mem_cons_self
  omega

theorem not_roundTrips :
    ¬ ∀ n, n ≤ 2 ^ 32 → ∀ vals : List BufferValue, RoundTrips n vals := by
  intro hall
  exact not_roundTrips_of_length (List.length_replicate (n := 2 ^ 32) (a := (0 : Byte)))
    (hall 0 (Nat.zero_le _) _)

end BufferValue

end RailwayDB
