/-
Writing and reading piece by piece.

Every stored format is a run of writes to a buffer.  `WithinLimit` is what such a
run does: when all it writes fits into 2^32 bytes it returns with the bytes behind
what was there, and when it does not it throws, wherever the limit is met.  `Reads`
is the other side: given its own bytes at the front of the unread ones, a reader
returns its value and leaves the rest.
-/
import RailwayDB.Lib.Except
import RailwayDB.Proofs.NetworkByteBuffer
import RailwayDB.Core.AttributeData

namespace RailwayDB

namespace NetworkByteBuffer

/-! ### Writing -/

/-- The exception of a buffer that would pass its limit. -/
def full : Fault := .runtimeError "Buffer exceeds maximum size"

/-- With `n` bytes in all, the write returns as `Q` says or is refused. -/
def WithinLimit {γ : Type} (n : Nat) (Q : γ → Prop) (x : Except Fault γ) : Prop :=
  (n ≤ 2 ^ 32 → ∃ r, x = .ok r ∧ Q r) ∧ (2 ^ 32 < n → x = .error full)

/-- A growable buffer with these bytes in it. -/
structure Written (bytes : List Byte) (sb : NetworkByteBuffer) : Prop where
  growable : Growable sb
  contents : sb.contents = bytes

theorem written_new : Written [] new := ⟨growable_new, contents_new⟩

namespace WithinLimit

variable {γ δ : Type} {n m : Nat} {Q : γ → Prop} {R : δ → Prop} {x : Except Fault γ}

theorem ok {r : γ} (hn : n ≤ 2 ^ 32) (h : Q r) : WithinLimit n Q (.ok r) :=
  ⟨fun _ => ⟨r, rfl, h⟩, fun hlt => absurd hn (Nat.not_le.mpr hlt)⟩

theorem of_ok (h : WithinLimit n Q x) {r : γ} (hx : x = .ok r) : Q r := by
  by_cases hn : n ≤ 2 ^ 32
  · obtain ⟨r', hr', hQ⟩ := h.1 hn
    rw [hx, Except.ok.injEq] at hr'
    rw [hr']
    exact hQ
  · rw [h.2 (Nat.lt_of_not_le hn)] at hx
    simp at hx

/-- The limit may be met in the first part or in the second. -/
theorem bind {f : γ → Except Fault δ} (h : WithinLimit n Q x) (hle : n ≤ m)
    (hf : ∀ r, Q r → WithinLimit m R (f r)) : WithinLimit m R (x >>= f) := by
  refine ⟨?_, ?_⟩
  · intro hm
    obtain ⟨r, hr, hQ⟩ := h.1 (le_trans hle hm)
    obtain ⟨r', hr', hR⟩ := (hf r hQ).1 hm
    exact ⟨r', by rw [hr, Except.ok_bind, hr'], hR⟩
  · intro hm
    by_cases hn : n ≤ 2 ^ 32
    · obtain ⟨r, hr, hQ⟩ := h.1 hn
      rw [hr, Except.ok_bind]
      exact (hf r hQ).2 hm
    · rw [h.2 (Nat.lt_of_not_le hn), Except.error_bind]

theorem map {f : γ → δ} (h : WithinLimit n Q x) (hf : ∀ r, Q r → R (f r)) :
    WithinLimit n R (x.map f) := by
  refine ⟨?_, ?_⟩
  · intro hn
    obtain ⟨r, hr, hQ⟩ := h.1 hn
    exact ⟨f r, by rw [hr, Except.ok_map], hf r hQ⟩
  · intro hn
    rw [h.2 hn, Except.error_map]

end WithinLimit

variable {sb : NetworkByteBuffer} {old : List Byte}

/-- A piece lands behind what is there, or is refused. -/
theorem Written.append (h : Written old sb) {bytes : List Byte} (hlen : bytes.length ≤ 2 ^ 32) :
    WithinLimit (old ++ bytes).length (Written (old ++ bytes)) (sb.append bytes) := by
  rw [List.length_append]
  refine ⟨?_, ?_⟩
  · intro hfit
    rw [← h.contents] at hfit
    obtain ⟨sb', hok, hgrow, hcont⟩ := append_ok h.growable bytes hfit
    exact ⟨sb', hok, hgrow, by rw [hcont, h.contents]⟩
  · intro hfull
    rw [← h.contents] at hfull
    exact append_full h.growable bytes hlen hfull

/-- The common body of the `add` members. -/
theorem Written.addRaw (h : Written old sb) {w : Nat} (hw : w ≤ 2 ^ 32) (n : Nat) :
    WithinLimit (old ++ Bytes.bigEndian w n).length (Written (old ++ Bytes.bigEndian w n))
      (sb.addRaw w n) := by
  rw [addRaw_eq]
  exact h.append (by rw [Bytes.length_bigEndian]; exact hw)

theorem Written.addUInt64 (h : Written old sb) (i : BitVec 64) :
    WithinLimit (old ++ Bytes.bigEndian 8 i.toNat).length
      (Written (old ++ Bytes.bigEndian 8 i.toNat)) (sb.addUInt64 i) :=
  h.addRaw (by decide) _

theorem Written.addInt64 (h : Written old sb) (i : BitVec 64) :
    WithinLimit (old ++ Bytes.bigEndian 8 i.toNat).length
      (Written (old ++ Bytes.bigEndian 8 i.toNat)) (sb.addInt64 i) :=
  h.addRaw (by decide) _

theorem Written.addDouble (h : Written old sb) (d : BitVec 64) :
    WithinLimit (old ++ Bytes.bigEndian 8 d.toNat).length
      (Written (old ++ Bytes.bigEndian 8 d.toNat)) (sb.addDouble d) :=
  h.addRaw (by decide) _

theorem Written.addUInt32 (h : Written old sb) (i : BitVec 32) :
    WithinLimit (old ++ Bytes.bigEndian 4 i.toNat).length
      (Written (old ++ Bytes.bigEndian 4 i.toNat)) (sb.addUInt32 i) :=
  h.addRaw (by decide) _

theorem Written.addInt32 (h : Written old sb) (i : BitVec 32) :
    WithinLimit (old ++ Bytes.bigEndian 4 i.toNat).length
      (Written (old ++ Bytes.bigEndian 4 i.toNat)) (sb.addInt32 i) :=
  h.addRaw (by decide) _

/-- What comes back of a text: its length goes through 32 bits. -/
def wireText (s : List Byte) : List Byte := s.take (s.length % 2 ^ 32)

theorem length_wireText (s : List Byte) : (wireText s).length = s.length % 2 ^ 32 := by
  unfold wireText
  rw [List.length_take, Nat.min_eq_left (Nat.mod_le _ _)]

theorem wireText_eq_self {s : List Byte} : wireText s = s ↔ s.length < 2 ^ 32 := by
  refine ⟨?_, ?_⟩
  · intro h
    have hlen := length_wireText s
    rw [h] at hlen
    rw [hlen]
    exact Nat.mod_lt _ (by decide)
  · intro h
    unfold wireText
    rw [Nat.mod_eq_of_lt h, List.take_length]

/-- The bytes of a text. -/
def textBytes (s : List Byte) : List Byte :=
  Bytes.bigEndian 4 (s.length % 2 ^ 32) ++ wireText s

theorem length_textBytes (s : List Byte) : (textBytes s).length = 4 + s.length % 2 ^ 32 := by
  unfold textBytes
  rw [List.length_append, Bytes.length_bigEndian, length_wireText]

theorem Written.addSTLString (h : Written old sb) (s : List Byte) :
    WithinLimit (old ++ textBytes s).length (Written (old ++ textBytes s))
      (sb.addSTLString s) := by
  have hlen : (BitVec.ofNat 32 s.length).toNat = s.length % 2 ^ 32 := BitVec.toNat_ofNat _ _
  have hlt : s.length % 2 ^ 32 < 2 ^ 32 := Nat.mod_lt _ (by decide)
  unfold NetworkByteBuffer.addSTLString textBytes
  rw [← List.append_assoc]
  have hcount := h.addUInt32 (BitVec.ofNat 32 s.length)
  rw [hlen] at hcount
  refine hcount.bind (by simp) ?_
  intro sb' hsb'
  simp only [hlen]
  by_cases hpos : 0 < s.length % 2 ^ 32
  · rw [if_pos hpos]
    refine hsb'.append ?_
    rw [length_wireText]
    omega
  · have hzero : s.length % 2 ^ 32 = 0 := by omega
    rw [if_neg hpos]
    have hnil : wireText s = [] := List.length_eq_zero_iff.mp (by rw [length_wireText, hzero])
    rw [hnil, List.append_nil]
    refine ⟨fun _ => ⟨sb', rfl, hsb'⟩, ?_⟩
    intro hover
    have hold := hsb'.growable.limit
    have hcur := hsb'.growable.cursor
    rw [← hsb'.contents, length_contents hsb'.growable] at hover
    omega

/-- Pieces one after the other. -/
theorem Written.foldlM {ι : Type} {f : NetworkByteBuffer → ι → Except Fault NetworkByteBuffer}
    {g : ι → List Byte} (l : List ι)
    (hstep : ∀ i ∈ l, ∀ {sb old}, Written old sb →
      WithinLimit (old ++ g i).length (Written (old ++ g i)) (f sb i))
    (h : Written old sb) :
    WithinLimit (old ++ l.flatMap g).length (Written (old ++ l.flatMap g)) (l.foldlM f sb) := by
  induction l generalizing sb old with
  | nil =>
      rw [List.flatMap_nil, List.append_nil]
      refine WithinLimit.ok ?_ h
      rw [← h.contents, length_contents h.growable]
      exact le_trans h.growable.cursor h.growable.limit
  | cons i l ih =>
      rw [List.foldlM_cons, List.flatMap_cons, ← List.append_assoc]
      refine (hstep i List.mem_cons_self h).bind (by simp) ?_
      intro sb' hsb'
      exact ih (fun j hj => hstep j (List.mem_cons_of_mem _ hj)) hsb'

/-! ### Reading -/

/-- Given its own bytes, the reader returns `a` and leaves the rest. -/
def Reads {α : Type} (r : NetworkByteBuffer → Except Fault (α × NetworkByteBuffer))
    (bytes : List Byte) (a : α) : Prop :=
  ∀ sb rest, Unread sb (bytes ++ rest) →
    r sb = .ok (a, sb.advance bytes.length) ∧ Unread (sb.advance bytes.length) rest

theorem advance_advance (sb : NetworkByteBuffer) (m n : Nat) :
    (sb.advance m).advance n = sb.advance (m + n) := by
  unfold advance
  simp only [Nat.add_assoc]

@[simp] theorem advance_zero (sb : NetworkByteBuffer) : sb.advance 0 = sb := rfl

namespace Reads

variable {α β : Type} {r : NetworkByteBuffer → Except Fault (α × NetworkByteBuffer)}
  {bytes more : List Byte} {a : α} {b : β}

theorem pure : Reads (fun sb => .ok (a, sb)) [] a := by
  intro sb rest h
  exact ⟨rfl, h⟩

theorem map {f : α → β} (h : Reads r bytes a) :
    Reads (fun sb => (r sb).map fun p => (f p.1, p.2)) bytes (f a) := by
  intro sb rest hu
  obtain ⟨hr, hrest⟩ := h sb rest hu
  exact ⟨by simp only [hr, Except.ok_map], hrest⟩

/-- One reader after the other. -/
theorem bind {f : α → NetworkByteBuffer → Except Fault (β × NetworkByteBuffer)}
    (h : Reads r bytes a) (hf : Reads (f a) more b) :
    Reads (fun sb => r sb >>= fun p => f p.1 p.2) (bytes ++ more) b := by
  intro sb rest hu
  rw [List.append_assoc] at hu
  obtain ⟨hr, hrest⟩ := h sb _ hu
  obtain ⟨hr', hrest'⟩ := hf _ _ hrest
  rw [advance_advance, ← List.length_append] at hr' hrest'
  refine ⟨?_, hrest'⟩
  simp only [hr, Except.ok_bind]
  exact hr'

/-- The common body of the `get` members. -/
theorem getRaw {w n : Nat} (hn : n < 256 ^ w) :
    Reads (fun sb => sb.getRaw w) (Bytes.bigEndian w n) n := by
  intro sb rest hu
  rw [Bytes.length_bigEndian]
  exact hu.getRaw hn

/-- A number of `k` bits that fill their bytes. -/
theorem toBits {k w : Nat} (i : BitVec k) (hk : 2 ^ k = 256 ^ w) :
    Reads (fun sb => (sb.getRaw w).map fun r => (BitVec.ofNat k r.1, r.2))
      (Bytes.bigEndian w i.toNat) i := by
  have hlt : i.toNat < 256 ^ w := hk ▸ i.isLt
  have h := (getRaw hlt).map (f := BitVec.ofNat k)
  rwa [BitVec.ofNat_toNat, BitVec.setWidth_eq] at h

theorem getUInt64 (i : BitVec 64) :
    Reads NetworkByteBuffer.getUInt64 (Bytes.bigEndian 8 i.toNat) i := toBits i (by decide)

theorem getInt64 (i : BitVec 64) :
    Reads NetworkByteBuffer.getInt64 (Bytes.bigEndian 8 i.toNat) i := toBits i (by decide)

theorem getDouble (i : BitVec 64) :
    Reads NetworkByteBuffer.getDouble (Bytes.bigEndian 8 i.toNat) i := toBits i (by decide)

theorem getUInt32 (i : BitVec 32) :
    Reads NetworkByteBuffer.getUInt32 (Bytes.bigEndian 4 i.toNat) i := toBits i (by decide)

theorem getInt32 (i : BitVec 32) :
    Reads NetworkByteBuffer.getInt32 (Bytes.bigEndian 4 i.toNat) i := toBits i (by decide)

theorem getSTLString (s : List Byte) :
    Reads NetworkByteBuffer.getSTLString (textBytes s) (wireText s) := by
  have hlen : (BitVec.ofNat 32 s.length).toNat = s.length % 2 ^ 32 := BitVec.toNat_ofNat _ _
  have hcount := getUInt32 (BitVec.ofNat 32 s.length)
  rw [hlen] at hcount
  refine hcount.bind (f := fun stlen sb =>
    if 0 < stlen.toNat then sb.read stlen.toNat else .ok ([], sb)) ?_
  intro sb rest hu
  simp only [hlen]
  by_cases hpos : 0 < s.length % 2 ^ 32
  · rw [if_pos hpos, ← length_wireText]
    exact hu.read
  · have hzero : s.length % 2 ^ 32 = 0 := by omega
    have hnil : wireText s = [] := List.length_eq_zero_iff.mp (by rw [length_wireText, hzero])
    rw [if_neg hpos]
    rw [hnil] at hu ⊢
    exact ⟨rfl, hu⟩

end Reads

end NetworkByteBuffer

/-! ### Values -/

namespace Value

open NetworkByteBuffer

/-- The bytes of a value. -/
def bytes : Value → List Byte
  | .int64 i => Bytes.bigEndian 8 i.toNat
  | .double d => Bytes.bigEndian 8 d.toNat
  | .string s => textBytes s

/-- What comes back of a value. -/
def wire : Value → Value
  | .int64 i => .int64 i
  | .double d => .double d
  | .string s => .string (wireText s)

/-- A text of 2^32 bytes or more does not come back whole. -/
def Short : Value → Prop
  | .string s => s.length < 2 ^ 32
  | _ => True

theorem wire_eq_self {v : Value} : v.wire = v ↔ v.Short := by
  cases v with
  | int64 i => simp [wire, Short]
  | double d => simp [wire, Short]
  | string s => simpa [wire, Short] using wireText_eq_self

theorem length_bytes {v : Value} (h : v.Short) : v.bytes.length = v.serializedSize := by
  cases v with
  | int64 i => exact Bytes.length_bigEndian _ _
  | double d => exact Bytes.length_bigEndian _ _
  | string s =>
      show (textBytes s).length = 4 + s.length
      rw [length_textBytes, Nat.mod_eq_of_lt h]

theorem written_write (v : Value) {sb : NetworkByteBuffer} {old : List Byte}
    (h : Written old sb) :
    WithinLimit (old ++ v.bytes).length (Written (old ++ v.bytes)) (v.write sb) := by
  cases v with
  | int64 i => exact h.addInt64 i
  | double d => exact h.addDouble d
  | string s => exact h.addSTLString s

theorem reads_read (v : Value) : Reads (fun sb => read sb v.type) v.bytes v.wire := by
  cases v with
  | int64 i => exact (Reads.getInt64 i).map
  | double d => exact (Reads.getDouble d).map
  | string s => exact (Reads.getSTLString s).map

end Value

end RailwayDB
