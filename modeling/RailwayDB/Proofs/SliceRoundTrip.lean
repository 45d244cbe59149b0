/-
A stored slice comes back.

The writer counts the parts and the names of each part in 32 bits, and a text in 32
bits too.  A buffer does not grow beyond 2^32 bytes, so the counts of a slice that was
written are right; a text of 2^32 bytes or more is cut.  The reader inserts the names
of a part into a set, so what comes back is the slice exactly when each part is a set
of names that are not too long.
-/
import RailwayDB.Proofs.PartitionLookup
import RailwayDB.Proofs.Slices

namespace RailwayDB.TimeSlicedPartitioning

open NetworkByteBuffer

/-! ### The names of a part -/

/-- The names are inserted, each behind the ones there are. -/
def inserted (names attributes : List Text) : List Text :=
  names.foldl (fun attributes name => if name ∈ attributes then attributes else attributes ++ [name])
    attributes

theorem nodup_inserted (names : List Text) {attributes : List Text} (h : attributes.Nodup) :
    (inserted names attributes).Nodup := by
  induction names generalizing attributes with
  | nil => exact h
  | cons name names ih =>
      unfold inserted
      rw [List.foldl_cons]
      split_ifs with hmem
      · exact ih h
      · refine ih (List.nodup_append.mpr ⟨h, List.nodup_singleton name, ?_⟩)
        intro a ha b hb heq
        rw [heq, List.mem_singleton.mp hb] at ha
        exact hmem ha

theorem mem_inserted {names attributes : List Text} {name : Text} :
    name ∈ inserted names attributes ↔ name ∈ attributes ∨ name ∈ names := by
  induction names generalizing attributes with
  | nil => simp [inserted]
  | cons first names ih =>
      have hstep : inserted (first :: names) attributes
          = inserted names (if first ∈ attributes then attributes else attributes ++ [first]) := rfl
      rw [hstep, ih]
      split_ifs with hmem
      · simp only [List.mem_cons]
        refine ⟨fun h => h.imp_right Or.inr, ?_⟩
        rintro (h | rfl | h)
        · exact Or.inl h
        · exact Or.inl hmem
        · exact Or.inr h
      · simp only [List.mem_append, List.mem_cons, List.not_mem_nil, or_false, or_assoc]

/-- Inserted into a set they are not in, different names go behind it. -/
theorem inserted_of_nodup {names attributes : List Text} (h : (attributes ++ names).Nodup) :
    inserted names attributes = attributes ++ names := by
  induction names generalizing attributes with
  | nil => exact (List.append_nil _).symm
  | cons name names ih =>
      have hnot : name ∉ attributes :=
        fun hmem => (List.nodup_append.mp h).2.2 name hmem name List.mem_cons_self rfl
      have hstep : inserted (name :: names) attributes = inserted names (attributes ++ [name]) := by
        unfold inserted
        rw [List.foldl_cons, if_neg hnot]
      rw [List.append_cons attributes name names] at h ⊢
      rw [hstep]
      exact ih h

theorem reads_readNames (names attributes : List Text) :
    Reads (fun sb => readNames names.length sb attributes) (names.flatMap textBytes)
      (inserted (names.map wireText) attributes) := by
  induction names generalizing attributes with
  | nil => exact Reads.pure
  | cons name names ih =>
      rw [List.flatMap_cons]
      exact (Reads.getSTLString name).bind (f := fun name sb =>
        readNames names.length sb (if name ∈ attributes then attributes else attributes ++ [name]))
        (ih _)

/-! ### The parts -/

/-- What comes back of a part. -/
def comeBack (attributes : List Text) : List Text := inserted (attributes.map wireText) []

/-- A part comes back as it is when it is a set of names that are not too long. -/
theorem comeBack_eq_self {attributes : List Text} :
    comeBack attributes = attributes ↔
      attributes.Nodup ∧ ∀ name ∈ attributes, name.length < 2 ^ 32 := by
  refine ⟨?_, ?_⟩
  · intro h
    refine ⟨?_, ?_⟩
    · rw [← h]
      exact nodup_inserted _ List.nodup_nil
    · intro name hname
      rw [← h] at hname
      rcases mem_inserted.mp hname with hno | hmem
      · simp at hno
      · obtain ⟨text, -, rfl⟩ := List.mem_map.mp hmem
        rw [length_wireText]
        exact Nat.mod_lt _ (by decide)
  · rintro ⟨hnodup, hshort⟩
    have hmap : attributes.map wireText = attributes :=
      (List.map_congr_left fun name hname => wireText_eq_self.mpr (hshort name hname)).trans
        (List.map_id attributes)
    unfold comeBack
    rw [hmap, inserted_of_nodup (by simpa using hnodup), List.nil_append]

theorem reads_readParts (parts : Partitioning) (acc : Partitioning)
    (hparts : ∀ attributes ∈ parts, attributes.length < 2 ^ 32) :
    Reads (fun sb => readParts parts.length sb acc) (parts.flatMap partBytes)
      (acc ++ parts.map comeBack) := by
  induction parts generalizing acc with
  | nil =>
      rw [List.map_nil, List.append_nil]
      exact Reads.pure
  | cons attributes parts ih =>
      have hcount : (BitVec.ofNat 32 attributes.length).toNat = attributes.length := by
        rw [BitVec.toNat_ofNat, Nat.mod_eq_of_lt (hparts attributes List.mem_cons_self)]
      have hnames := (Reads.getUInt32 (BitVec.ofNat 32 attributes.length)).bind
        (f := fun nAttributes sb => readNames nAttributes.toNat sb [])
        (by rw [hcount]; exact reads_readNames attributes [])
      have hrest := hnames.bind (f := fun attributes sb => readParts parts.length sb (acc ++ [attributes]))
        (ih (acc ++ [comeBack attributes]) fun a ha => hparts a (List.mem_cons_of_mem _ ha))
      have hbytes : partBytes attributes = Bytes.bigEndian 4 (BitVec.ofNat 32 attributes.length).toNat
        ++ attributes.flatMap textBytes := rfl
      rw [List.map_cons, List.append_cons acc, List.flatMap_cons, hbytes]
      intro sb rest hu
      obtain ⟨hread, hunread⟩ := hrest sb rest hu
      refine ⟨?_, hunread⟩
      dsimp only at hread
      rw [bind_assoc] at hread
      exact hread

/-! ### The slice -/

variable {T : Type} {s : TimeSlicedPartitioning T}

/-- All parts come back when each does. -/
theorem partitioning_comeBack_iff :
    ({ s with partitioning := s.partitioning.map comeBack } : TimeSlicedPartitioning T) = s ↔
      ∀ attributes ∈ s.partitioning, attributes.Nodup ∧ ∀ name ∈ attributes, name.length < 2 ^ 32 := by
  have hmap : ({ s with partitioning := s.partitioning.map comeBack } : TimeSlicedPartitioning T) = s ↔
      s.partitioning.map comeBack = s.partitioning := by
    refine ⟨fun heq => congrArg partitioning heq, fun heq => ?_⟩
    rw [heq]
  rw [hmap]
  conv_lhs => rw [← List.map_id s.partitioning, List.map_map]
  rw [List.map_inj_left]
  refine forall₂_congr fun attributes _ => ?_
  rw [← comeBack_eq_self]
  rfl

variable [Preorder T] [Timestamp T] {data : List Byte}

theorem reads_read (hparts : s.partitioning.length < 2 ^ 32)
    (hnames : ∀ attributes ∈ s.partitioning, attributes.length < 2 ^ 32) {sb : NetworkByteBuffer}
    (hunread : Unread sb s.bytes) :
    ∃ sb', read sb (.new : TimeSlicedPartitioning T)
      = .ok ({ s with partitioning := s.partitioning.map comeBack }, sb') := by
  have hcount : (BitVec.ofNat 32 s.partitioning.length).toNat = s.partitioning.length := by
    rw [BitVec.toNat_ofNat, Nat.mod_eq_of_lt hparts]
  unfold bytes at hunread
  rw [List.append_assoc, List.append_assoc] at hunread
  obtain ⟨hstart, hunread⟩ := Reads.getDouble (Timestamp.toBits s.startTime) _ _ hunread
  obtain ⟨hend, hunread⟩ := Reads.getDouble (Timestamp.toBits s.endTime) _ _ hunread
  obtain ⟨hn, hunread⟩ := Reads.getUInt32 (BitVec.ofNat 32 s.partitioning.length) _ _ hunread
  rw [← List.append_nil (s.partitioning.flatMap partBytes)] at hunread
  obtain ⟨hread, -⟩ := reads_readParts s.partitioning [] hnames _ _ hunread
  dsimp only at hread
  rw [hcount] at hread
  unfold read
  simp only [hstart, Except.ok_bind, hend, hn, hcount]
  rw [show (new : TimeSlicedPartitioning T).partitioning = [] from rfl, hread]
  simp only [Except.ok_bind, Except.pure_eq_ok, Timestamp.ofBits_toBits, List.nil_append]
  exact ⟨_, rfl⟩

/-- What comes back of a slice whose counts fit. -/
theorem deserialize_bytes (hparts : s.partitioning.length < 2 ^ 32)
    (hnames : ∀ attributes ∈ s.partitioning, attributes.length < 2 ^ 32) :
    deserialize s.bytes .new = .ok { s with partitioning := s.partitioning.map comeBack } := by
  obtain ⟨sb', hread⟩ := reads_read hparts hnames (unread_ofBytes s.bytes)
  unfold deserialize
  rw [hread, Except.ok_map]

theorem length_flatMap_ge {α : Type} {f : α → List Byte} {l : List α} (h : ∀ a ∈ l, 4 ≤ (f a).length) :
    4 * l.length ≤ (l.flatMap f).length := by
  induction l with
  | nil => exact Nat.zero_le _
  | cons a l ih =>
      rw [List.flatMap_cons, List.length_append, List.length_cons]
      have hfirst := h a List.mem_cons_self
      have hrest := ih fun b hb => h b (List.mem_cons_of_mem _ hb)
      omega

theorem length_partBytes (attributes : List Text) :
    (partBytes attributes).length = 4 + (attributes.flatMap textBytes).length := by
  unfold partBytes
  rw [List.length_append, Bytes.length_bigEndian]

/-- A slice is written when its bytes fit into a buffer. -/
theorem exists_serialize_iff : (∃ data, s.serialize = .ok data) ↔ s.bytes.length ≤ 2 ^ 32 := by
  obtain ⟨hfits, hlong⟩ := written_write s
  unfold serialize
  refine ⟨?_, ?_⟩
  · rintro ⟨data, h⟩
    by_contra hover
    rw [hlong (not_le.mp hover)] at h
    cases h
  · intro hle
    obtain ⟨sbuf, hwrite, -⟩ := hfits hle
    exact ⟨sbuf.contents, by rw [hwrite]; rfl⟩

/-- The counts of a slice that was written are right. -/
theorem counts_of_serialize (h : s.serialize = .ok data) : s.partitioning.length < 2 ^ 32 ∧
    ∀ attributes ∈ s.partitioning, attributes.length < 2 ^ 32 := by
  have hfit : s.bytes.length ≤ 2 ^ 32 := exists_serialize_iff.mp ⟨data, h⟩
  have hsum : (s.partitioning.flatMap partBytes).length ≤ 2 ^ 32 - 20 := by
    unfold bytes timeBytes at hfit
    simp only [List.length_append, Bytes.length_bigEndian] at hfit
    omega
  have hpart : ∀ attributes ∈ s.partitioning, 4 ≤ (partBytes attributes).length := by
    intro attributes _
    rw [length_partBytes]
    exact Nat.le_add_right _ _
  refine ⟨?_, ?_⟩
  · have hparts := length_flatMap_ge hpart
    omega
  · intro attributes hmem
    have hnames : 4 * attributes.length ≤ (attributes.flatMap textBytes).length := by
      refine length_flatMap_ge fun name _ => ?_
      rw [length_textBytes]
      exact Nat.le_add_right _ _
    have hone : (partBytes attributes).length ≤ (s.partitioning.flatMap partBytes).length :=
      (List.sublist_flatten_of_mem (List.mem_map_of_mem hmem)).length_le
    rw [length_partBytes] at hone
    omega

/-- **A stored slice comes back exactly when its parts are sets of names that are not too long.** -/
theorem deserialize_serialize_iff (h : s.serialize = .ok data) :
    deserialize data .new = .ok s ↔
      ∀ attributes ∈ s.partitioning, attributes.Nodup ∧ ∀ name ∈ attributes, name.length < 2 ^ 32 := by
  obtain ⟨hparts, hnames⟩ := counts_of_serialize h
  rw [serialize_eq_ok h, deserialize_bytes hparts hnames, Except.ok.injEq, partitioning_comeBack_iff]

/-- A slice of two parts, the first of two names. -/
def twoParts : TimeSlicedPartitioning Time :=
  ⟨Time.ofFloat 0.5, Timestamp.infinity, [[[97], [98, 99]], [[98, 99]]]⟩

theorem deserialize_serialize_twoParts :
    ∃ data, twoParts.serialize = .ok data ∧ deserialize data .new = .ok twoParts := by
  have heval : twoParts.serialize.toOption.map (fun _ => ()) = some () := by decide +kernel
  obtain ⟨data, hdata, -⟩ := Except.of_toOption_map heval
  exact ⟨data, hdata, (deserialize_serialize_iff hdata).mpr (by decide)⟩

/-- A slice that can be kept is stored and comes back when its bytes fit into a buffer. -/
theorem comesBack_iff
    (hnames : ∀ attributes ∈ s.partitioning, attributes.Nodup ∧
      ∀ name ∈ attributes, name.length < 2 ^ 32) :
    (∃ data, s.serialize = .ok data ∧ deserialize data .new = .ok s) ↔
      s.bytes.length ≤ 2 ^ 32 := by
  rw [← exists_serialize_iff]
  refine exists_congr fun data => and_iff_left_of_imp fun h => ?_
  obtain ⟨hparts, hcounts⟩ := counts_of_serialize h
  rw [serialize_eq_ok h, deserialize_bytes hparts hcounts, partitioning_comeBack_iff.mpr hnames]

end RailwayDB.TimeSlicedPartitioning
