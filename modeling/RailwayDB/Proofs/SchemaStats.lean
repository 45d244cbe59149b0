/-
The average sizes, call after call and session after session.

A call adds one to the 32-bit count of its index and its bytes to the sum; storing
and loading carries both over whole, in whatever order the map is walked, or is
refused and changes nothing.  `Tracks` is what holds after any run: the sum is that
of all bytes passed and the count that of the calls, modulo 2^32.  The average is
therefore exact until an index has been counted 2^32 times, and after that only where
the sum is zero.
-/
import RailwayDB.Core.MetaDataFile
import RailwayDB.Lib.Except
import Mathlib.Algebra.BigOperators.Group.List.Basic
import Mathlib.Data.List.Induction
import Mathlib.Algebra.Order.Ring.Rat

namespace RailwayDB

/-! ### A run of fields -/

namespace FieldBuffer

def putAll (sbuf : FieldBuffer) (fields : List FileField) : Except Fault FieldBuffer :=
  fields.foldlM put sbuf

/-- The fields go in one after the other or are refused, wherever the limit is met. -/
theorem putAll_eq {sbuf : FieldBuffer} (h : sbuf.size ≤ 2 ^ 32) (fields : List FileField) :
    sbuf.putAll fields = if sbuf.size + (fields.map FileField.size).sum ≤ 2 ^ 32 then
        .ok ⟨sbuf.fields ++ fields⟩
      else .error (.runtimeError "Buffer exceeds maximum size") := by
  unfold putAll
  induction fields generalizing sbuf with
  | nil =>
      rw [List.map_nil, List.sum_nil, Nat.add_zero, if_pos h, List.append_nil]
      rfl
  | cons field fields ih =>
      rw [List.foldlM_cons, List.map_cons, List.sum_cons, ← Nat.add_assoc]
      by_cases hfit : sbuf.size + field.size ≤ 2 ^ 32
      · have hsize : (⟨sbuf.fields ++ [field]⟩ : FieldBuffer).size = sbuf.size + field.size := by
          simp [size]
        have hput : sbuf.put field = .ok ⟨sbuf.fields ++ [field]⟩ := if_pos hfit
        rw [hput, Except.ok_bind, ih (by rw [hsize]; exact hfit), hsize, List.append_assoc]
        rfl
      · have hput : sbuf.put field = .error (.runtimeError "Buffer exceeds maximum size") :=
          if_neg hfit
        rw [hput, Except.error_bind, if_neg (by omega)]

theorem size_new : new.size = 0 := rfl

end FieldBuffer

/-! ### Storing and loading the sizes -/

namespace SchemaStats

def entryFields (entry : Entry) : List FileField :=
  [.uint32 (BitVec.ofNat 32 entry.1), .uint32 entry.2.1, .double entry.2.2]

theorem writeEntry_eq (sbuf : FieldBuffer) (entry : Entry) :
    writeEntry sbuf entry = sbuf.putAll (entryFields entry) := by
  unfold writeEntry FieldBuffer.putAll entryFields
  simp only [List.foldlM_cons, List.foldlM_nil, bind_pure]

theorem writeEntries_eq (sbuf : FieldBuffer) (entries : List Entry) :
    entries.foldlM writeEntry sbuf = sbuf.putAll (entries.flatMap entryFields) := by
  induction entries generalizing sbuf with
  | nil => rfl
  | cons entry entries ih =>
      rw [List.foldlM_cons, writeEntry_eq, List.flatMap_cons]
      unfold FieldBuffer.putAll at ih ⊢
      rw [List.foldlM_append]
      simp only [ih]

theorem size_entries (entries : List Entry) :
    ((entries.flatMap entryFields).map FileField.size).sum = 16 * entries.length := by
  induction entries with
  | nil => rfl
  | cons entry entries ih =>
      rw [List.flatMap_cons, List.map_append, List.sum_append, ih, List.length_cons]
      show 16 + 16 * entries.length = 16 * (entries.length + 1)
      omega

/-- The entries read one after the other into the map. -/
def insertAll (stats : SchemaStats) (entries : List Entry) : SchemaStats :=
  entries.foldl (fun stats entry => ⟨stats.indexToCountAndBytes.insert entry.1 entry.2⟩) stats

/-- Reading undoes writing for indices of 32 bits. -/
theorem readEntries_eq (entries : List Entry) (hkeys : ∀ e ∈ entries, e.1 < 2 ^ 32)
    (rest : List FileField) (stats : SchemaStats) :
    readEntries entries.length ⟨entries.flatMap entryFields ++ rest⟩ stats =
      .ok (stats.insertAll entries, ⟨rest⟩) := by
  induction entries generalizing stats with
  | nil => rfl
  | cons entry entries ih =>
      have hindex : (BitVec.ofNat 32 entry.1).toNat = entry.1 := by
        rw [BitVec.toNat_ofNat, Nat.mod_eq_of_lt (hkeys entry List.mem_cons_self)]
      show readEntries entries.length ⟨entries.flatMap entryFields ++ rest⟩
        ⟨stats.indexToCountAndBytes.insert (BitVec.ofNat 32 entry.1).toNat entry.2⟩ = _
      rw [hindex, ih fun e he => hkeys e (List.mem_cons_of_mem _ he)]
      rfl

theorem lookup_insertAll (entries : List Entry) (hnodup : entries.NodupKeys)
    (stats : SchemaStats) (index : Nat) :
    (stats.insertAll entries).indexToCountAndBytes.lookup index =
      (entries.dlookup index).or (stats.indexToCountAndBytes.lookup index) := by
  induction entries generalizing stats with
  | nil => rfl
  | cons entry entries ih =>
      obtain ⟨hfresh, hnodup⟩ := List.nodupKeys_cons.mp hnodup
      show (SchemaStats.insertAll _ entries).indexToCountAndBytes.lookup index = _
      rw [ih hnodup]
      obtain ⟨key, value⟩ := entry
      by_cases hkey : index = key
      · subst hkey
        rw [List.dlookup_eq_none.mpr hfresh, List.dlookup_cons_eq, AList.lookup_insert]
        rfl
      · rw [List.dlookup_cons_ne _ _ hkey, AList.lookup_insert_ne hkey]

end SchemaStats

namespace MetaDataManager

open SchemaStats

/-- What `store` puts into the file. -/
def fileFields (walk : Enumeration) (meta_ : MetaDataManager) : List FileField :=
  .uint64 (BitVec.ofNat 64 meta_.nextBlockId) ::
    .uint32 (BitVec.ofNat 32 meta_.schemaStats.indexToCountAndBytes.entries.length) ::
    (walk.order meta_.schemaStats.indexToCountAndBytes.entries).flatMap entryFields

/-- `store` writes these fields or is refused. -/
theorem storeFile_eq (walk : Enumeration) (meta_ : MetaDataManager) :
    meta_.storeFile walk =
      if 12 + 16 * meta_.schemaStats.indexToCountAndBytes.entries.length ≤ 2 ^ 32 then
        .ok ⟨meta_.fileFields walk⟩
      else .error (.runtimeError "Buffer exceeds maximum size") := by
  have hfields : meta_.storeFile walk = FieldBuffer.new.putAll (meta_.fileFields walk) := by
    unfold storeFile SchemaStats.write fileFields
    simp only [writeEntries_eq]
    rfl
  have hsize : ((meta_.fileFields walk).map FileField.size).sum =
      12 + 16 * meta_.schemaStats.indexToCountAndBytes.entries.length := by
    rw [← (walk.perm _).length_eq]
    show 8 + (4 + ((List.flatMap entryFields _).map FileField.size).sum) = _
    rw [size_entries]
    omega
  rw [hfields, FieldBuffer.putAll_eq (by rw [FieldBuffer.size_new]; exact Nat.zero_le _),
    FieldBuffer.size_new, Nat.zero_add, hsize]
  rfl

/-- The indices are numbers of 32 bits. -/
def ShortIndices (meta_ : MetaDataManager) : Prop :=
  ∀ index ∈ meta_.schemaStats.indexToCountAndBytes, index < 2 ^ 32

/-- **What `store` wrote, `load` reads**: the id as a 64-bit number, and every count and sum. -/
theorem loadFile_storeFile {walk : Enumeration} {meta_ : MetaDataManager}
    (hindices : meta_.ShortIndices) {file : FieldBuffer}
    (hstore : meta_.storeFile walk = .ok file) :
    ∃ meta', loadFile file = .ok meta' ∧ meta'.nextBlockId = (load (some meta_.store)).nextBlockId ∧
      ∀ index, meta'.schemaStats.indexToCountAndBytes.lookup index =
        (load (some meta_.store)).schemaStats.indexToCountAndBytes.lookup index := by
  rw [storeFile_eq] at hstore
  split at hstore
  · rename_i hfit
    have hperm := walk.perm meta_.schemaStats.indexToCountAndBytes.entries
    have hnodup := meta_.schemaStats.indexToCountAndBytes.nodupKeys
    have hcount : (BitVec.ofNat 32
        meta_.schemaStats.indexToCountAndBytes.entries.length).toNat =
        (walk.order meta_.schemaStats.indexToCountAndBytes.entries).length := by
      rw [hperm.length_eq, BitVec.toNat_ofNat, Nat.mod_eq_of_lt (by omega)]
    have hkeys : ∀ e ∈ walk.order meta_.schemaStats.indexToCountAndBytes.entries,
        e.1 < 2 ^ 32 := by
      intro e he
      exact hindices e.1 (AList.mem_keys.mpr (List.mem_keys_of_mem (hperm.mem_iff.mp he)))
    have hread := readEntries_eq _ hkeys [] .new
    rw [List.append_nil] at hread
    refine ⟨⟨(BitVec.ofNat 64 meta_.nextBlockId).toNat, SchemaStats.new.insertAll
      (walk.order meta_.schemaStats.indexToCountAndBytes.entries)⟩, ?_, ?_, ?_⟩
    · rw [← Except.ok.inj hstore]
      show (readEntries (BitVec.ofNat 32
        meta_.schemaStats.indexToCountAndBytes.entries.length).toNat _ .new >>= fun r =>
          Except.ok (⟨_, r.1⟩ : MetaDataManager)) = _
      rw [hcount, hread]
      rfl
    · exact BitVec.toNat_ofNat _ _
    · intro index
      rw [lookup_insertAll _ ((List.perm_nodupKeys hperm).mpr hnodup),
        List.perm_dlookup index ((List.perm_nodupKeys hperm).mpr hnodup) hperm]
      exact Option.or_none
  · simp at hstore

/-! ### A run of calls and restarts -/

inductive Call where
  | incrCountAndBytes (index : BitVec 32) (bytes : ℚ)
  | newBlock
  | restart (walk : Enumeration)

/-- `store`, and on with a fresh object; when `store` throws, the object stays. -/
def restart (meta_ : MetaDataManager) (walk : Enumeration) : Except Fault MetaDataManager :=
  match meta_.storeFile walk with
  | .ok file => loadFile file
  | .error (.runtimeError _) => .ok meta_
  | .error fault => .error fault

def call (meta_ : MetaDataManager) : Call → Except Fault MetaDataManager
  | .incrCountAndBytes index bytes =>
      .ok { meta_ with
        schemaStats := meta_.schemaStats.incrCountAndBytes index.toNat bytes }
  | .newBlock => .ok { meta_ with nextBlockId := meta_.nextBlockId + 1 }
  | .restart walk => meta_.restart walk

def run (calls : List Call) : Except Fault MetaDataManager := calls.foldlM call (load none)

/-- The bytes passed for an index. -/
def passed (index : BitVec 32) (calls : List Call) : List ℚ :=
  calls.flatMap fun
    | .incrCountAndBytes i bytes => if i = index then [bytes] else []
    | .newBlock => []
    | .restart _ => []

/-- How many block ids were handed out. -/
def newBlocks (calls : List Call) : Nat :=
  calls.countP fun
    | .newBlock => true
    | .incrCountAndBytes _ _ => false
    | .restart _ => false

/-- What holds after these calls. -/
structure Tracks (calls : List Call) (meta_ : MetaDataManager) : Prop where
  ids : meta_.nextBlockId % 2 ^ 64 = newBlocks calls % 2 ^ 64
  short : meta_.ShortIndices
  sizes : ∀ index : BitVec 32, meta_.schemaStats.indexToCountAndBytes.lookup index.toNat =
    if passed index calls = [] then none
    else some (BitVec.ofNat 32 (passed index calls).length, (passed index calls).sum)

theorem tracks_new : Tracks [] (load none) :=
  ⟨rfl, fun _ h => absurd h (AList.notMem_empty _), fun _ => rfl⟩

theorem passed_append (index : BitVec 32) (calls : List Call) (c : Call) :
    passed index (calls ++ [c]) = passed index calls ++ passed index [c] :=
  List.flatMap_append

theorem newBlocks_append (calls : List Call) (c : Call) :
    newBlocks (calls ++ [c]) = newBlocks calls + newBlocks [c] :=
  List.countP_append

/-- A call that passes no bytes and keeps the sizes. -/
theorem Tracks.of_sizes {calls : List Call} {c : Call} {meta_ meta' : MetaDataManager}
    (h : Tracks calls meta_) (hpassed : ∀ index, passed index [c] = [])
    (hids : meta'.nextBlockId % 2 ^ 64 = newBlocks (calls ++ [c]) % 2 ^ 64)
    (hsizes : ∀ index, meta'.schemaStats.indexToCountAndBytes.lookup index =
      meta_.schemaStats.indexToCountAndBytes.lookup index) : Tracks (calls ++ [c]) meta' := by
  refine ⟨hids, ?_, ?_⟩
  · intro index hindex
    refine h.short index (AList.lookup_isSome.mp ?_)
    rw [← hsizes]
    exact AList.lookup_isSome.mpr hindex
  · intro index
    rw [hsizes, h.sizes, passed_append, hpassed, List.append_nil]

/-- One call. -/
theorem Tracks.call {calls : List Call} {meta_ : MetaDataManager} (h : Tracks calls meta_)
    (c : Call) : ∃ meta', meta_.call c = .ok meta' ∧ Tracks (calls ++ [c]) meta' := by
  cases c with
  | newBlock =>
      refine ⟨_, rfl, h.of_sizes (fun _ => rfl) ?_ fun _ => rfl⟩
      have hids := h.ids
      rw [newBlocks_append]
      show (meta_.nextBlockId + 1) % 2 ^ 64 = (newBlocks calls + 1) % 2 ^ 64
      omega
  | restart walk =>
      have hkept : newBlocks (calls ++ [.restart walk]) = newBlocks calls := newBlocks_append _ _
      cases hstore : meta_.storeFile walk with
      | ok file =>
          obtain ⟨meta', hload, hid, hsizes⟩ := loadFile_storeFile h.short hstore
          refine ⟨meta', ?_, h.of_sizes (fun _ => rfl) ?_ hsizes⟩
          · show meta_.restart walk = _
            unfold MetaDataManager.restart
            rw [hstore]
            exact hload
          · rw [hid, hkept, ← h.ids]
            exact Nat.mod_mod _ _
      | error fault =>
          have hfault : fault = .runtimeError "Buffer exceeds maximum size" := by
            rw [storeFile_eq] at hstore
            split at hstore
            · simp at hstore
            · exact (Except.error.inj hstore).symm
          refine ⟨meta_, ?_, h.of_sizes (fun _ => rfl) ?_ fun _ => rfl⟩
          · show meta_.restart walk = _
            unfold MetaDataManager.restart
            rw [hstore, hfault]
          · rw [hkept]
            exact h.ids
  | incrCountAndBytes i bytes =>
      refine ⟨_, rfl, ?_, ?_, ?_⟩
      · rw [newBlocks_append]
        exact h.ids
      · intro index hindex
        rcases (AList.mem_insert _).mp hindex with heq | hindex
        · rw [heq]
          exact i.isLt
        · exact h.short index hindex
      · intro index
        rw [passed_append]
        by_cases hi : i = index
        · subst hi
          have hlast : passed i [.incrCountAndBytes i bytes] = [bytes] := by simp [passed]
          rw [hlast, if_neg (by simp), List.length_append, List.sum_append]
          refine (AList.lookup_insert _).trans ?_
          rw [h.sizes]
          by_cases hnone : passed i calls = []
          · rw [if_pos hnone, hnone]
            simp
          · rw [if_neg hnone]
            simp [BitVec.ofNat_add]
        · have hlast : passed index [.incrCountAndBytes i bytes] = [] := by
            simp [passed, hi]
          rw [hlast, List.append_nil, ← h.sizes]
          refine AList.lookup_insert_ne ?_
          intro heq
          exact hi (BitVec.eq_of_toNat_eq heq.symm)

theorem run_tracks (calls : List Call) : ∃ meta_, run calls = .ok meta_ ∧ Tracks calls meta_ := by
  induction calls using List.reverseRecOn with
  | nil => exact ⟨_, rfl, tracks_new⟩
  | append_singleton calls c ih =>
      obtain ⟨meta_, hrun, htracks⟩ := ih
      obtain ⟨meta', hcall, htracks'⟩ := htracks.call c
      refine ⟨meta', ?_, htracks'⟩
      unfold run at hrun ⊢
      rw [List.foldlM_append, hrun]
      show (meta_.call c >>= fun m => .ok m) = .ok meta'
      rw [hcall]
      rfl

/-! ### The averages -/

/-- The run returns with the ids handed out and, for every index with a call, the average. -/
def Exact (calls : List Call) : Prop :=
  ∃ meta_, run calls = .ok meta_ ∧ meta_.blockId = Fin.ofNat (2 ^ 64) (newBlocks calls) ∧
    ∀ index, passed index calls ≠ [] → meta_.schemaStats.getAvgSize index.toNat =
      .ok ((passed index calls).sum / (passed index calls).length)

/-- The average is that of the calls as far as the count goes. -/
theorem Tracks.getAvgSize {calls : List Call} {meta_ : MetaDataManager} (h : Tracks calls meta_)
    {index : BitVec 32} (hcalls : passed index calls ≠ []) :
    meta_.schemaStats.getAvgSize index.toNat =
      .ok ((passed index calls).sum / ((passed index calls).length % 2 ^ 32 : Nat)) := by
  have hlookup := h.sizes index
  rw [if_neg hcalls] at hlookup
  unfold SchemaStats.getAvgSize
  rw [hlookup]
  have hcount : (BitVec.ofNat 32 (passed index calls).length).toNat =
      (passed index calls).length % 2 ^ 32 := BitVec.toNat_ofNat _ _
  simp only
  split
  · rename_i hzero
    rw [hzero] at hcount
    rw [← hcount]
    simp
  · rw [hcount]

/-- A quotient by a number with its upper bits cut off is the quotient when nothing is cut off,
or of zero. -/
theorem div_mod_eq_iff (n : Nat) (sum : ℚ) :
    sum / ((n % 2 ^ 32 : Nat) : ℚ) = sum / n ↔ n < 2 ^ 32 ∨ sum = 0 := by
  refine ⟨?_, ?_⟩
  · intro heq
    by_cases hsum : sum = 0
    · exact Or.inr hsum
    · refine Or.inl ?_
      rw [div_eq_mul_inv, div_eq_mul_inv] at heq
      have hcast := inv_injective (mul_left_cancel₀ hsum heq)
      have hmod : n % 2 ^ 32 = n := Nat.cast_injective hcast
      exact hmod ▸ Nat.mod_lt n (by decide)
  · rintro (hlt | hsum)
    · rw [Nat.mod_eq_of_lt hlt]
    · rw [hsum, zero_div, zero_div]

/-- **The averages are exact as long as no index has 2^32 calls, unless its bytes sum to zero.** -/
theorem averages_exact_iff (calls : List Call) :
    Exact calls ↔ ∀ index, (passed index calls).length < 2 ^ 32 ∨ (passed index calls).sum = 0 := by
  obtain ⟨meta_, hrun, htracks⟩ := run_tracks calls
  refine ⟨?_, ?_⟩
  · intro hexact index
    obtain ⟨meta₁, hrun₁, -, havg⟩ := hexact
    rw [hrun, Except.ok.injEq] at hrun₁
    by_cases hcalls : passed index calls = []
    · rw [hcalls]
      exact Or.inr List.sum_nil
    · have hsize := havg index hcalls
      rw [← hrun₁, htracks.getAvgSize hcalls, Except.ok.injEq] at hsize
      exact (div_mod_eq_iff _ _).mp hsize
  · intro hfew
    refine ⟨meta_, hrun, ?_, ?_⟩
    · exact Fin.ext htracks.ids
    · intro index hcalls
      rw [htracks.getAvgSize hcalls, (div_mod_eq_iff _ _).mpr (hfew index)]

/-- After 2^32 calls with one byte each the average is zero. -/
theorem not_exact_of_calls {n : Nat} (hn : n = 2 ^ 32) :
    ¬ Exact (List.replicate n (.incrCountAndBytes 0 1)) := by
  intro hexact
  obtain ⟨meta_, hrun, htracks⟩ := run_tracks (List.replicate n (.incrCountAndBytes 0 1))
  obtain ⟨meta₁, hrun₁, -, havg⟩ := hexact
  rw [hrun, Except.ok.injEq] at hrun₁
  have hpassed : passed 0 (List.replicate n (.incrCountAndBytes 0 1)) = List.replicate n 1 := by
    clear hn hrun htracks havg
    induction n with
    | zero => rfl
    | succ n ih =>
        rw [List.replicate_succ, List.replicate_succ, ← ih]
        rfl
  have hsum : (passed 0 (List.replicate n (.incrCountAndBytes 0 1))).sum = n := by
    rw [hpassed, List.sum_replicate, nsmul_eq_mul, mul_one]
  have hlength : (passed 0 (List.replicate n (.incrCountAndBytes 0 1))).length = n := by
    rw [hpassed, List.length_replicate]
  have hcalls : passed 0 (List.replicate n (.incrCountAndBytes 0 1)) ≠ [] := by
    intro hnil
    rw [hnil, List.length_nil] at hlength
    omega
  have hsize := havg 0 hcalls
  rw [← hrun₁, htracks.getAvgSize hcalls, Except.ok.injEq, div_mod_eq_iff, hsum, hlength] at hsize
  rcases hsize with hlt | hzero
  · omega
  · have : n = 0 := Nat.cast_eq_zero.mp hzero
    omega

theorem not_averages_exact : ¬ ∀ calls : List Call, Exact calls :=
  fun hall => not_exact_of_calls rfl (hall (List.replicate (2 ^ 32) (.incrCountAndBytes 0 1)))

end MetaDataManager

end RailwayDB
