/-
Attribute data on the wire.

The data of an edge is written as its values, without their indices, in the order
the writer's hash map has them, and read into a target in the order the target's
has them.  `write_ok` and `read_ok` are the two sides; a text comes back with its
length modulo 2^32.  `takes_back` is the converse of reading: what a reader accepted
are the bytes of the values it returned.  Together they say exactly when writing and
reading is the identity.
-/
import RailwayDB.Proofs.Codec
import Mathlib.Algebra.Order.BigOperators.Group.List

namespace RailwayDB.AttributeData

open NetworkByteBuffer

variable {schema : Schema}

/-! ### The fields as a map -/

/-- The indices, in order. -/
def keys (data : AttributeData schema) : List Nat := data.fields.map Prod.fst

theorem find?_eq_some {data : AttributeData schema} {i : Nat} {v : Value} :
    data.find? i = some v ↔ (i, v) ∈ data.fields := by
  obtain ⟨fields, hnodup⟩ := data
  show (fields.find? fun f => f.1 = i).map Prod.snd = some v ↔ (i, v) ∈ fields
  induction fields with
  | nil => simp
  | cons f fields ih =>
      rw [List.map_cons, List.nodup_cons] at hnodup
      rw [List.find?_cons]
      by_cases hf : f.1 = i
      · have hnot : (i, v) ∉ fields := by
          intro hmem
          exact hnodup.1 (hf ▸ List.mem_map_of_mem hmem)
        simp only [hf, decide_true, Option.map_some, Option.some.injEq, List.mem_cons, hnot,
          or_false]
        refine ⟨?_, ?_⟩
        · intro h
          rw [← h, ← hf]
        · intro h
          rw [← h]
      · have hne : (i, v) ≠ f := fun h => hf (by rw [← h])
        simp only [hf, decide_false, List.mem_cons, hne, false_or]
        exact ih hnodup.2

theorem find?_eq_none {data : AttributeData schema} {i : Nat} :
    data.find? i = none ↔ i ∉ data.keys := by
  unfold find? keys
  rw [Option.map_eq_none_iff, List.find?_eq_none, List.mem_map]
  refine ⟨?_, ?_⟩
  · rintro h ⟨f, hf, rfl⟩
    exact h f hf (by simp)
  · intro h f hf heq
    exact h ⟨f, hf, by simpa using heq⟩

/-- Data with the same indices in the same order and the same values is the same. -/
theorem ext_find? {a b : AttributeData schema} (hkeys : a.keys = b.keys)
    (h : ∀ i, a.find? i = b.find? i) : a = b := by
  apply ext
  refine List.ext_getElem ?_ ?_
  · have hlen := congrArg List.length hkeys
    simpa [keys] using hlen
  · intro n ha hb
    have hfst : (a.fields[n]).1 = (b.fields[n]).1 := by
      have hn := congrArg (fun l => l[n]?) hkeys
      simpa [keys, ha, hb] using hn
    have hfa := find?_eq_some.mpr (show ((a.fields[n]).1, (a.fields[n]).2) ∈ a.fields from
      List.getElem_mem ha)
    have hfb := find?_eq_some.mpr (show ((b.fields[n]).1, (b.fields[n]).2) ∈ b.fields from
      List.getElem_mem hb)
    rw [h, hfst, hfb] at hfa
    exact Prod.ext hfst (Option.some.inj hfa).symm

@[simp] theorem keys_assign (data : AttributeData schema) (i : Nat) (v : Value) :
    (data.assign i v).keys = data.keys := by
  unfold keys assign
  rw [List.map_map]
  refine List.map_congr_left ?_
  intro f _
  show (if f.1 = i then (i, v) else f).1 = f.1
  split_ifs with hf
  · exact hf.symm
  · rfl

theorem emplace_of_mem {data : AttributeData schema} {i : Nat} (h : i ∈ data.keys) (v : Value) :
    data.emplace i v = data := dif_pos h

theorem fields_emplace_of_notMem {data : AttributeData schema} {i : Nat} (h : i ∉ data.keys)
    (v : Value) : (data.emplace i v).fields = data.fields ++ [(i, v)] := by
  unfold emplace
  rw [dif_neg (show i ∉ data.fields.map Prod.fst from h)]

theorem keys_emplace (data : AttributeData schema) (i : Nat) (v : Value) :
    (data.emplace i v).keys = if i ∈ data.keys then data.keys else data.keys ++ [i] := by
  by_cases h : i ∈ data.keys
  · rw [emplace_of_mem h, if_pos h]
  · rw [if_neg h]
    show (data.emplace i v).fields.map Prod.fst = _
    rw [fields_emplace_of_notMem h, List.map_append]
    rfl

theorem mem_keys_emplace (data : AttributeData schema) (i : Nat) (v : Value) :
    i ∈ (data.emplace i v).keys := by
  rw [keys_emplace]
  split_ifs with h
  · exact h
  · simp

theorem keys_setAttribute {data : AttributeData schema} {i : Nat} (h : i ∈ data.keys) (v : Value) :
    (data.setAttribute i v).keys = data.keys := by
  unfold setAttribute
  rw [keys_assign, emplace_of_mem h]

theorem find?_setAttribute (data : AttributeData schema) (i j : Nat) (v : Value) :
    (data.setAttribute i v).find? j = if j = i then some v else data.find? j := by
  have hassign : ∀ d : AttributeData schema, i ∈ d.keys →
      (d.assign i v).find? j = if j = i then some v else d.find? j := by
    intro d hd
    apply Option.ext
    intro w
    rw [find?_eq_some]
    show (j, w) ∈ d.fields.map (fun f => if f.1 = i then (i, v) else f) ↔ _
    rw [List.mem_map]
    by_cases hj : j = i
    · rw [if_pos hj, Option.some.injEq]
      refine ⟨?_, ?_⟩
      · rintro ⟨f, hf, heq⟩
        by_cases hfi : f.1 = i
        · rw [if_pos hfi] at heq
          exact (congrArg Prod.snd heq)
        · rw [if_neg hfi] at heq
          rw [heq] at hfi
          exact absurd hj hfi
      · intro hv
        obtain ⟨f, hf, hfi⟩ := List.mem_map.mp hd
        exact ⟨f, hf, by rw [if_pos hfi, hj, hv]⟩
    · rw [if_neg hj, find?_eq_some]
      refine ⟨?_, ?_⟩
      · rintro ⟨f, hf, heq⟩
        by_cases hfi : f.1 = i
        · rw [if_pos hfi] at heq
          exact absurd (congrArg Prod.fst heq).symm hj
        · rw [if_neg hfi] at heq
          rw [← heq]
          exact hf
      · intro hmem
        exact ⟨(j, w), hmem, by rw [if_neg hj]⟩
  unfold setAttribute
  rw [hassign _ (mem_keys_emplace data i v)]
  by_cases hj : j = i
  · rw [if_pos hj, if_pos hj]
  · rw [if_neg hj, if_neg hj]
    by_cases hi : i ∈ data.keys
    · rw [emplace_of_mem hi]
    · apply Option.ext
      intro w
      rw [find?_eq_some, find?_eq_some,
        fields_emplace_of_notMem hi, List.mem_append]
      simp [hj]

@[simp] theorem keys_setAttributes (data other : AttributeData schema) :
    (data.setAttributes other).keys = data.keys := by
  unfold keys setAttributes
  rw [List.map_map]
  rfl

theorem find?_setAttributes (data other : AttributeData schema) (i : Nat) :
    (data.setAttributes other).find? i = (data.find? i).map fun v => (other.find? i).getD v := by
  apply Option.ext
  intro w
  rw [find?_eq_some, Option.map_eq_some_iff]
  show (i, w) ∈ data.fields.map (fun f => (f.1, (other.find? f.1).getD f.2)) ↔ _
  rw [List.mem_map]
  refine ⟨?_, ?_⟩
  · rintro ⟨f, hf, heq⟩
    obtain ⟨hi, hw⟩ := Prod.mk.inj heq
    rw [hi] at hw
    exact ⟨f.2, find?_eq_some.mpr (by rw [← hi]; exact hf), hw⟩
  · rintro ⟨v, hv, hw⟩
    exact ⟨(i, v), find?_eq_some.mp hv, by rw [← hw]⟩

/-! ### Writing -/

/-- Every value has the type its attribute has in the schema. -/
def Typed (data : AttributeData schema) : Prop :=
  ∀ f ∈ data.fields, schema.typeAt f.1 = some f.2.type

instance (data : AttributeData schema) : Decidable data.Typed :=
  inferInstanceAs (Decidable (∀ f ∈ data.fields, _))

/-- No text has 2^32 bytes or more. -/
def Short (data : AttributeData schema) : Prop := ∀ f ∈ data.fields, f.2.Short

/-- The bytes of the values, in order. -/
def bytes (data : AttributeData schema) : List Byte := data.fields.flatMap fun f => f.2.bytes

theorem getTyped_ok {f : Nat × Value} (h : schema.typeAt f.1 = some f.2.type) :
    getTyped schema f = .ok f.2 := by
  simp [getTyped, typeOf, h]

theorem write_ok {data : AttributeData schema} (htyped : data.Typed) {sb : NetworkByteBuffer}
    {old : List Byte} (h : Written old sb) :
    WithinLimit (old ++ data.bytes).length (Written (old ++ data.bytes)) (data.write sb) := by
  refine Written.foldlM data.fields ?_ h
  intro f hf sb old hsb
  unfold writeField
  rw [getTyped_ok (htyped f hf), Except.ok_bind]
  exact Value.written_write f.2 hsb

/-! ### Reading -/

/-- The values, one after the other, assigned to their indices. -/
def assignAll (data : AttributeData schema) (fields : List (Nat × Value)) : AttributeData schema :=
  fields.foldl (fun data f => data.setAttribute f.1 f.2) data

theorem keys_assignAll {data : AttributeData schema} {fields : List (Nat × Value)}
    (h : ∀ f ∈ fields, f.1 ∈ data.keys) : (data.assignAll fields).keys = data.keys := by
  induction fields generalizing data with
  | nil => rfl
  | cons f fields ih =>
      have hkeys := keys_setAttribute (h f List.mem_cons_self) f.2
      have hmem : ∀ g ∈ fields, g.1 ∈ (data.setAttribute f.1 f.2).keys := by
        intro g hg
        rw [hkeys]
        exact h g (List.mem_cons_of_mem _ hg)
      have hrest := ih hmem
      rw [hkeys] at hrest
      exact hrest

theorem find?_assignAll {data : AttributeData schema} {fields : List (Nat × Value)}
    (hnodup : (fields.map Prod.fst).Nodup) {i : Nat} {v : Value} (h : (i, v) ∈ fields) :
    (data.assignAll fields).find? i = some v := by
  have hafter : ∀ (d : AttributeData schema) (fs : List (Nat × Value)), i ∉ fs.map Prod.fst →
      (d.assignAll fs).find? i = d.find? i := by
    intro d fs hi
    induction fs generalizing d with
    | nil => rfl
    | cons f fs ih =>
        rw [List.map_cons, List.mem_cons, not_or] at hi
        show ((d.setAttribute f.1 f.2).assignAll fs).find? i = _
        rw [ih _ hi.2, find?_setAttribute, if_neg hi.1]
  induction fields generalizing data with
  | nil => simp at h
  | cons f fields ih =>
      rw [List.map_cons, List.nodup_cons] at hnodup
      show ((data.setAttribute f.1 f.2).assignAll fields).find? i = some v
      rcases List.mem_cons.mp h with heq | hmem
      · rw [← heq] at hnodup ⊢
        rw [hafter _ _ hnodup.1, find?_setAttribute, if_pos rfl]
      · exact ih hnodup.2 hmem

/-- Data with all its indices assigned anew. -/
theorem fields_assignAll {data : AttributeData schema} {fields : List (Nat × Value)}
    (hkeys : fields.map Prod.fst = data.keys) : (data.assignAll fields).fields = fields := by
  have hnodup : (fields.map Prod.fst).Nodup := by
    rw [hkeys]
    exact data.nodup
  have hres : data.assignAll fields = ⟨fields, hnodup⟩ := by
    refine ext_find? ?_ ?_
    · rw [keys_assignAll, ← hkeys]
      · rfl
      · intro f hf
        rw [← hkeys]
        exact List.mem_map_of_mem hf
    · intro i
      cases hfind : (⟨fields, hnodup⟩ : AttributeData schema).find? i with
      | some v => exact find?_assignAll hnodup (find?_eq_some.mp hfind)
      | none =>
          rw [find?_eq_none] at hfind ⊢
          rw [keys_assignAll]
          · rw [← hkeys]
            exact hfind
          · intro f hf
            rw [← hkeys]
            exact List.mem_map_of_mem hf
  rw [hres]

theorem reads_fields {fs ps : List (Nat × Value)} (hkeys : ps.map Prod.fst = fs.map Prod.fst)
    (htyped : ∀ p ∈ ps, schema.typeAt p.1 = some p.2.type) (data : AttributeData schema) :
    Reads (readFields fs data) (ps.flatMap fun p => p.2.bytes)
      (data.assignAll (ps.map fun p => (p.1, p.2.wire))) := by
  induction fs generalizing ps data with
  | nil =>
      have hnil : ps = [] := by simpa using hkeys
      subst hnil
      exact Reads.pure
  | cons f fs ih =>
      cases ps with
      | nil => simp at hkeys
      | cons p ps =>
          rw [List.map_cons, List.map_cons, List.cons.injEq] at hkeys
          have htype : schema.typeAt f.1 = some p.2.type := by
            rw [← hkeys.1]
            exact htyped p List.mem_cons_self
          have hrest := ih hkeys.2 (fun q hq => htyped q (List.mem_cons_of_mem _ hq))
            (data.setAttribute f.1 p.2.wire)
          intro sb rest hu
          have hread := (Value.reads_read p.2).bind
            (f := fun v sb => readFields fs (data.setAttribute f.1 v) sb) hrest
          obtain ⟨hok, hunread⟩ := hread sb rest hu
          refine ⟨?_, hunread⟩
          simp only [readFields, typeOf, htype, Except.ok_bind]
          rw [List.map_cons, ← hkeys.1] at *
          exact hok

/-- **Reading.**  Into a target with the same indices in the same order go the values written. -/
theorem read_ok {data target : AttributeData schema} (htyped : data.Typed)
    (hkeys : target.keys = data.keys) :
    Reads (fun sb => read sb target) data.bytes
      (target.assignAll (data.fields.map fun f => (f.1, f.2.wire))) :=
  reads_fields hkeys.symm htyped target

/-! ### The converse -/

/-- A reader accepted some bytes: they are those of what it returned. -/
theorem takes_back_raw {sb sb' : NetworkByteBuffer} {w n : Nat} {rest : List Byte}
    (hu : Unread sb rest) (h : sb.getRaw w = .ok (n, sb')) :
    ∃ rest', rest = Bytes.bigEndian w n ++ rest' ∧ Unread sb' rest' ∧ n < 256 ^ w := by
  unfold getRaw at h
  obtain ⟨⟨bs, sb₁⟩, hread, heq⟩ := Except.map_eq_ok.mp h
  unfold NetworkByteBuffer.read at hread
  by_cases hfit : sb.ocursor + w ≤ sb.size
  · rw [if_pos hfit, Except.ok.injEq, Prod.mk.injEq] at hread
    obtain ⟨hbs, hsb⟩ := hread
    obtain ⟨hn, hsb'⟩ := Prod.mk.inj heq
    simp only at hn hsb'
    rw [hu.bytes] at hbs
    have hlen : bs.length = w := by
      have hl := congrArg List.length hu.bytes
      rw [List.length_drop] at hl
      rw [← hbs, List.length_take]
      unfold size at hfit
      omega
    have hval : Bytes.bigEndian w n = bs := by
      unfold Bytes.bigEndian
      rw [← hn, networkToHost, hostToNetwork, ← hlen, ← List.length_reverse,
        Bytes.littleEndian_ofLittleEndian, List.reverse_reverse]
    refine ⟨rest.drop w, ?_, ⟨?_, ?_⟩, ?_⟩
    · rw [hval, ← hbs, List.take_append_drop]
    · rw [← hsb', ← hsb]
      exact hfit
    · rw [← hsb', ← hsb]
      show sb.buf.drop (sb.ocursor + w) = rest.drop w
      rw [← hu.bytes, List.drop_drop]
    · have hlt := Bytes.ofLittleEndian_lt bs.reverse
      rw [List.length_reverse, hlen] at hlt
      rw [← hn]
      exact hlt
  · rw [if_neg hfit] at hread
    simp at hread

theorem takes_back_bits {sb sb' : NetworkByteBuffer} {k w : Nat} {i : BitVec k} {rest : List Byte}
    (hk : 2 ^ k = 256 ^ w) (hu : Unread sb rest)
    (h : ((sb.getRaw w).map fun r => (BitVec.ofNat k r.1, r.2)) = .ok (i, sb')) :
    ∃ rest', rest = Bytes.bigEndian w i.toNat ++ rest' ∧ Unread sb' rest' := by
  obtain ⟨⟨n, sb₁⟩, hraw, heq⟩ := Except.map_eq_ok.mp h
  obtain ⟨hi, hsb⟩ := Prod.mk.inj heq
  simp only at hi hsb
  subst hsb
  obtain ⟨rest', hrest, hunread, hlt⟩ := takes_back_raw hu hraw
  refine ⟨rest', ?_, hunread⟩
  rw [← hi, BitVec.toNat_ofNat, Nat.mod_eq_of_lt (hk ▸ hlt)]
  exact hrest

theorem takes_back_text {sb sb' : NetworkByteBuffer} {s : Text} {rest : List Byte}
    (hu : Unread sb rest) (h : sb.getSTLString = .ok (s, sb')) :
    ∃ rest', rest = textBytes s ++ rest' ∧ Unread sb' rest' ∧ s.length < 2 ^ 32 := by
  unfold getSTLString at h
  obtain ⟨⟨stlen, sb₁⟩, hlen, hread⟩ := Except.bind_eq_ok.mp h
  obtain ⟨rest₁, hrest₁, hu₁⟩ := takes_back_bits (by decide) hu hlen
  have hbound : stlen.toNat < 2 ^ 32 := stlen.isLt
  simp only at hread
  by_cases hpos : 0 < stlen.toNat
  · rw [if_pos hpos] at hread
    unfold NetworkByteBuffer.read at hread
    by_cases hfit : sb₁.ocursor + stlen.toNat ≤ sb₁.size
    · rw [if_pos hfit, Except.ok.injEq, Prod.mk.injEq] at hread
      obtain ⟨hs, hsb⟩ := hread
      rw [hu₁.bytes] at hs
      have hslen : s.length = stlen.toNat := by
        have hl := congrArg List.length hu₁.bytes
        rw [List.length_drop] at hl
        rw [← hs, List.length_take]
        unfold size at hfit
        omega
      refine ⟨rest₁.drop stlen.toNat, ?_, ⟨?_, ?_⟩, by omega⟩
      · have hwire : wireText s = s := wireText_eq_self.mpr (by omega)
        unfold textBytes
        rw [hwire, hslen, Nat.mod_eq_of_lt hbound, hrest₁, List.append_assoc, ← hs,
          List.take_append_drop]
      · rw [← hsb]
        exact hfit
      · rw [← hsb]
        show sb₁.buf.drop (sb₁.ocursor + stlen.toNat) = rest₁.drop stlen.toNat
        rw [← hu₁.bytes, List.drop_drop]
    · rw [if_neg hfit] at hread
      simp at hread
  · rw [if_neg hpos, Except.ok.injEq, Prod.mk.injEq] at hread
    obtain ⟨hs, hsb⟩ := hread
    have hzero : stlen.toNat = 0 := by omega
    refine ⟨rest₁, ?_, ?_, ?_⟩
    · rw [hrest₁, hzero, ← hs]
      rfl
    · rw [← hsb]
      exact hu₁
    · rw [← hs]
      simp

theorem takes_back_value {sb sb' : NetworkByteBuffer} {t : DataType} {v : Value}
    {rest : List Byte} (hu : Unread sb rest) (h : Value.read sb t = .ok (v, sb')) :
    ∃ rest', rest = v.bytes ++ rest' ∧ Unread sb' rest' ∧ v.Short := by
  cases t with
  | int64 =>
      obtain ⟨⟨i, sb₁⟩, hget, heq⟩ := Except.map_eq_ok.mp h
      obtain ⟨hv, hsb⟩ := Prod.mk.inj heq
      simp only at hv hsb
      subst hv hsb
      obtain ⟨rest', hrest, hunread⟩ := takes_back_bits (by decide) hu hget
      exact ⟨rest', hrest, hunread, trivial⟩
  | double =>
      obtain ⟨⟨i, sb₁⟩, hget, heq⟩ := Except.map_eq_ok.mp h
      obtain ⟨hv, hsb⟩ := Prod.mk.inj heq
      simp only at hv hsb
      subst hv hsb
      obtain ⟨rest', hrest, hunread⟩ := takes_back_bits (by decide) hu hget
      exact ⟨rest', hrest, hunread, trivial⟩
  | string =>
      obtain ⟨⟨s, sb₁⟩, hget, heq⟩ := Except.map_eq_ok.mp h
      obtain ⟨hv, hsb⟩ := Prod.mk.inj heq
      simp only at hv hsb
      subst hv hsb
      exact takes_back_text hu hget

/-- **Reading, backwards.**  The values a target was given are those whose bytes were read. -/
theorem takes_back {fs : List (Nat × Value)} {data r : AttributeData schema}
    {sb sb' : NetworkByteBuffer} {rest : List Byte} (hu : Unread sb rest)
    (h : readFields fs data sb = .ok (r, sb')) :
    ∃ ps rest', ps.map Prod.fst = fs.map Prod.fst ∧ (∀ p ∈ ps, p.2.Short) ∧
      rest = (ps.flatMap fun p => p.2.bytes) ++ rest' ∧ r = data.assignAll ps := by
  induction fs generalizing data sb rest with
  | nil =>
      simp only [readFields, Except.ok.injEq, Prod.mk.injEq] at h
      exact ⟨[], rest, rfl, by simp, rfl, h.1.symm⟩
  | cons f fs ih =>
      unfold readFields at h
      obtain ⟨t, ht, h⟩ := Except.bind_eq_ok.mp h
      obtain ⟨⟨v, sb₁⟩, hv, h⟩ := Except.bind_eq_ok.mp h
      obtain ⟨rest₁, hrest₁, hu₁, hshort⟩ := takes_back_value hu hv
      obtain ⟨ps, rest', hkeys, hall, hrest, hr⟩ := ih hu₁ h
      refine ⟨(f.1, v) :: ps, rest', ?_, ?_, ?_, hr⟩
      · rw [List.map_cons, List.map_cons, hkeys]
      · intro p hp
        rcases List.mem_cons.mp hp with heq | hp
        · rw [heq]
          exact hshort
        · exact hall p hp
      · rw [List.flatMap_cons, List.append_assoc, ← hrest]
        exact hrest₁

/-! ### Two orders -/

/-- Equal values have the same type, and a text is equal to itself only. -/
theorem equals_type {v w : Value} (h : v.equals w = true) :
    v.type = w.type ∧ v.serializedSize = w.serializedSize ∧ (v.Short ↔ w.Short) := by
  cases v with
  | int64 i =>
      cases w with
      | int64 j => exact ⟨rfl, rfl, Iff.rfl⟩
      | double e => simp [Value.equals] at h
      | string t => simp [Value.equals] at h
  | double d =>
      cases w with
      | int64 j => simp [Value.equals] at h
      | double e => exact ⟨rfl, rfl, Iff.rfl⟩
      | string t => simp [Value.equals] at h
  | string s =>
      cases w with
      | int64 j => simp [Value.equals] at h
      | double e => simp [Value.equals] at h
      | string t =>
          have hst : s = t := by simpa [Value.equals] using h
          rw [hst]
          exact ⟨rfl, rfl, Iff.rfl⟩

/-- Equal objects have the same indices, and equal values at each. -/
theorem equals_iff {a b : AttributeData schema} :
    a.equals b = true ↔ a.fields.length = b.fields.length ∧
      ∀ f ∈ a.fields, ∃ w, (f.1, w) ∈ b.fields ∧ f.2.equals w = true := by
  unfold equals
  rw [Bool.and_eq_true, decide_eq_true_iff, List.all_eq_true]
  refine and_congr_right fun _ => forall₂_congr fun f _ => ?_
  cases hfind : b.find? f.1 with
  | none =>
      simp only [Bool.false_eq_true, false_iff, not_exists, not_and]
      intro w hw
      rw [find?_eq_some.mpr hw] at hfind
      cases hfind
  | some v =>
      have hv := find?_eq_some.mp hfind
      refine ⟨fun h => ⟨v, hv, h⟩, ?_⟩
      rintro ⟨w, hw, h⟩
      rw [find?_eq_some.mpr hw, Option.some.injEq] at hfind
      rw [← hfind]
      exact h

theorem short_of_size {data : AttributeData schema}
    (h : getSerializedSizeOf data ≤ 2 ^ 32) : data.Short := by
  intro f hf
  have hle : f.2.serializedSize ≤ getSerializedSizeOf data :=
    List.le_sum_of_mem (List.mem_map_of_mem hf)
  cases hv : f.2 with
  | int64 i => trivial
  | double d => trivial
  | string s =>
      rw [hv] at hle
      have hsize : 4 + s.length ≤ getSerializedSizeOf data := hle
      show s.length < 2 ^ 32
      omega

theorem length_bytes {data : AttributeData schema} (h : data.Short) :
    data.bytes.length = getSerializedSizeOf data := by
  show (data.fields.flatMap fun f => f.2.bytes).length
    = (data.fields.map fun f => f.2.serializedSize).sum
  rw [List.length_flatMap]
  congr 1
  refine List.map_congr_left ?_
  intro f hf
  exact Value.length_bytes (h f hf)

/-- Equal objects take the same number of bytes. -/
theorem equals_size {a b : AttributeData schema} (h : a.equals b = true)
    (hperm : a.keys.Perm b.keys) : getSerializedSizeOf a = getSerializedSizeOf b := by
  have hsum : ∀ d : AttributeData schema,
      (∀ f ∈ d.fields, ((b.find? f.1).map Value.serializedSize).getD 0 = f.2.serializedSize) →
      getSerializedSizeOf d
        = (d.keys.map fun i => ((b.find? i).map Value.serializedSize).getD 0).sum := by
    intro d hd
    show (d.fields.map fun f => f.2.serializedSize).sum = _
    unfold keys
    rw [List.map_map]
    congr 1
    refine List.map_congr_left ?_
    intro f hf
    exact (hd f hf).symm
  have hb := hsum b fun f hf => by
    rw [find?_eq_some.mpr (show (f.1, f.2) ∈ b.fields from hf)]
    rfl
  have ha := hsum a fun f hf => by
    obtain ⟨w, hw, heq⟩ := (equals_iff.mp h).2 f hf
    rw [find?_eq_some.mpr hw, (equals_type heq).2.1]
    rfl
  rw [ha, hb]
  exact (hperm.map _).sum_eq

theorem equals_short {a b : AttributeData schema} (h : a.equals b = true)
    (hperm : a.keys.Perm b.keys) : a.Short ↔ b.Short := by
  refine ⟨?_, ?_⟩
  · intro ha f hf
    have hkey : f.1 ∈ a.keys := hperm.mem_iff.mpr (List.mem_map_of_mem hf)
    obtain ⟨e, he, hef⟩ := List.mem_map.mp hkey
    obtain ⟨w, hw, heq⟩ := (equals_iff.mp h).2 e he
    rw [hef] at hw
    have hfw : some f.2 = some w := by
      rw [← find?_eq_some.mpr hw, find?_eq_some.mpr (show (f.1, f.2) ∈ b.fields from hf)]
    rw [Option.some.inj hfw]
    exact (equals_type heq).2.2.mp (ha e he)
  · intro hb f hf
    obtain ⟨w, hw, heq⟩ := (equals_iff.mp h).2 f hf
    exact (equals_type heq).2.2.mpr (hb _ hw)

/-- Writing one object and reading the bytes into another makes the other equal to it. -/
def Copies (data target : AttributeData schema) : Prop :=
  ∃ sb r, data.write NetworkByteBuffer.new = .ok sb ∧
    read (NetworkByteBuffer.ofBytes sb.contents) target = .ok r ∧ r.1.equals data = true

/-- Writing data and reading it into an object over the same attributes gives equal data exactly
when it fits into a buffer and data equal to it has the same bytes in the other object's order. -/
theorem copies_iff_other (data target : AttributeData schema) (htyped : data.Typed)
    (hperm : target.keys.Perm data.keys) :
    Copies data target ↔ getSerializedSizeOf data ≤ 2 ^ 32 ∧
      ∃ other : AttributeData schema, other.keys = target.keys ∧ other.equals data = true ∧
        other.bytes = data.bytes := by
  have hwrite := write_ok htyped written_new
  rw [List.nil_append] at hwrite
  refine ⟨?_, ?_⟩
  · rintro ⟨sb, ⟨r, sb'⟩, hsb, hread, hequals⟩
    have hcont : sb.contents = data.bytes ∧ data.bytes.length ≤ 2 ^ 32 := by
      by_cases hfit : data.bytes.length ≤ 2 ^ 32
      · obtain ⟨sb', hsb', hw⟩ := hwrite.1 hfit
        rw [hsb, Except.ok.injEq] at hsb'
        rw [hsb']
        exact ⟨hw.contents, hfit⟩
      · rw [hwrite.2 (Nat.lt_of_not_le hfit)] at hsb
        simp at hsb
    rw [hcont.1] at hread
    obtain ⟨ps, rest, hkeys, hshort, hbytes, hr⟩ := takes_back (unread_ofBytes _) hread
    have hfields : r.fields = ps := by
      rw [hr]
      exact fields_assignAll hkeys
    have hrkeys : r.keys = target.keys := by
      unfold keys
      rw [hfields, hkeys]
    have hrshort : r.Short := by
      unfold Short
      rw [hfields]
      exact hshort
    have hpermr : r.keys.Perm data.keys := hrkeys ▸ hperm
    have hdshort := (equals_short hequals hpermr).mp hrshort
    have hsize := equals_size hequals hpermr
    rw [← length_bytes hrshort, ← length_bytes hdshort] at hsize
    -- All of the bytes were read, since equal data takes as many.
    have hrbytes : data.bytes = r.bytes ++ rest := by
      rw [hbytes, ← hfields]
      rfl
    have hrest : rest = [] := by
      have hlen := congrArg List.length hrbytes
      rw [List.length_append] at hlen
      exact List.length_eq_zero_iff.mp (by omega)
    refine ⟨?_, r, hrkeys, hequals, ?_⟩
    · rw [← length_bytes hdshort]
      exact hcont.2
    · rw [hrbytes, hrest, List.append_nil]
  · rintro ⟨hsize, other, hkeys, hequals, hbytes⟩
    have hdshort := short_of_size hsize
    have hpermo : other.keys.Perm data.keys := hkeys ▸ hperm
    have hoshort := (equals_short hequals hpermo).mpr hdshort
    have hotyped : other.Typed := by
      intro f hf
      obtain ⟨w, hw, heq⟩ := (equals_iff.mp hequals).2 f hf
      rw [(equals_type heq).1]
      exact htyped _ hw
    obtain ⟨sb, hsb, hw⟩ := hwrite.1 (by rw [length_bytes hdshort]; exact hsize)
    have hwire : (other.fields.map fun p => (p.1, p.2.wire)) = other.fields := by
      have hid : (other.fields.map fun p => (p.1, p.2.wire)) = other.fields.map id := by
        refine List.map_congr_left ?_
        intro p hp
        rw [Value.wire_eq_self.mpr (hoshort p hp)]
        rfl
      rw [hid, List.map_id]
    have hread := reads_fields hkeys hotyped target
    rw [hwire] at hread
    have hunread : Unread (ofBytes data.bytes) (other.bytes ++ []) := by
      rw [List.append_nil, hbytes]
      exact unread_ofBytes _
    obtain ⟨hok, -⟩ := hread _ _ hunread
    refine ⟨sb, _, hsb, by rw [hw.contents]; exact hok, ?_⟩
    have hother : target.assignAll other.fields = other := ext (fields_assignAll hkeys)
    rw [hother]
    exact hequals

/-! ### The values in another order -/

/-- These are the bytes of a value, up to the sign of a zero.  A NaN is not equal to what is read
of its bytes. -/
def ReadsAs : Value → List Byte → Prop
  | .double d, bs => Value.isNaN d = false ∧ (bs = Value.bytes (.double d) ∨
      Value.magnitude d = 0 ∧
        (bs = Value.bytes (.double 0) ∨ bs = Value.bytes (.double (BitVec.ofNat 64 (2 ^ 63)))))
  | .int64 i, bs => bs = Value.bytes (.int64 i)
  | .string s, bs => bs = Value.bytes (.string s)

instance : ∀ (v : Value) (bs : List Byte), Decidable (ReadsAs v bs)
  | .double _, _ => inferInstanceAs (Decidable (_ ∧ (_ ∨ _ ∧ (_ ∨ _))))
  | .int64 _, _ => inferInstanceAs (Decidable (_ = _))
  | .string _, _ => inferInstanceAs (Decidable (_ = _))

/-- The bytes, cut at the sizes of the values, are those of the values. -/
def Spell : List Value → List Byte → Prop
  | [], bs => bs = []
  | v :: vs, bs => ReadsAs v (bs.take v.serializedSize) ∧ Spell vs (bs.drop v.serializedSize)

instance decidableSpell : ∀ (vs : List Value) (bs : List Byte), Decidable (Spell vs bs)
  | [], bs => inferInstanceAs (Decidable (bs = []))
  | v :: vs, bs =>
      have := decidableSpell vs (bs.drop v.serializedSize)
      inferInstanceAs (Decidable (_ ∧ _))

/-- The values of some indices, in their order. -/
def listed (data : AttributeData schema) (order : List Nat) : List Value :=
  order.filterMap data.find?

theorem magnitude_eq_zero {d : BitVec 64} :
    Value.magnitude d = 0 ↔ d = 0 ∨ d = BitVec.ofNat 64 (2 ^ 63) := by
  unfold Value.magnitude
  bv_omega

theorem isNaN_of_zero {d : BitVec 64} (h : Value.magnitude d = 0) : Value.isNaN d = false := by
  unfold Value.isNaN
  rw [h]
  rfl

/-- A value reads as some bytes exactly when they are those of an equal value. -/
theorem readsAs_iff {v : Value} {bs : List Byte} :
    ReadsAs v bs ↔ ∃ w : Value, w.equals v = true ∧ w.bytes = bs := by
  cases v with
  | int64 i =>
      refine ⟨fun h => ⟨.int64 i, by simp [Value.equals], Eq.symm h⟩, ?_⟩
      rintro ⟨w, heq, hbytes⟩
      cases w with
      | int64 j =>
          have hij : j = i := by simpa [Value.equals] using heq
          rw [← hbytes, hij]
          rfl
      | double d => simp [Value.equals] at heq
      | string t => simp [Value.equals] at heq
  | string s =>
      refine ⟨fun h => ⟨.string s, by simp [Value.equals], Eq.symm h⟩, ?_⟩
      rintro ⟨w, heq, hbytes⟩
      cases w with
      | int64 j => simp [Value.equals] at heq
      | double d => simp [Value.equals] at heq
      | string t =>
          have hst : t = s := by simpa [Value.equals] using heq
          rw [← hbytes, hst]
          rfl
  | double d =>
      refine ⟨?_, ?_⟩
      · intro h
        have hzeros : ∀ e, Value.magnitude d = 0 → Value.magnitude e = 0 →
            (Value.double e).equals (.double d) = true := by
          intro e hd he
          simp only [Value.equals, isNaN_of_zero hd, isNaN_of_zero he, hd, he]
          simp
        obtain ⟨hnan, hsame | ⟨hzero, hpos | hneg⟩⟩ := h
        · exact ⟨.double d, by simp [Value.equals, hnan], hsame.symm⟩
        · exact ⟨_, hzeros 0 hzero rfl, hpos.symm⟩
        · exact ⟨_, hzeros _ hzero (magnitude_eq_zero.mpr (Or.inr rfl)), hneg.symm⟩
      · rintro ⟨w, heq, hbytes⟩
        cases w with
        | int64 j => simp [Value.equals] at heq
        | string t => simp [Value.equals] at heq
        | double e =>
            simp only [Value.equals, Bool.and_eq_true, Bool.or_eq_true, Bool.not_eq_true',
              decide_eq_true_eq] at heq
            obtain ⟨⟨-, hnan⟩, hsame | ⟨he, hd⟩⟩ := heq
            · exact ⟨hnan, Or.inl (by rw [← hbytes, hsame])⟩
            · refine ⟨hnan, Or.inr ⟨hd, ?_⟩⟩
              rw [← hbytes]
              exact (magnitude_eq_zero.mp he).imp (fun h => by rw [h]) fun h => by rw [h]

/-- The induction is on the order: each value takes the bytes in front. -/
theorem spell_iff {data : AttributeData schema} (hshort : data.Short) {order : List Nat}
    (horder : ∀ i ∈ order, i ∈ data.keys) {bs : List Byte} :
    Spell (data.listed order) bs ↔ ∃ fs : List (Nat × Value), fs.map Prod.fst = order ∧
      (∀ f ∈ fs, ∃ v, (f.1, v) ∈ data.fields ∧ f.2.equals v = true) ∧
      (fs.flatMap fun f => f.2.bytes) = bs := by
  induction order generalizing bs with
  | nil =>
      refine ⟨fun h => ⟨[], rfl, fun _ hf => (List.not_mem_nil hf).elim, Eq.symm h⟩, ?_⟩
      rintro ⟨fs, hfs, -, hbytes⟩
      rw [List.map_eq_nil_iff] at hfs
      rw [← hbytes, hfs]
      rfl
  | cons i order ih =>
      obtain ⟨⟨i, v⟩, hv, rfl⟩ := List.mem_map.mp (horder i List.mem_cons_self)
      have hrest := @ih (fun j hj => horder j (List.mem_cons_of_mem _ hj)) (bs.drop v.serializedSize)
      have hlisted : data.listed (i :: order) = v :: data.listed order := by
        unfold listed
        rw [List.filterMap_cons_some (find?_eq_some.mpr hv)]
      have hlen : ∀ w : Value, w.equals v = true → w.bytes.length = v.serializedSize := by
        intro w hw
        obtain ⟨-, hsize, hiff⟩ := equals_type hw
        rw [Value.length_bytes (hiff.mpr (hshort _ hv)), hsize]
      rw [hlisted, Spell, readsAs_iff, hrest]
      refine ⟨?_, ?_⟩
      · rintro ⟨⟨w, hw, htake⟩, fs, hfs, hequal, hdrop⟩
        refine ⟨(i, w) :: fs, by rw [List.map_cons, hfs], ?_, ?_⟩
        · intro f hf
          rcases List.mem_cons.mp hf with rfl | hf
          · exact ⟨v, hv, hw⟩
          · exact hequal f hf
        · rw [List.flatMap_cons, htake, hdrop, List.take_append_drop]
      · rintro ⟨fs, hfs, hequal, hbytes⟩
        cases fs with
        | nil => cases hfs
        | cons f fs =>
            obtain ⟨hfi, hfs⟩ := List.cons.inj hfs
            obtain ⟨v', hv', hw⟩ := hequal f List.mem_cons_self
            rw [hfi] at hv'
            have hvv : v' = v := by
              have hsome := (find?_eq_some.mpr hv').symm.trans (find?_eq_some.mpr hv)
              exact Option.some.inj hsome
            rw [hvv] at hw
            rw [List.flatMap_cons] at hbytes
            refine ⟨⟨f.2, hw, ?_⟩, fs, hfs, fun g hg => hequal g (List.mem_cons_of_mem _ hg), ?_⟩
            · rw [← hbytes, ← hlen _ hw, List.take_left]
            · rw [← hbytes, ← hlen _ hw, List.drop_left]

/-- **When the order does not matter.**  Writing data and reading it into an object over the same
attributes gives equal data exactly when it fits into a buffer and its bytes, cut at the sizes its
values have in the other object's order, are those of the values in that order. -/
theorem copies_iff (data target : AttributeData schema) (htyped : data.Typed)
    (hperm : target.keys.Perm data.keys) :
    Copies data target ↔ getSerializedSizeOf data ≤ 2 ^ 32 ∧
      Spell (data.listed target.keys) data.bytes := by
  rw [copies_iff_other data target htyped hperm]
  refine and_congr_right fun hsize => ?_
  rw [spell_iff (short_of_size hsize) fun i hi => hperm.mem_iff.mp hi]
  refine ⟨?_, ?_⟩
  · rintro ⟨other, hkeys, hequals, hbytes⟩
    exact ⟨other.fields, hkeys, (equals_iff.mp hequals).2, hbytes⟩
  · rintro ⟨fs, hkeys, hequal, hbytes⟩
    have hnodup : (fs.map Prod.fst).Nodup := by
      rw [hkeys]
      exact target.nodup
    refine ⟨⟨fs, hnodup⟩, hkeys, equals_iff.mpr ⟨?_, hequal⟩, hbytes⟩
    have hlen := hperm.length_eq
    rw [← hkeys] at hlen
    simpa [keys] using hlen

/-- Two whole numbers that are the same and a text between them. -/
def mixedSchema : Schema := ⟨[⟨[97], .int64⟩, ⟨[98], .string⟩, ⟨[99], .int64⟩]⟩

def mixedData : AttributeData mixedSchema :=
  ⟨[(0, .int64 7), (2, .int64 7), (1, .string [120, 121])], by decide⟩

/-- An object whose hash map has the two numbers the other way round. -/
def mixedTarget : AttributeData mixedSchema :=
  ⟨[(2, .int64 0), (0, .int64 0), (1, .string [])], by decide⟩

/-- Into an object with another order the data goes back as it was: the values that change places
have the same bytes. -/
theorem copies_iff_mixed : Copies mixedData mixedTarget :=
  (copies_iff mixedData mixedTarget (by decide) (by decide)).mpr (by decide)

/-- With the text in front they do not. -/
example : ¬ Spell (mixedData.listed [1, 0, 2]) mixedData.bytes := by decide

/-- Two whole numbers. -/
def pairSchema : Schema := ⟨[⟨[97], .int64⟩, ⟨[98], .int64⟩]⟩

/-- The first attribute is one, the second two. -/
def pairData : AttributeData pairSchema := ⟨[(0, .int64 1), (1, .int64 2)], by decide⟩

/-- An object whose hash map has the second attribute first. -/
def pairTarget : AttributeData pairSchema := ⟨[(1, .int64 0), (0, .int64 0)], by decide⟩

/-- Into an object with the other order the two values go the wrong way round. -/
theorem write_read_swaps_values :
    pairData.Typed ∧ pairTarget.keys.Perm pairData.keys ∧
      (∃ sb r, pairData.write NetworkByteBuffer.new = .ok sb ∧
        read (NetworkByteBuffer.ofBytes sb.contents) pairTarget = .ok r ∧
        r.1.find? 0 = some (.int64 2) ∧ r.1.find? 1 = some (.int64 1)) ∧
      ¬ Copies pairData pairTarget := by
  have heval : ((pairData.write NetworkByteBuffer.new >>= fun sb =>
      (read (NetworkByteBuffer.ofBytes sb.contents) pairTarget).map fun r => (sb, r)).toOption.map
        fun p => (p.2.1.find? 0, p.2.1.find? 1)) = some (some (.int64 2), some (.int64 1)) := by
    decide +kernel
  obtain ⟨⟨sb, r⟩, hp, hfound⟩ := Except.of_toOption_map heval
  obtain ⟨sb', hsb, hmap⟩ := Except.bind_eq_ok.mp hp
  obtain ⟨r', hr, heq⟩ := Except.map_eq_ok.mp hmap
  obtain ⟨rfl, rfl⟩ := Prod.mk.inj heq
  obtain ⟨hzero, hone⟩ := Prod.mk.inj hfound
  refine ⟨by decide, by decide, ⟨sb', r', hsb, hr, hzero, hone⟩, ?_⟩
  rintro ⟨sb₁, r₁, hsb₁, hr₁, hsame⟩
  rw [hsb, Except.ok.injEq] at hsb₁
  rw [← hsb₁, hr, Except.ok.injEq] at hr₁
  rw [← hr₁] at hsame
  have hmem : (0, Value.int64 2) ∈ r'.1.fields := find?_eq_some.mp hzero
  obtain ⟨w, hw, heq⟩ := (equals_iff.mp hsame).2 _ hmem
  have hone : w = .int64 1 := by simpa [pairData] using hw
  rw [hone] at heq
  exact absurd heq (by decide)

end RailwayDB.AttributeData
