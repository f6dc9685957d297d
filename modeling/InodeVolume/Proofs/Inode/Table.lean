import InodeVolume.Proofs.Inode.Store

namespace InodeVolume

open VolumeM

namespace Volume

variable {v : Volume} {i : Nat} {c : Inode}

theorem bytes_record (v : Volume) (i : Nat) : (v.record i).bytes = v.read (recordStart i) recordSize := by
  have hword : v.record i = .ofWords fun k =>
      LittleEndian.wordAt (fun a => v.byte (recordStart i + a)) (4 * k) := rfl
  rw [hword, Record.bytes_ofWords, Volume.read, List.range'_eq_map_range, List.map_map]
  rfl

theorem load?_slot (v : Volume) (i : Nat) :
    Record.load? (v.read (recordStart i) recordSize) = some (v.record i) := by
  rw [← bytes_record, ← List.append_nil (Record.bytes _), Record.load?_bytes_append]

theorem inode_congr {w : Volume} {j : Nat} (ht : w.inodeTaken = v.inodeTaken)
    (hr : w.record j = v.record j) : w.inode j = v.inode j := by
  rw [Volume.inode, Volume.inode, ht, hr]

-- `w` is `v` with this inode in the record of one link. The other records, the maps and the blocks of
-- files have not been touched.
structure Saves (v w : Volume) (link : Nat) (content : Inode) : Prop where
  slot   : (Record.ofInode content).storeInto (v.read (recordStart link) recordSize) =
    (.ok recordSize, w.read (recordStart link) recordSize)
  inode  : w.inode link = .ok content
  others : ∀ j ≠ link, w.inode j = v.inode j
  maps   : ∀ a < tableStart, w.byte a = v.byte a
  data   : ∀ a, dataStart ≤ a → w.byte a = v.byte a

theorem saves_store (ht : v.inodeTaken i) (hc : c.Storable) : v.Saves (v.store i c) i c := by
  have hi := lt_of_inodeTaken ht
  have hrecord : (v.store i c).record i = .ofInode c := by rw [record_store hi, Function.update_self]
  constructor
  case slot =>
    rw [Record.storeInto_of_le _ (by simp), ← bytes_record (v.store i c), hrecord,
      List.drop_of_length_le (by simp), List.append_nil]
  case inode =>
    rw [Volume.inode, inodeTaken_store, if_pos ht, hrecord, Record.inode_ofInode hc]
  case others =>
    exact fun j hj => inode_congr (inodeTaken_store v i c) (record_store_of_ne hj)
  case maps => exact fun a ha => byte_store_of_lt ha
  case data =>
    intro a ha
    rw [byte_store, if_neg (by unfold recordStart; lia)]

end Volume

namespace Record

-- Records are as wide as a slot of the table, and storing and loading one are inverse to each
-- other. So an inode that is put into the table is read from it again, and nothing else is another
-- one then.
theorem table_exact :
    (∀ raw : List UInt8, raw.length = recordSize →
      ∃ r, load? raw = some r ∧
        ∀ buffer, buffer.length = recordSize → r.storeInto buffer = (.ok recordSize, raw)) ∧
    (∀ (r : Record) (buffer : List UInt8), recordSize ≤ buffer.length →
      r.bytes.length = recordSize ∧
      r.storeInto buffer = (.ok recordSize, r.bytes ++ buffer.drop recordSize) ∧
      ∀ more, load? (r.bytes ++ more) = some r) ∧
    (∀ (r : Record) (buffer : List UInt8), buffer.length < recordSize →
      r.storeInto buffer = (.error (.tooShort buffer.length), buffer) ∧ load? buffer = none) ∧
    (∀ i : Inode, i.Storable → (ofInode i).inode = i) ∧
    (∀ (v : Volume) link, v.inodeTaken link →
      ∃ r, load? (v.read (Volume.recordStart link) recordSize) = some r ∧ v.inode link = .ok r.inode) ∧
    ∀ (v : Volume) link (i : Inode), v.inodeTaken link → i.Storable →
      ∃ w, Inode.put link i v = (.ok (), w) ∧ v.Saves w link i := by
  refine ⟨?raw, ?stored, ?short, fun _ => inode_ofInode, ?loaded, ?saved⟩
  case raw =>
    intro raw hraw
    have ⟨r, hr, hbytes⟩ := exists_load? hraw
    refine ⟨r, hr, fun buffer hb => ?_⟩
    rw [storeInto_of_le r (Nat.le_of_eq hb.symm), List.drop_of_length_le (Nat.le_of_eq hb), hbytes,
      List.append_nil]
  case stored =>
    exact fun r buffer hb => ⟨r.length_bytes, storeInto_of_le r hb, load?_bytes_append r⟩
  case short => exact fun r buffer hb => ⟨storeInto_of_lt r hb, if_pos hb⟩
  case loaded => exact fun v link ht => ⟨_, v.load?_slot link, if_pos ht⟩
  case saved =>
    intro v link i ht hi
    exact ⟨_, Inode.put_eq (Volume.lt_of_inodeTaken ht) i v, Volume.saves_store ht hi⟩

theorem table_exact_last :
    let i : Inode := ⟨0x7fffffff, 0xffffffff, 0x7fffffff, #v[some 0x7fffffff, none, some 0, none],
      some 0x7fffffff⟩
    let v := Volume.zero.setBit inodeMapStart 255 true
    ((List.replicate recordSize 0x80).length = recordSize ∧
      ∃ r, load? (.replicate recordSize 0x80) = some r ∧
        r.storeInto (.replicate recordSize 0) = (.ok recordSize, .replicate recordSize 0x80)) ∧
      (recordSize ≤ (List.replicate 40 0x80).length ∧
        (ofInode i).storeInto (.replicate 40 0x80) =
          (.ok recordSize, (ofInode i).bytes ++ .replicate 8 0x80)) ∧
      ((List.replicate 31 0x80).length < recordSize ∧ load? (.replicate 31 0x80) = none) ∧
      (i.Storable ∧ (ofInode i).inode = i) ∧
      v.inodeTaken 255 ∧
        ∃ w, Inode.put 255 i v = (.ok (), w) ∧ v.Saves w 255 i := by
  intro i v
  obtain ⟨hraw, hstored, hshort, hinode, _, hput⟩ := table_exact
  have hi : i.Storable := by
    refine ⟨by decide, by decide, fun s b h => ?_, by rintro _ ⟨⟩; decide⟩
    have hs := Inode.lt_of_slot h
    rw [Inode.slot_of_lt hs] at h
    match s, hs with
    | 0, _ | 2, _ => cases h; decide
    | 1, _ | 3, _ => cases h
  have ht : v.inodeTaken 255 := by
    rw [Volume.inodeTaken_setInodeBit .zero (by decide), Function.update_self]
  obtain ⟨r, hr, hback⟩ := hraw (.replicate recordSize 0x80) (by simp)
  exact ⟨⟨by simp, r, hr, hback _ (by simp)⟩, ⟨by decide, (hstored _ _ (by decide)).right.left⟩,
    ⟨by decide, (hshort (ofInode i) _ (by decide)).right⟩, ⟨hi, hinode i hi⟩, ht, hput v 255 i ht hi⟩

end Record
end InodeVolume
