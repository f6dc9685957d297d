import InodeVolume.Proofs.Tree.Failure
import InodeVolume.Proofs.Tree.Strays

namespace InodeVolume

open VolumeM Volume

variable {strays crooked : Prop} {files : Nat → Option FileState} {v w : Volume} {e : Fault}

namespace Volume.Holds

theorem freeBlocks_same (hv : v.Holds files) (hw : w.Holds files) : w.freeBlocks = v.freeBlocks := by
  have := hv.freeBlocks_add
  have := hw.freeBlocks_add
  omega

theorem freeInodes_same (hv : v.Holds files) (hw : w.Holds files) :
    w.freeInodes + w.trailing.card = v.freeInodes + v.trailing.card := by
  have := hv.freeInodes_add
  have := hw.freeInodes_add
  omega

theorem not_trails_of_brims (hv : v.Holds files) {h : Nat} (hb : v.Brims h) : ¬v.Trails h := by
  have ⟨f, hf⟩ := hv.head_iff.mp hb.left
  exact ((hv.brims_iff hf).mp hb).right.right

end Volume.Holds

namespace Tree

namespace Operation

variable {op : Operation} {k j : Nat}

theorem Strands.cases (h : op.Strands v k) :
    v.Brims k ∧ ∀ j, ¬op.Reclaims v j ∧ (op.Strands v j ↔ j = k) := by
  have hiff : ∀ {n : Nat} {p : Prop}, k = n ∧ p → ∀ j, j = n ∧ p ↔ j = k := by
    rintro _ _ ⟨rfl, hp⟩ j
    exact and_iff_left hp
  cases op
  case mknod | link | rename => exact ⟨h.left ▸ h.right.left, fun j => ⟨id, hiff h j⟩⟩
  case truncate node _ | write node _ _ =>
    cases node
    case inode =>
      exact ⟨h.left ▸ h.right.left, fun j => ⟨fun hr => hr.right h.right.right.left, hiff h j⟩⟩
    case path => exact h.elim
  all_goals exact h.elim

theorem Reclaims.unique (h : op.Reclaims v k) (h' : op.Reclaims v j) : k = j := by
  cases op
  case truncate node _ | write node _ _ =>
    cases node
    case inode => exact h.left.trans h'.left.symm
    case path  => exact h.elim
  all_goals exact h.elim

namespace Litters

theorem trailing_strands (l : op.Litters v (.errno .noSpace) w) (h : op.Strands v k) :
    w.trailing = insert k v.trailing := by
  ext j
  rw [Finset.mem_insert, mem_trailing, mem_trailing, l j]
  have ⟨hnot, hj⟩ := h.cases.right j
  simp [hnot, hj, or_comm]

theorem trailing_reclaims (l : op.Litters v (.errno .noSpace) w) (h : op.Reclaims v k) :
    w.trailing = v.trailing.erase k := by
  ext j
  rw [Finset.mem_erase, mem_trailing, mem_trailing, l j]
  have hj : op.Reclaims v j ↔ j = k := ⟨fun hj => hj.unique h, fun hj => hj ▸ h⟩
  have hnot : ¬op.Strands v j := fun hs => (hs.cases.right k).left h
  simp [hnot, hj, and_comm]

theorem freeInodes_iff (hv : v.Holds files) (hw : w.Holds files) (l : op.Litters v e w) :
    (w.freeInodes + 1 = v.freeInodes ↔ e = .errno .noSpace ∧ ∃ k, op.Strands v k) ∧
      (w.freeInodes = v.freeInodes + 1 ↔ e = .errno .noSpace ∧ ∃ k, op.Reclaims v k ∧ v.Trails k) ∧
      (w.freeInodes = v.freeInodes ↔ ¬(e = .errno .noSpace ∧
        ((∃ k, op.Strands v k) ∨ ∃ k, op.Reclaims v k ∧ v.Trails k))) := by
  have hsame := hv.freeInodes_same hw
  by_cases hs : e = .errno .noSpace ∧ ∃ k, op.Strands v k
  case pos =>
    have ⟨he, k, hk⟩ := hs
    subst he
    have ⟨hbrims, hkind⟩ := hk.cases
    have hout : k ∉ v.trailing := mt mem_trailing.mp (hv.not_trails_of_brims hbrims)
    rw [l.trailing_strands hk, Finset.card_insert_of_notMem hout] at hsame
    have hnot : ¬∃ j, op.Reclaims v j ∧ v.Trails j := fun ⟨j, hj, _⟩ => (hkind j).left hj
    exact ⟨iff_of_true (by omega) hs, iff_of_false (by omega) fun h => hnot h.right,
      iff_of_false (by omega) fun h => h ⟨rfl, .inl hs.right⟩⟩
  by_cases hr : e = .errno .noSpace ∧ ∃ k, op.Reclaims v k ∧ v.Trails k
  case pos =>
    have ⟨he, k, hk, ht⟩ := hr
    subst he
    have hcard := Finset.card_erase_add_one (mem_trailing.mpr ht)
    rw [l.trailing_reclaims hk] at hsame
    exact ⟨iff_of_false (by omega) hs, iff_of_true (by omega) hr,
      iff_of_false (by omega) fun h => h ⟨rfl, .inr hr.right⟩⟩
  have htrailing : w.trailing = v.trailing := by
    ext k
    rw [mem_trailing, mem_trailing, l k]
    refine (or_iff_left fun ⟨he, hk⟩ => hs ⟨he, k, hk⟩).trans (and_iff_left_of_imp ?_)
    exact fun ht ⟨he, hk⟩ => hr ⟨he, k, hk, ht⟩
  rw [htrailing] at hsame
  exact ⟨iff_of_false (by omega) hs, iff_of_false (by omega) hr,
    iff_of_true (by omega) fun ⟨he, h⟩ => h.elim (fun h => hs ⟨he, h⟩) fun h => hr ⟨he, h⟩⟩

end Litters

-- An operation takes an inode that nothing has any use for, if it fails for want of space.
def Wastes (op : Operation) (v : Volume) : Prop :=
  ∃ op' k, op.Means v op' ∧ op'.Strands v k

def Recovers (op : Operation) (v : Volume) : Prop :=
  ∃ op' k, op.Means v op' ∧ op'.Reclaims v k ∧ v.Trails k

end Operation

-- An operation that fails takes no space but for the one inode that may be wasted.
theorem Reachable.space_after_failure (r : Reachable v) {op : Operation} (ha : op.Admissible v)
    (h : op.perform v = (.error e, w)) :
    w.freeBlocks = v.freeBlocks ∧
      (w.freeInodes + 1 = v.freeInodes ↔ e = .errno .noSpace ∧ op.Wastes v) ∧
      (w.freeInodes = v.freeInodes + 1 ↔ e = .errno .noSpace ∧ op.Recovers v) ∧
      (w.usage = v.usage ↔ ¬(e = .errno .noSpace ∧ (op.Wastes v ∨ op.Recovers v))) := by
  have ⟨_, r⟩ := r
  have ⟨files, hv, s⟩ := r.settled
  have ⟨_, a, _⟩ := s
  have ⟨hw, _⟩ := op.perform_fails s hv ha h
  have hb := hv.freeBlocks_same hw
  have hu : w.usage = v.usage ↔ w.freeInodes = v.freeInodes := by
    simp [usage, hb]
  refine ⟨hb, ?_⟩
  rw [hu]
  cases op.means_cases a hv ha
  case inl hm =>
    have ⟨_, hp, _, hnone⟩ := hm
    obtain rfl := (Prod.mk.inj (h.symm.trans hp)).right
    have hnot : ¬op.Wastes w ∧ ¬op.Recovers w :=
      ⟨fun ⟨op', _, hm, _⟩ => hnone op' hm, fun ⟨op', _, hm, _⟩ => hnone op' hm⟩
    simp [hnot]
  case inr hm =>
    have ⟨op', hm, hl⟩ := hm
    rw [hm.perform_eq] at h
    have ⟨_, _, hlit⟩ := (hl.direct.perform_ensures s hv hl.admissible).of_error h
    have hwastes : op.Wastes v ↔ ∃ k, op'.Strands v k := by
      simp [Operation.Wastes, hm.iff_eq]
    have hrecovers : op.Recovers v ↔ ∃ k, op'.Reclaims v k ∧ v.Trails k := by
      simp [Operation.Recovers, hm.iff_eq]
    rw [hwastes, hrecovers]
    exact hlit.freeInodes_iff hv hw

variable {i size : Nat} {f : FileState}

theorem truncate_wastes (hv : v.Holds files) (hf : files i = some f) (hd : ¬f.isDir)
    (hs : v.Strands i 0 0) (hlt : f.bytes.length < size) (hsize : size < wordLimit) :
    ∃ w, (Operation.truncate (.inode i) size).perform v = (.error (.errno .noSpace), w) ∧
      w.Holds files ∧ w.freeInodes + 1 = v.freeInodes := by
  have h : (Operation.truncate (.inode i) size).perform.Ensures v (fun _ _ => False)
      (fun e w => e = .errno .noSpace ∧ w.Holds files ∧ w.freeInodes + 1 = v.freeInodes) := by
    rw [Operation.perform, Node.find, pure_bind, ensures_bind]
    apply (truncate_ensures hv (.inl ⟨f, hf⟩)).mono
    case ho =>
      -- its last block is full as well, so it would have taken another one
      rintro _ w ⟨g, hg, _, hw, _⟩
      obtain rfl := Option.some.inj (hf.symm.trans hg)
      have hfree := hv.freeBlocks_update hw (hv.lt hf)
      have := (hv.brims_iff hf).mp hs.left
      have := hs.right.left
      rw [hf, Option.elim_some, Option.elim_some, List.length_append, List.length_take,
        List.length_replicate, Nat.min_eq_right (Nat.le_of_lt hlt),
        Nat.add_sub_cancel' (Nat.le_of_lt hlt)] at hfree
      simp only [blocksFor, blockSize, inodeCapacity, slotsPerInode] at *
      omega
    case he =>
      rintro e w ⟨_, hw, hfoiled, hnone⟩
      obtain ⟨rfl, _⟩ := hnone f hf hd hsize
      refine ⟨rfl, hw, ?_⟩
      have hl : (Operation.truncate (.inode i) size).Litters v (.errno .noSpace) w :=
        .of_foiled hfoiled (fun _ => .rfl) fun _ => .rfl
      exact (hl.freeInodes_iff hv hw).left.mpr ⟨rfl, i, rfl, hs⟩
  rcases hr : (Operation.truncate (.inode i) size).perform v with ⟨e | _, w⟩
  case ok    => exact (h.of_ok hr).elim
  case error =>
    obtain ⟨rfl, hw, hfree⟩ := h.of_error hr
    exact ⟨w, rfl, hw, hfree⟩

section

variable {crooked : Prop} {owed : Nat → Int} {name : String} {mode : UInt32} {n : Nat}

def soleFiles (name : String) (mode : UInt32) : Nat → Option FileState :=
  Function.update (Function.update rootFiles rootInode
    (some (FileState.root.withEntries (Entries.insert FileState.root.entries ⟨name, some 1⟩)))) 1
    (some (.empty 1 Mode.regular mode))

theorem not_mem_root (hp : Proper name) (u : Nat) :
    (name, u) ∉ Entries.used FileState.root.entries := by
  have hne : name ≠ "." ∧ name ≠ ".." := hp
  simp [FileState.entries_root, Entries.used, Entry.naming, hne]

theorem length_root_insert :
    (FileState.root.withEntries
      (Entries.insert FileState.root.entries ⟨name, some 1⟩)).bytes.length = 3 * entrySize := by
  rw [FileState.withEntries, Entries.length_bytes, FileState.entries_root]
  rfl

theorem entries_root_insert (hfit : Entry.fits name) (hplain : Entry.Plain name) :
    (FileState.root.withEntries (Entries.insert FileState.root.entries ⟨name, some 1⟩)).entries =
      [⟨".", some rootInode⟩, ⟨"..", some rootInode⟩, ⟨name, some 1⟩] := by
  have hs : ∀ e ∈ Entries.insert FileState.root.entries ⟨name, some 1⟩, e.Storable := by
    intro e he
    rcases Entries.mem_insert he with he | rfl
    case inl => exact FileState.storable_root e (FileState.entries_root ▸ he)
    case inr => exact .used hfit hplain (by decide)
  rw [FileState.entries_withEntries hs, FileState.entries_root]
  rfl

theorem sparse_soleFiles : Sparse 2 (soleFiles name mode) := by
  refine ((sparse_rootFiles.mono (by decide)).update (by decide) ?_).update (by decide) (Nat.zero_le _)
  rw [length_root_insert]
  decide

theorem tally_soleFiles (cost : Nat → Nat) (f : FileState) :
    tally cost (Function.update (soleFiles name mode) 1 (some f)) =
      cost (3 * entrySize) + cost f.bytes.length := by
  rw [soleFiles, Function.update_idem, rootFiles, Function.update_idem,
    tally_insert cost (by decide) (Function.update_of_ne (by decide) ..),
    tally_insert cost (by decide) rfl, tally_none, length_root_insert, Nat.zero_add]

theorem place_root_ensures (a : Arranged crooked owed files) (p : Packed n files) (hn : n ≠ rootInode)
    (hlt : n + 1 + reservedBlocks < blockCount) (hroot : files rootInode = some f)
    (hlen : f.entries.length < blockSize / entrySize) (hfit : Entry.fits name)
    (hnew : ∀ u, (name, u) ∉ Entries.used f.entries)
    (hv : v.Holds (Function.update files n (some (.empty 0 Mode.regular mode)))) :
    (mknod.place rootInode name .regular n).Ensures v
      (fun _ w => ∃ files f, files n = some f ∧ f.refs = 0 ∧ w.Holds files) Never := by
  have ⟨_, hf, hd⟩ := a.exists_root
  obtain rfl := Option.some.inj (hroot.symm.trans hf)
  have hs : Sparse (n + 1) (Function.update files n (some (.empty 0 Mode.regular mode))) :=
    (p.append (Nat.zero_le _)).sparse
  rw [mknod.place, if_neg (by decide), ensures_discard, Directory.attach, ensures_bind]
  apply (Directory.add_sparse_ensures hv hs hlt ((Function.update_of_ne hn.symm ..).trans hroot)
    (a.lists hroot hd) hlen hfit hnew).mono_ok
  intro _ w hw
  have hone : Function.update (Function.update files n (some (.empty 0 Mode.regular mode))) rootInode
      (some (f.withEntries (Entries.insert f.entries ⟨name, some n⟩))) n =
      some (FileState.empty 0 Mode.regular mode) := by
    rw [Function.update_of_ne hn, Function.update_self]
  rw [ensures_bind, ensures_query_ok (hw.isDir hone), if_neg (FileState.not_isDir_empty 0 mode)]
  exact ⟨_, _, hone, rfl, hw⟩

theorem mknod_root_ensures (a : Arranged crooked owed files) (hv : v.Holds files) (p : Packed n files)
    (hlt : n + 1 + reservedBlocks < blockCount) (hroot : files rootInode = some f)
    (hlen : f.entries.length < blockSize / entrySize)
    (hnew : ∀ u, (name, u) ∉ Entries.used f.entries) (hp : Proper name) (h0 : name ≠ "")
    (hfit : Entry.fits name) (hk : NodeKind.ofMode mode = .regular) :
    (Operation.mknod rootInode name mode).perform.Ensures v
      (fun answer w => answer = .inode n ∧ w.Holds (Function.update (Function.update files rootInode
        (some (f.withEntries (Entries.insert f.entries ⟨name, some n⟩)))) n
        (some (.empty 1 Mode.regular mode)))) Never := by
  have ⟨_, hf, hd⟩ := a.exists_root
  obtain rfl := Option.some.inj (hroot.symm.trans hf)
  have hn : n ≠ rootInode := by
    rintro rfl
    exact absurd (p.sparse _ _ hroot).left (Nat.lt_irrefl _)
  have hbits : (NodeKind.ofMode mode).bits? = some Mode.regular := by rw [hk]; rfl
  have hlookup : lookup v rootInode name = .error (.errno .notFound) := by
    rw [a.lookup_eq hv hroot hd, Entries.find_eq_none.mpr hnew]
  have hnext : (mknod rootInode name mode).Ensures v (fun i _ => i = n) Never :=
    mknod_next_ensures hv p (by lia) hp h0 hbits hlookup fun _ hy => by
      rw [hk]
      exact place_root_ensures a p hn hlt hroot hlen hfit hnew hy
  have hmade : (mknod rootInode name mode).Ensures v
      (fun i w => ∃ files', Made files rootInode name mode 1 i files' ∧ w.Holds files')
      (fun _ _ => True) :=
    (mknod_any_ensures a hv (.inl ⟨_, hroot⟩) (by simp [hroot])).mono
      (fun _ _ h => h.right.right) fun _ _ _ => trivial
  rw [Operation.perform, ensures_bind]
  apply (hnext.and hmade).mono
  case he => exact fun _ _ h => h.left.elim
  rintro i w ⟨rfl, files', hm, hw⟩
  cases hm
  case directory hd _ _ _ _ _    => simp [hk] at hd
  case strayFile _ hnone _       => simp [hroot] at hnone
  case strayDirectory _ hnone _  => simp [hroot] at hnone
  case file g _ hg _ _ _ _ =>
    obtain rfl := Option.some.inj (hroot.symm.trans hg)
    exact ⟨rfl, hw⟩

theorem mknod_fresh (hp : Proper name) (h0 : name ≠ "") (hfit : Entry.fits name)
    (hk : NodeKind.ofMode mode = .regular) :
    let op := Operation.mknod rootInode name mode
    (op.perform fresh).1 = .ok (.inode 1) ∧ (op.perform fresh).2.Holds (soleFiles name mode) := by
  have ⟨_, a, _⟩ := settled_rootFiles
  have hlen : FileState.root.entries.length < blockSize / entrySize := by
    rw [FileState.entries_root]
    decide
  obtain ⟨_, _, hr, ha, hw⟩ := (mknod_root_ensures a holds_fresh packed_rootFiles (by decide)
    (Function.update_self ..) hlen (not_mem_root hp) hp h0 hfit hk).exists_ok
  intro op
  rw [hr, ha]
  exact ⟨rfl, hw⟩

theorem trailing_sole {f : FileState}
    (hv : v.Holds (Function.update (soleFiles name mode) 1 (some f))) : v.trailing ⊆ {1} := by
  intro k hk
  rw [mem_trailing] at hk
  rw [Finset.mem_singleton]
  by_contra hne
  have ⟨g, hg⟩ := hv.head_iff.mp hk.left
  have ⟨_, hlen⟩ := sparse_soleFiles k g ((Function.update_of_ne hne ..).symm.trans hg)
  exact hv.not_trails hg (Nat.lt_of_le_of_lt hlen (by decide)) hk

theorem isDir_sole {bytes : List UInt8} (hv : v.Holds (Function.update (soleFiles name mode) 1
    (some { FileState.empty 1 Mode.regular mode with bytes }))) : v.isDir 1 = .ok false :=
  (hv.regular_iff (Function.update_self ..)).mpr (FileState.not_isDir_empty 1 mode)

theorem fill_sole (hv : v.Holds (soleFiles name mode)) (hsize : size < wordLimit)
    (hb : blocksFor size + 1 + reservedBlocks ≤ blockCount) :
    let w := ((Operation.truncate (.inode 1) size).perform v).2
    ¬w.Trails 1 ∧ w.Holds (Function.update (soleFiles name mode) 1
      (some { FileState.empty 1 Mode.regular mode with bytes := .replicate size 0 })) := by
  have hf : soleFiles name mode 1 = some (.empty 1 Mode.regular mode) := Function.update_self ..
  have hd := FileState.not_isDir_empty 1 mode
  have h : (Operation.truncate (.inode 1) size).perform.Ensures v
      (fun _ w => ¬w.Trails 1 ∧ w.Holds (Function.update (soleFiles name mode) 1
        (some { FileState.empty 1 Mode.regular mode with bytes := .replicate size 0 }))) Never := by
    rw [Operation.perform, Node.find, pure_bind, ensures_bind]
    apply (truncate_ensures hv (.inl ⟨_, hf⟩)).mono
    case ho =>
      rintro _ w ⟨f, hf', _, hw, ht⟩
      obtain rfl := Option.some.inj (hf.symm.trans hf')
      have hempty := hv.not_trails hf (show 0 < inodeCapacity by decide)
      refine ⟨fun h => hempty (ht h).right, ?_⟩
      simpa [FileState.empty] using hw
    case he =>
      rintro e w ⟨_, _, _, hnone⟩
      obtain ⟨_, u, n, hfull, hlt, hu⟩ := hnone _ hf hd hsize
      have hlt : blocksFor n < blocksFor size := by simpa [FileState.length_empty] using hlt
      have hlen : ((FileState.empty 1 Mode.regular mode).bytes ++ List.replicate n 0).length = n := by
        simp [FileState.length_empty]
      have hblocks := hu.freeBlocks_add
      have hinodes := hu.freeInodes_add
      rw [tally_soleFiles, hlen] at hblocks hinodes
      have hroot : blocksFor (3 * entrySize) = 1 ∧ linksFor (3 * entrySize) = 1 := by decide
      have hcard := Finset.card_le_card (trailing_sole hu)
      obtain ⟨_, hs, _⟩ := hu
      rcases hfull with hfull | hfull
      case inl =>
        have := hs.crowded_iff.mp hfull
        omega
      case inr =>
        have := exhausted_iff.mp hfull
        have := linksFor_le n
        rw [Finset.card_singleton] at hcard
        lia
  exact h.volume (fun _ _ => id) fun _ _ => False.elim

theorem filled (size : Nat) (hmod : size % inodeCapacity = 0)
    (hb : blocksFor size + 1 + reservedBlocks = blockCount) :
    let v := ((Operation.truncate (.inode 1) size).perform
      ((Operation.mknod rootInode "a" 0o100644).perform fresh).2).2
    Reachable v ∧ v.Strands 1 0 0 ∧ v.freeInodes + (1 + linksFor size) = inodeCount ∧
      v.Holds (Function.update (soleFiles "a" 0o100644) 1
        (some { FileState.empty 1 Mode.regular 0o100644 with bytes := .replicate size 0 })) := by
  intro v
  have hm : (Operation.mknod rootInode "a" 0o100644).Admissible fresh :=
    Operation.admissible_fresh (by decide)
  have ⟨_, hv₁⟩ := mknod_fresh (show Proper "a" by decide) (by decide) (by decide)
    (show NodeKind.ofMode 0o100644 = .regular by decide)
  have hf₁ : soleFiles "a" 0o100644 1 = some (.empty 1 Mode.regular 0o100644) :=
    Function.update_self ..
  have ht : (Operation.truncate (.inode 1) size).Admissible
      ((Operation.mknod rootInode "a" 0o100644).perform fresh).2 :=
    (hv₁.head_iff.mpr ⟨_, hf₁⟩).right
  have hlt : size ≤ blocksFor size * blockSize := le_blocksFor_mul size
  have ⟨htrails, hv⟩ : ¬v.Trails 1 ∧ v.Holds _ := fill_sole hv₁ (by lia) (by omega)
  have hzero : v.trailing = ∅ := by
    refine Finset.eq_empty_of_forall_notMem fun k hk => htrails ?_
    obtain rfl := Finset.mem_singleton.mp (trailing_sole hv hk)
    exact mem_trailing.mp hk
  have hblocks := hv.freeBlocks_add
  have hinodes := hv.freeInodes_add
  have hroot : blocksFor (3 * entrySize) = 1 ∧ linksFor (3 * entrySize) = 1 := by decide
  rw [tally_soleFiles, List.length_replicate] at hblocks hinodes
  rw [hzero, Finset.card_empty] at hinodes
  refine ⟨((Run.fresh hm).step ht).reachable, ⟨?brims, by lia, ?inodes⟩, by lia, hv⟩
  case brims =>
    refine (hv.brims_iff (Function.update_self ..)).mpr ⟨?_, ?_, htrails⟩ <;>
      rw [List.length_replicate]
    case refine_1 =>
      rintro rfl
      exact absurd hb (by decide)
    case refine_2 => exact hmod
  case inodes =>
    have := linksFor_le size
    lia

theorem filled_regular (size : Nat) (hmod : size % inodeCapacity = 0)
    (hb : blocksFor size + 1 + reservedBlocks = blockCount) :
    let v := ((Operation.truncate (.inode 1) size).perform
      ((Operation.mknod rootInode "a" 0o100644).perform fresh).2).2
    Reachable v ∧ v.Head 1 ∧ v.isDir 1 = .ok false := by
  intro v
  have ⟨r, hs, _, hv⟩ : Reachable v ∧ v.Strands 1 0 0 ∧ _ ∧ v.Holds _ := filled size hmod hb
  exact ⟨r, hs.left.left, isDir_sole hv⟩

theorem filled_truncate (size : Nat) (hmod : size % inodeCapacity = 0)
    (hb : blocksFor size + 1 + reservedBlocks = blockCount) :
    let v := ((Operation.truncate (.inode 1) size).perform
      ((Operation.mknod rootInode "a" 0o100644).perform fresh).2).2
    let op := Operation.truncate (.inode 1) (size + 1)
    Reachable v ∧ op.Admissible v ∧ ∃ w, op.perform v = (.error (.errno .noSpace), w) ∧
      v.usage = ⟨blockCount, 0, inodeCount, inodeCount - (1 + linksFor size)⟩ ∧
      w.usage = ⟨blockCount, 0, inodeCount, inodeCount - (2 + linksFor size)⟩ := by
  intro v op
  have ⟨r, hs, hinodes, hv⟩ : Reachable v ∧ v.Strands 1 0 0 ∧
      v.freeInodes + (1 + linksFor size) = inodeCount ∧ v.Holds _ := filled size hmod hb
  have ha : op.Admissible v := hs.left.left.right
  have hlt : size ≤ blocksFor size * blockSize := le_blocksFor_mul size
  have hlen : (List.replicate size (0 : UInt8)).length < size + 1 := by
    rw [List.length_replicate]
    exact Nat.lt_succ_self size
  have ⟨w, hr, hw, hwaste⟩ := truncate_wastes hv (Function.update_self ..)
    (FileState.not_isDir_empty 1 0o100644) hs hlen (by lia)
  have hblocks := (hv.freeBlocks_same hw).trans hs.right.left
  refine ⟨r, ha, w, hr, ?_, ?_⟩ <;> rw [usage, Usage.mk.injEq]
  case refine_1 => exact ⟨rfl, hs.right.left, rfl, by lia⟩
  case refine_2 => exact ⟨rfl, hblocks, rfl, by lia⟩

end

theorem space_after_failure_truncate :
    let v := ((Operation.truncate (.inode 1) 1032192).perform
      ((Operation.mknod rootInode "a" 0o100644).perform fresh).2).2
    let op := Operation.truncate (.inode 1) 1032193
    ∃ e w, (Reachable v ∧ op.Admissible v ∧ op.perform v = (.error e, w)) ∧
      w.freeBlocks = v.freeBlocks ∧
      (w.freeInodes + 1 = v.freeInodes ↔ e = .errno .noSpace ∧ op.Wastes v) ∧
      (w.freeInodes = v.freeInodes + 1 ↔ e = .errno .noSpace ∧ op.Recovers v) ∧
      (w.usage = v.usage ↔ ¬(e = .errno .noSpace ∧ (op.Wastes v ∨ op.Recovers v))) := by
  intro v op
  have ⟨r, ha, w, hw, _⟩ := filled_truncate 1032192 (by decide) (by decide)
  exact ⟨_, w, ⟨r, ha, hw⟩, r.space_after_failure ha hw⟩

theorem inode_lost_truncate :
    let v := ((Operation.truncate (.inode 1) 1032192).perform
      ((Operation.mknod rootInode "a" 0o100644).perform fresh).2).2
    let op := Operation.truncate (.inode 1) 1032193
    Reachable v ∧ op.Admissible v ∧ ∃ w, op.perform v = (.error (.errno .noSpace), w) ∧
      v.usage = ⟨256, 0, 256, 192⟩ ∧ w.usage = ⟨256, 0, 256, 191⟩ :=
  filled_truncate 1032192 (by decide) (by decide)

end Tree
end InodeVolume
