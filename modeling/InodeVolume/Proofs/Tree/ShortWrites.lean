import InodeVolume.Proofs.Tree.Truncation
import InodeVolume.Proofs.Tree.Writing

namespace InodeVolume

open VolumeM Volume

theorem Volume.Grants.refuses_iff {v : Volume} {h size goal offset k n : Nat}
    (hg : v.Grants h size goal k) (ha : ¬v.Affords h goal) (hn : offset + n = max offset (size + k)) :
    (∀ m, n < m → offset + m ≤ goal → ¬v.Affords h (offset + m)) ↔
      ∀ p, offset ≤ p → ¬v.Wasted h p := by
  constructor
  case mp =>
    intro hm p hp hw
    obtain ⟨m, rfl⟩ := Nat.exists_eq_add_of_le hp
    have ⟨hm', hle⟩ := (hg.most ha (offset + m)).mpr hw
    refine hm (m + 1) (by omega) ?_ hm'
    by_contra hlt
    exact ha (hm'.mono (by omega))
  case mpr =>
    intro hp m hlt _ hm
    obtain ⟨m, rfl⟩ : ∃ p, m = p + 1 := Nat.exists_eq_succ_of_ne_zero (by omega)
    exact hp (offset + m) (Nat.le_add_right ..) ((hg.most ha _).mp ⟨hm, by omega⟩)

namespace Tree

-- If less is written than there is, and also if nothing is, then no more of it can be written alone.
def Thorough (v : Volume) (i offset : Nat) (data : List UInt8) : Prop :=
  ∀ m ≤ data.length,
    (∀ n w, write i offset data v = (.ok n, w) → n < m →
      (write i offset (data.take m) v).1 ≠ .ok m) ∧
    (∀ w, write i offset data v = (.error (.errno .noSpace), w) → 0 < m →
      (write i offset (data.take m) v).1 ≠ .ok m)

variable {files : Nat → Option FileState} {v : Volume} {i offset : Nat} {f : FileState}
variable {data : List UInt8}

theorem write_all_iff (hv : v.Holds files) (hf : files i = some f) (hd : ¬f.isDir) (hdata : data ≠ [])
    (hlim : offset + data.length < wordLimit) :
    (write i offset data v).1 = .ok data.length ↔ v.Affords i (offset + data.length) := by
  have h : (write i offset data).Ensures v _ _ := write_overlay_ensures hv hf hd hdata
  rcases hr : write i offset data v with ⟨e | n, w⟩
  case error =>
    obtain ⟨hbig, _⟩ | ⟨_, _, ha, _⟩ := h.of_error hr
    case inl => omega
    case inr => exact iff_of_false nofun ha
  case ok =>
    have ⟨_, _, _, hn, _⟩ := h.of_ok hr
    rw [← hn, Except.ok.injEq]

theorem write_part_iff (hv : v.Holds files) (hf : files i = some f) (hd : ¬f.isDir)
    (hlim : offset + data.length < wordLimit) {m : Nat} (h0 : 0 < m) (hm : m ≤ data.length) :
    (write i offset (data.take m) v).1 = .ok m ↔ v.Affords i (offset + m) := by
  have hlen : (data.take m).length = m := List.length_take_of_le hm
  have hne : data.take m ≠ [] := List.length_pos_iff.mp (hlen.symm ▸ h0)
  have h : (write i offset (data.take m) v).1 = .ok (data.take m).length ↔ _ :=
    write_all_iff hv hf hd hne (by omega)
  rwa [hlen] at h

def Stops (v : Volume) (i offset : Nat) (data : List UInt8) (n : Nat) : Prop :=
  0 < n ∧ (write i offset data v).1 = .ok n ∨
    n = 0 ∧ (write i offset data v).1 = .error (.errno .noSpace)

theorem Stops.thorough_iff {n : Nat} (h : Stops v i offset data n) :
    Thorough v i offset data ↔
      ∀ m ≤ data.length, n < m → (write i offset (data.take m) v).1 ≠ .ok m := by
  rcases hw : write i offset data v with ⟨r, w⟩
  rw [Stops, hw] at h
  obtain ⟨_, rfl⟩ | ⟨rfl, rfl⟩ := h <;> simp [Thorough, hw]

theorem exists_stops (hv : v.Holds files) (hf : files i = some f) (hd : ¬f.isDir) (hdata : data ≠ [])
    (hlim : offset + data.length < wordLimit) (ha : ¬v.Affords i (offset + data.length)) :
    ∃ k n, v.Grants i f.bytes.length (offset + data.length) k ∧
      offset + n = max offset (f.bytes.length + k) ∧ Stops v i offset data n := by
  have h : (write i offset data).Ensures v _ _ := write_file_ensures hv hf hd hdata
  rcases hr : write i offset data v with ⟨e | n, w⟩
  case error =>
    obtain ⟨hbig, _⟩ | ⟨_, rfl, ⟨k, hg, _, hle⟩, _⟩ := h.of_error hr
    case inl => omega
    case inr => exact ⟨k, 0, hg, by omega, .inr ⟨rfl, congrArg _ hr⟩⟩
  case ok =>
    obtain ⟨_, k, hg, hroom, hn, _⟩ := h.of_ok hr
    have hlt := mt hg.whole.mp ha
    rw [clip, Nat.min_eq_right (by omega)] at hn
    exact ⟨k, n, hg, by omega, .inl ⟨by omega, congrArg _ hr⟩⟩

theorem thorough_of_affords (hv : v.Holds files) (hf : files i = some f) (hd : ¬f.isDir)
    (hdata : data ≠ []) (hlim : offset + data.length < wordLimit)
    (ha : v.Affords i (offset + data.length)) : Thorough v i offset data := by
  have hall := (write_all_iff hv hf hd hdata hlim).mpr ha
  refine fun m hm => ⟨fun n w hr hlt => ?_, fun w hr => ?_⟩ <;> rw [hr] at hall
  case refine_1 => exact absurd (Except.ok.inj hall) (by omega)
  case refine_2 => contradiction

theorem thorough_iff (hv : v.Holds files) (hf : files i = some f) (hd : ¬f.isDir) (hdata : data ≠ [])
    (hlim : offset + data.length < wordLimit) :
    Thorough v i offset data ↔
      v.Affords i (offset + data.length) ∨ ∀ p, offset ≤ p → ¬v.Wasted i p := by
  by_cases ha : v.Affords i (offset + data.length)
  case pos => exact iff_of_true (thorough_of_affords hv hf hd hdata hlim ha) (.inl ha)
  case neg =>
    have ⟨k, n, hg, hn, hstops⟩ := exists_stops hv hf hd hdata hlim ha
    rw [hstops.thorough_iff, or_iff_right ha, ← hg.refuses_iff ha hn]
    refine forall_congr' fun m => ⟨fun h hlt hle => ?_, fun h hm hlt => ?_⟩
    case refine_1 =>
      have hm := Nat.le_of_add_le_add_left hle
      exact mt (write_part_iff hv hf hd hlim (by omega) hm).mpr (h hm hlt)
    case refine_2 =>
      exact mt (write_part_iff hv hf hd hlim (by omega) hm).mp (h hlt (Nat.add_le_add_left hm _))

theorem write_wasted (hv : v.Holds files) (hf : files i = some f) (hd : ¬f.isDir) (hdata : data ≠ [])
    (hlim : offset + data.length < wordLimit) (ha : ¬v.Affords i (offset + data.length))
    (hw : v.Wasted i offset) : (write i offset data v).1 = .error (.errno .noSpace) := by
  have ⟨k, n, hg, hn, hstops⟩ := exists_stops hv hf hd hdata hlim ha
  have hle := ((hg.most ha offset).mpr hw).right
  obtain ⟨hpos, _⟩ | ⟨_, h⟩ := hstops
  case inl => omega
  case inr => exact h

-- Of what is written short, or refused, less could be written just if it ended in wasted room.
theorem Reachable.thorough_unless_wasted (r : Reachable v) (hh : v.Head i)
    (hd : v.isDir i = .ok false) (hdata : data ≠ []) (hlim : offset + data.length < wordLimit) :
    Thorough v i offset data ↔
      v.Affords i (offset + data.length) ∨ ∀ p, offset ≤ p → ¬v.Wasted i p :=
  have ⟨_, _, hv, hf, hd⟩ := r.exists_regular hh hd
  thorough_iff hv hf hd hdata hlim

theorem thorough_unless_wasted_filled :
    let v := ((Operation.truncate (.inode 1) 1032192).perform
      ((Operation.mknod rootInode "a" 0o100644).perform fresh).2).2
    (Reachable v ∧ v.Head 1 ∧ v.isDir 1 = .ok false ∧ [1, 2, 3] ≠ ([] : List UInt8) ∧
      1032190 + [1, 2, 3].length < wordLimit) ∧
      (Thorough v 1 1032190 [1, 2, 3] ↔
        v.Affords 1 (1032190 + [1, 2, 3].length) ∨ ∀ p, 1032190 ≤ p → ¬v.Wasted 1 p) := by
  intro v
  have hv : Reachable v ∧ v.Head 1 ∧ v.isDir 1 = .ok false :=
    filled_regular 1032192 (by decide) (by decide)
  clear_value v
  have ⟨r, hh, hd⟩ := hv
  have hdata : [1, 2, 3] ≠ ([] : List UInt8) := by decide
  have hlim : 1032190 + [1, 2, 3].length < wordLimit := by decide
  exact ⟨⟨r, hh, hd, hdata, hlim⟩, r.thorough_unless_wasted hh hd hdata hlim⟩

def blankFile (size : Nat) : FileState :=
  { FileState.empty 1 Mode.regular 0o100644 with bytes := .replicate size 0 }

def pairFiles (f g : FileState) : Nat → Option FileState :=
  Function.update (Function.update (Function.update (fun _ => none) rootInode
    (some (.withEntries .root
      [⟨".", some rootInode⟩, ⟨"..", some rootInode⟩, ⟨"a", some 1⟩, ⟨"b", some 2⟩])))
    1 (some f)) 2 (some g)

theorem not_isDir_blankFile (size : Nat) : ¬(blankFile size).isDir :=
  FileState.not_isDir_empty 1 0o100644

theorem length_blankFile (size : Nat) : (blankFile size).bytes.length = size :=
  List.length_replicate ..

theorem tally_pairFiles (cost : Nat → Nat) (f g : FileState) :
    tally cost (pairFiles f g) =
      cost (4 * entrySize) + cost f.bytes.length + cost g.bytes.length := by
  rw [pairFiles, tally_insert cost (by decide) rfl, tally_insert cost (by decide) rfl,
    tally_insert cost (by decide) rfl, tally_none, FileState.withEntries, Entries.length_bytes,
    Nat.zero_add]
  rfl

theorem packed_soleFiles {name : String} {mode : UInt32} : Packed 2 (soleFiles name mode) where
  sparse := sparse_soleFiles
  dense  := by
    intro h hh
    obtain rfl | rfl : h = rootInode ∨ h = 1 := by lia
    case inl => exact ⟨_, rfl⟩
    case inr => exact ⟨_, rfl⟩

theorem mknod_pair_ensures {crooked : Prop} {owed : Nat → Int}
    (a : Arranged crooked owed (soleFiles "a" 0o100644)) (hv : v.Holds (soleFiles "a" 0o100644)) :
    (Operation.mknod rootInode "b" 0o100644).perform.Ensures v
      (fun _ w => w.Holds (pairFiles (blankFile 0) (blankFile 0))) Never := by
  have hs : ∀ e ∈ [⟨".", some rootInode⟩, ⟨"..", some rootInode⟩, (⟨"a", some 1⟩ : Entry)],
      e.Storable := by
    simp only [List.mem_cons, List.not_mem_nil, or_false]
    rintro e (rfl | rfl | rfl) <;> exact .used (by decide) (by decide) (by decide)
  have hroot : soleFiles "a" 0o100644 rootInode = some (.withEntries .root
      [⟨".", some rootInode⟩, ⟨"..", some rootInode⟩, ⟨"a", some 1⟩]) := by
    rw [soleFiles, FileState.entries_root]
    rfl
  have he := FileState.entries_withEntries (f := .root) hs
  apply (mknod_root_ensures a hv packed_soleFiles (by decide) hroot (by rw [he]; decide)
    (by rw [he]; simp [Entries.used, Entry.naming]) (by decide) (by decide) (by decide)
    (by decide)).mono_ok
  rintro _ w ⟨_, hw⟩
  rw [he, soleFiles, Function.update_comm (show 1 ≠ rootInode by decide), Function.update_idem, rootFiles,
    Function.update_idem] at hw
  exact hw

theorem truncate_blank {size : Nat} (hv : v.Holds files) (hf : files i = some (blankFile 0))
    (hsize : size < wordLimit) (ha : v.Affords i size) :
    ((Operation.truncate (.inode i) size).perform v).2.Holds
      (Function.update files i (some (blankFile size))) := by
  have h := truncate_of_affords hv hf (not_isDir_blankFile 0) hsize ha
  simpa [blankFile] using h.volume (fun _ _ => id) fun _ _ => False.elim

theorem sparse_pairFiles {f g : FileState} (hf : f.bytes.length ≤ blockSize)
    (hg : g.bytes.length ≤ blockSize) : Sparse 3 (pairFiles f g) := by
  refine ((Sparse.empty.update (by decide) ?_).update (by decide) hf).update (by decide) hg
  rw [FileState.withEntries, Entries.length_bytes]
  decide

theorem fill_pair {size rest : Nat} (hv : v.Holds (pairFiles (blankFile 0) (blankFile 0)))
    (hsize : size ≤ blockSize)
    (hb : blocksFor size + blocksFor rest + 1 + reservedBlocks = blockCount) :
    let u := ((Operation.truncate (.inode 1) size).perform v).2
    let w := ((Operation.truncate (.inode 2) rest).perform u).2
    u.Holds (pairFiles (blankFile size) (blankFile 0)) ∧
      w.Holds (pairFiles (blankFile size) (blankFile rest)) ∧ w.freeBlocks = 0 := by
  intro u w
  have hroot : blocksFor (4 * entrySize) = 1 ∧ linksFor (4 * entrySize) = 1 := by decide
  have hlinks : linksFor size = 1 ∧ linksFor 0 = 1 :=
    ⟨linksFor_eq_one (Nat.le_trans hsize (by decide)), rfl⟩
  have hrest := linksFor_le rest
  have hlt : rest ≤ blocksFor rest * blockSize := le_blocksFor_mul rest
  have ha : v.Affords 1 size := by
    have hblocks := hv.freeBlocks_add
    rw [tally_pairFiles, length_blankFile, hroot.left, blocksFor_zero] at hblocks
    refine hv.affords rfl ?_ ?_ <;> rw [length_blankFile]
    case refine_1 => lia
    case refine_2 => exact hlinks.left.trans_le (hlinks.right ▸ Nat.le_add_right ..)
  have hu : u.Holds (pairFiles (blankFile size) (blankFile 0)) := by
    have hu : u.Holds _ := truncate_blank hv rfl (by lia) ha
    rwa [pairFiles, Function.update_comm (by decide), Function.update_idem] at hu
  have ha : u.Affords 2 rest := by
    have hblocks := hu.freeBlocks_add
    have hinodes := hu.freeInodes_add
    have hs : Sparse 3 (pairFiles (blankFile size) (blankFile 0)) :=
      sparse_pairFiles ((length_blankFile size).trans_le hsize) (Nat.zero_le _)
    rw [tally_pairFiles, length_blankFile, length_blankFile, hroot.left, blocksFor_zero] at hblocks
    rw [hu.trailing_of_sparse hs, tally_pairFiles, length_blankFile, length_blankFile, hroot.right,
      hlinks.left, hlinks.right, Finset.card_empty] at hinodes
    refine hu.affords rfl ?_ ?_ <;> rw [length_blankFile] <;> lia
  have hw : w.Holds (pairFiles (blankFile size) (blankFile rest)) := by
    have hw : w.Holds _ := truncate_blank hu rfl (by lia) ha
    rwa [pairFiles, Function.update_idem] at hw
  have hblocks := hw.freeBlocks_add
  rw [tally_pairFiles, length_blankFile, length_blankFile, hroot.left] at hblocks
  exact ⟨hu, hw, by omega⟩

theorem crammed (size rest : Nat) (hsize : size ≤ blockSize)
    (hb : blocksFor size + blocksFor rest + 1 + reservedBlocks = blockCount) :
    let v := ((Operation.truncate (.inode 2) rest).perform
      ((Operation.truncate (.inode 1) size).perform
        ((Operation.mknod rootInode "b" 0o100644).perform
          ((Operation.mknod rootInode "a" 0o100644).perform fresh).2).2).2).2
    Reachable v ∧ v.freeBlocks = 0 ∧ v.Holds (pairFiles (blankFile size) (blankFile rest)) := by
  intro v
  have hm : (Operation.mknod rootInode "a" 0o100644).Admissible fresh :=
    Operation.admissible_fresh (by decide)
  have ⟨_, hv₁⟩ := mknod_fresh (show Proper "a" by decide) (by decide) (by decide)
    (show NodeKind.ofMode 0o100644 = .regular by decide)
  have run₁ := Run.fresh hm
  have ⟨_, hf, _, a, _⟩ := run₁.settled
  obtain rfl := hf.unique hv₁
  have hm : (Operation.mknod rootInode "b" 0o100644).Admissible _ :=
    ⟨hv₁.not_continues_of_sparse sparse_soleFiles, by decide⟩
  have hv₂ := (mknod_pair_ensures a hv₁).volume (fun _ _ => id) fun _ _ => False.elim
  have ht₁ : (Operation.truncate (.inode 1) size).Admissible _ := (hv₂.head_iff.mpr ⟨_, rfl⟩).right
  have ⟨hv₃, hv, hfree⟩ := fill_pair hv₂ hsize hb
  have ht₂ : (Operation.truncate (.inode 2) rest).Admissible _ := (hv₃.head_iff.mpr ⟨_, rfl⟩).right
  exact ⟨(((run₁.step hm).step ht₁).step ht₂).reachable, hfree, hv⟩

theorem not_thorough_crammed :
    let v := ((Operation.truncate (.inode 2) 1028096).perform
      ((Operation.truncate (.inode 1) 4000).perform
        ((Operation.mknod rootInode "b" 0o100644).perform
          ((Operation.mknod rootInode "a" 0o100644).perform fresh).2).2).2).2
    let data := List.replicate 200 120
    Reachable v ∧ v.Head 1 ∧ v.isDir 1 = .ok false ∧
      (write 1 4000 data v).1 = .error (.errno .noSpace) ∧
      (write 1 4000 (data.take 96) v).1 = .ok 96 ∧ ¬Thorough v 1 4000 data := by
  intro v data
  have hv : Reachable v ∧ v.freeBlocks = 0 ∧ v.Holds _ :=
    crammed 4000 1028096 (by decide) (by decide)
  -- what the volume comes from is not to be computed
  clear_value v
  have ⟨r, hfree, hv⟩ := hv
  have hf : pairFiles (blankFile 4000) (blankFile 1028096) 1 = some (blankFile 4000) := rfl
  have hd := not_isDir_blankFile 4000
  have hlen : data.length = 200 := List.length_replicate ..
  have hdata : data ≠ [] := List.length_pos_iff.mp (by omega)
  have hlim : 4000 + data.length < wordLimit := by rw [hlen]; decide
  have hw : v.Wasted 1 4000 := by
    rw [hv.wasted_iff hf, length_blankFile, hfree]
    decide
  have ha : ¬v.Affords 1 (4000 + data.length) := by
    intro ha
    have hle := hv.blocksFor_le hf ha
    rw [length_blankFile, hfree, hlen] at hle
    exact absurd hle (by decide)
  have hpart : v.Affords 1 (4000 + 96) := by
    refine hv.affords hf ?_ (Nat.le_trans ?_ (Nat.le_add_right ..)) <;> rw [length_blankFile]
    case refine_1 => exact Nat.le_trans (by decide) (Nat.le_add_right ..)
    case refine_2 => decide
  have hnone := write_wasted hv hf hd hdata hlim ha hw
  have hsome := (write_part_iff hv hf hd hlim (by decide) (by omega)).mpr hpart
  refine ⟨r, hv.head_iff.mpr ⟨_, hf⟩, (hv.regular_iff hf).mpr hd, hnone, hsome, fun h => ?_⟩
  exact (h 96 (by omega)).right _ (Prod.ext hnone rfl) (by decide) hsome

end Tree
end InodeVolume
