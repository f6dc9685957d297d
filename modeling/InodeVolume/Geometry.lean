namespace InodeVolume

abbrev blockSize : Nat := 4096
abbrev blockCount : Nat := 256
abbrev inodeCount : Nat := 256

-- Blocks that one inode record names itself; a longer file continues in another record.
abbrev slotsPerInode : Nat := 4
abbrev inodeCapacity : Nat := slotsPerInode * blockSize

abbrev recordSize : Nat := 32
abbrev entrySize : Nat := 64

-- Width of the name in a directory entry. At least one byte of it stays zero.
abbrev nameWidth : Nat := 48

abbrev rootInode : Nat := 0

abbrev wordLimit : Nat := 0x10000000000000000

def blocksFor (bytes : Nat) : Nat :=
  (bytes + (blockSize - 1)) / blockSize

def mapSize (items : Nat) : Nat :=
  (items + 7) / 8

def tableSize? (inodes : Nat) : Option Nat :=
  if inodes * recordSize < wordLimit then some (inodes * recordSize) else none

abbrev blockMapStart : Nat := 0
abbrev inodeMapStart : Nat := 32
abbrev tableStart : Nat := 64

abbrev metadataSize : Nat := 8256
abbrev reservedBlocks : Nat := 3

abbrev volumeSize : Nat := 1048576

theorem inodeMapStart_eq : inodeMapStart = blockMapStart + mapSize blockCount := by decide

theorem tableStart_eq : tableStart = inodeMapStart + mapSize inodeCount := by decide

theorem metadataSize_eq : metadataSize = tableStart + inodeCount * recordSize := by decide

theorem reservedBlocks_eq : reservedBlocks = blocksFor metadataSize := by decide

theorem volumeSize_eq : volumeSize = blockCount * blockSize := by decide

theorem le_blocksFor_mul (n : Nat) : n ≤ blocksFor n * blockSize := by
  simp only [blocksFor, blockSize]
  omega

theorem blocksFor_mul_lt (n : Nat) : blocksFor n * blockSize < n + blockSize := by
  simp only [blocksFor, blockSize]
  omega

theorem blocksFor_le_iff {n k : Nat} : blocksFor n ≤ k ↔ n ≤ k * blockSize := by
  simp only [blocksFor, blockSize]
  omega

theorem blocksFor_mono {n k : Nat} (h : n ≤ k) : blocksFor n ≤ blocksFor k :=
  blocksFor_le_iff.mpr (Nat.le_trans h (le_blocksFor_mul k))

theorem blocksFor_zero : blocksFor 0 = 0 := by
  decide

theorem blocksFor_pos {n : Nat} (h : 0 < n) : 0 < blocksFor n := by
  simp only [blocksFor, blockSize]
  omega

theorem blocksFor_eq_one {n : Nat} (h : 0 < n) (hle : n ≤ blockSize) : blocksFor n = 1 :=
  Nat.le_antisymm (blocksFor_le_iff.mpr ((Nat.one_mul _).symm ▸ hle)) (blocksFor_pos h)

theorem div_lt_blocksFor {p n : Nat} (h : p < n) : p / blockSize < blocksFor n := by
  simp only [blocksFor, blockSize]
  omega

end InodeVolume
