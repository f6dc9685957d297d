import InodeVolume.Block
import InodeVolume.Inode.Chain

namespace InodeVolume

structure Growth where
  grown : Nat
  cut   : Option Errno := none
  deriving DecidableEq, Repr

namespace Inode

def hold (i : Inode) (block len : Nat) : Inode :=
  { i with size := i.size + len, blocks := i.blocks.setIfInBounds i.usedBlocks (some block) }

end Inode

namespace File

open VolumeM

-- `inode` is what the record of `last` holds, and `done` bytes have been added before.
def growFrom (last : Nat) (inode : Inode) (remaining done : Nat) : VolumeM Growth := do
  if remaining = 0 then
    return ⟨done, none⟩
  else if wordLimit ≤ inode.size + remaining then
    crash
  else if blocksFor (inode.size + remaining) = inode.usedBlocks then
    Inode.put last { inode with size := inode.size + remaining }
    return ⟨done + remaining, none⟩
  else if inode.usedBlocks < slotsPerInode then
    match ← attempt Block.alloc with
    | .error e => return ⟨done, some e⟩
    | .ok block =>
      let len := min blockSize remaining
      Inode.put last (inode.hold block len)
      growFrom last (inode.hold block len) (remaining - len) (done + len)
  else if inodeCapacity < inode.size then
    crash
  else
    -- More than this room is wanted, or the bytes would have fitted above.
    let room := inodeCapacity - inode.size
    let full := { inode with size := inodeCapacity }
    Inode.put last full
    match ← attempt Inode.alloc with
    | .error e => return ⟨done + room, some e⟩
    | .ok next =>
      Inode.put last { full with next := some next }
      growFrom next {} (remaining - room) (done + room)
termination_by (remaining, inode.size)
decreasing_by
  · exact Prod.Lex.left _ _ (by simp only [blockSize]; omega)
  · have : 0 < inode.size := by
      rcases Nat.eq_zero_or_pos inode.size with h | h
      · simp_all [Inode.usedBlocks, blocksFor_zero]
      · exact h
    rcases Nat.eq_zero_or_pos (inodeCapacity - inode.size) with h | h
    · rw [h]
      exact Prod.Lex.right _ this
    · exact Prod.Lex.left _ _ (by omega)

def grow (head bytes : Nat) : VolumeM Growth := do
  if bytes = 0 then
    return ⟨0, none⟩
  else
    match ← attempt (query (·.lastLink head)) with
    | .error e               => return ⟨0, some e⟩
    | .ok ((last, inode), _) => growFrom last inode bytes 0

end File
end InodeVolume
