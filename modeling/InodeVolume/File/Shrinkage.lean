import InodeVolume.Block
import InodeVolume.Inode.Chain

namespace InodeVolume

namespace Inode

def drop (i : Inode) : Inode :=
  { i with
    size   := blockSize * (i.usedBlocks - 1)
    blocks := i.blocks.setIfInBounds (i.usedBlocks - 1) none }

def held (i : Inode) : Nat :=
  i.size - blockSize * (i.usedBlocks - 1)

theorem drop_size_lt {i : Inode} (h : i.size ≠ 0) : i.drop.size < i.size := by
  have := blocksFor_mul_lt i.size
  have := blocksFor_pos (n := i.size) (by omega)
  simp only [drop, usedBlocks, blockSize] at *
  omega

end Inode

namespace File

open VolumeM

def freeSlot : Option Nat → VolumeM Unit
  | none       => return
  | some block => Block.free block

def cutLink (before : Link) (last : Nat) : VolumeM Unit := do
  Inode.put before.1 { before.2 with next := none }
  Inode.free last

-- `before` are the links in front of `last`, from back to front. The result is the number of bytes
-- that the file did not have.
def shrinkFrom (before : List Link) (last : Nat) (inode : Inode) (remaining : Nat) :
    VolumeM Nat := do
  if remaining = 0 then
    return 0
  else if inode.size = 0 then
    match before with
    | []             => return remaining
    | link :: before =>
      -- left over from growth that found no block
      cutLink link last
      shrinkFrom before link.1 { link.2 with next := none } remaining
  else if remaining < inode.size ∧ blocksFor (inode.size - remaining) = inode.usedBlocks then
    Inode.put last { inode with size := inode.size - remaining }
    return 0
  else if h : inode.usedBlocks - 1 < slotsPerInode then
    freeSlot inode.blocks[inode.usedBlocks - 1]
    Inode.put last inode.drop
    match before with
    | [] => shrinkFrom [] last inode.drop (remaining - inode.held)
    | link :: before =>
      if inode.drop.size = 0 then
        cutLink link last
        shrinkFrom before link.1 { link.2 with next := none } (remaining - inode.held)
      else
        shrinkFrom (link :: before) last inode.drop (remaining - inode.held)
  else
    crash
termination_by (before.length, inode.size)
decreasing_by
  · exact Prod.Lex.left _ _ (by simp)
  · exact Prod.Lex.right _ (Inode.drop_size_lt ‹_›)
  · exact Prod.Lex.left _ _ (by simp)
  · exact Prod.Lex.right _ (Inode.drop_size_lt ‹_›)

def shrink (head bytes : Nat) : VolumeM Nat := do
  if bytes = 0 then
    return 0
  else
    let ((last, inode), before) ← query (·.lastLink head)
    return bytes - (← shrinkFrom before last inode bytes)

def delete (head : Nat) : VolumeM Unit := do
  discard <| shrink head (← query (·.fileSize head))
  Inode.free head

end File
end InodeVolume
