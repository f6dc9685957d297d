import InodeVolume.Geometry
import InodeVolume.Mode

namespace InodeVolume

structure Inode where
  refs   : Nat := 0
  mode   : UInt32 := Mode.fresh
  size   : Nat := 0
  blocks : Vector (Option Nat) slotsPerInode := .replicate _ none
  next   : Option Nat := none
  deriving DecidableEq

namespace Inode

def isDir (i : Inode) : Bool :=
  Mode.kindBits i.mode = Mode.directory

def usedBlocks (i : Inode) : Nat :=
  blocksFor i.size

def isEmpty (i : Inode) : Bool :=
  i.size = 0 && i.next.isNone && i.blocks.all Option.isNone

end Inode
end InodeVolume
