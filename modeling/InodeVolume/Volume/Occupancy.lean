import InodeVolume.Volume.Basic

namespace InodeVolume

structure Usage where
  totalBlocks : Nat
  freeBlocks  : Nat
  totalInodes : Nat
  freeInodes  : Nat
  deriving DecidableEq, Repr

namespace Usage

def usedBlocks (u : Usage) : Nat := u.totalBlocks - u.freeBlocks

def usedInodes (u : Usage) : Nat := u.totalInodes - u.freeInodes

end Usage

namespace Volume

def blockTaken (v : Volume) (block : Nat) : Bool :=
  block < blockCount && v.bit blockMapStart block

def inodeTaken (v : Volume) (inode : Nat) : Bool :=
  inode < inodeCount && v.bit inodeMapStart inode

def freeBlocks (v : Volume) : Nat :=
  v.clearBits blockMapStart blockCount

def freeInodes (v : Volume) : Nat :=
  v.clearBits inodeMapStart inodeCount

def usage (v : Volume) : Usage where
  totalBlocks := blockCount
  freeBlocks  := v.freeBlocks
  totalInodes := inodeCount
  freeInodes  := v.freeInodes

def reserve (v : Volume) : Volume :=
  (List.range reservedBlocks).foldl (fun v block => v.setBit blockMapStart block true) v

def blank : Volume :=
  zero.reserve

end Volume
end InodeVolume
