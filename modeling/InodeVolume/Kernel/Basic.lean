import InodeVolume.Tree.Basic

namespace InodeVolume

namespace NodeKind

def reported : NodeKind → NodeKind
  | directory => directory
  | _         => regular

end NodeKind

namespace Kernel

open VolumeM

abbrev sectorSize : Nat := 512

def nodeId (inode : Nat) : Nat :=
  inode + 1

def inodeOf (id : Nat) : VolumeM Nat :=
  if 1 ≤ id ∧ id ≤ 0x100000000 then return id - 1 else refuse .notFound

def nameOf (bytes : List UInt8) : VolumeM String :=
  match Utf8.decode? bytes with
  | some name => return name
  | none      => refuse .invalid

def offsetOf (offset : Int) : VolumeM Nat :=
  if offset < 0 then refuse .invalid else return offset.toNat

structure Attributes where
  id      : Nat
  size    : Nat
  sectors : Nat
  mode    : UInt32
  links   : Nat
  deriving DecidableEq, Repr

namespace Attributes

def kindBits (kind : NodeKind) : UInt32 :=
  kind.reported.bits?.getD 0

def ofStat (s : Stat) : Attributes where
  id      := nodeId s.inode
  size    := s.size
  sectors := s.blocks * (blockSize / sectorSize)
  mode    := kindBits s.kind ||| Mode.permissions s.mode &&& 0xFFFF
  links   := s.links

end Attributes

def attributes (inode : Nat) : VolumeM Attributes := do
  return .ofStat (← query (Tree.stat · inode))

end Kernel
end InodeVolume
