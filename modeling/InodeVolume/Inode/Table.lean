import InodeVolume.VolumeM
import InodeVolume.Inode.Record
import InodeVolume.Volume.Occupancy

namespace InodeVolume

namespace Volume

def recordStart (inode : Nat) : Nat :=
  tableStart + inode * recordSize

def word (v : Volume) (a : Nat) : UInt32 :=
  LittleEndian.wordAt v.byte a

def record (v : Volume) (inode : Nat) : Record :=
  .ofWords fun k => v.word (recordStart inode + 4 * k)

def inode (v : Volume) (inode : Nat) : Except Fault Inode :=
  if v.inodeTaken inode then .ok (v.record inode).inode else .error (.errno .notFound)

def isDir (v : Volume) (inode : Nat) : Except Fault Bool := do
  return (← v.inode inode).isDir

end Volume

namespace Inode

open VolumeM

-- Whether the record belongs to anyone does not matter here.
def put (inode : Nat) (content : Inode) : VolumeM Unit :=
  if inode < inodeCount then
    change (·.write (Volume.recordStart inode) (Record.ofInode content).bytes)
  else refuse .invalid

def alloc : VolumeM Nat := do
  match ← query fun v => .ok (v.clearBit? inodeMapStart 0 inodeCount) with
  | none => refuse .noSpace
  | some inode =>
    put inode {}
    change (·.setBit inodeMapStart inode true)
    return inode

def free (inode : Nat) : VolumeM Unit := do
  if (← query (·.inode inode)).isEmpty then
    change (·.setBit inodeMapStart inode false)
  else refuse .notEmpty

end Inode
end InodeVolume
