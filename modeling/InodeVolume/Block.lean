import InodeVolume.VolumeM
import InodeVolume.Volume.Occupancy

namespace InodeVolume

namespace Volume

-- Reading and writing crash past the last block.
def readBlock (v : Volume) (block start len : Nat) : Except Fault (List UInt8) :=
  if block < blockCount ∧ start + len ≤ blockSize then .ok (v.read (block * blockSize + start) len)
  else .error .crash

end Volume

namespace Block

open VolumeM

def write (block start : Nat) (data : List UInt8) : VolumeM Unit :=
  if block < blockCount ∧ start + data.length ≤ blockSize then
    change (·.write (block * blockSize + start) data)
  else crash

def fill (block : Nat) (byte : UInt8) : VolumeM Unit :=
  write block 0 (.replicate blockSize byte)

def alloc : VolumeM Nat := do
  match ← query fun v => .ok (v.clearBit? blockMapStart reservedBlocks blockCount) with
  | none => refuse .noSpace
  | some block =>
    change (·.setBit blockMapStart block true)
    return block

def free (block : Nat) : VolumeM Unit := do
  if reservedBlocks ≤ block ∧ (← query fun v => .ok (v.blockTaken block)) then
    change (·.setBit blockMapStart block false)
  else crash

end Block
end InodeVolume
