import InodeVolume.Volume.Occupancy

namespace InodeVolume

namespace Usage

def blocksText (blocks : Nat) : String :=
  if blocks = 0 then "0 B" else s!"{blocks * blockSize / 1024}.00 KiB"

def report (u : Usage) : String :=
  s!"blocks: {u.usedBlocks}/{u.totalBlocks} used " ++
  s!"({blocksText u.usedBlocks} of {blocksText u.totalBlocks})\n" ++
  s!"inodes: {u.usedInodes}/{u.totalInodes} used"

end Usage
end InodeVolume
