import InodeVolume.File.Growth

namespace InodeVolume

structure Piece where
  block : Nat
  start : Nat
  len   : Nat
  deriving DecidableEq, Repr

namespace Volume

def pieces (v : Volume) (head offset len : Nat) : Except Fault (List Piece) :=
  if len = 0 then .ok []
  else do
    let start := offset % blockSize
    let n := min (blockSize - start) len
    match ← v.fileBlock head (offset / blockSize) with
    | none       => .error (.errno .io)
    | some block => return ⟨block, start, n⟩ :: (← v.pieces head (offset + n) (len - n))
termination_by len
decreasing_by
  have : offset % blockSize < blockSize := Nat.mod_lt _ (by decide)
  omega

def readPieces (v : Volume) : List Piece → Except Fault (List UInt8)
  | []        => .ok []
  | p :: rest => do
    let bytes ← v.readBlock p.block p.start p.len
    return bytes ++ (← v.readPieces rest)

def clip (total offset len : Nat) : Nat :=
  min len (total - offset)

def readWithin (v : Volume) (head total offset len : Nat) : Except Fault (List UInt8) := do
  v.readPieces (← v.pieces head offset (clip total offset len))

def readFile (v : Volume) (head offset len : Nat) : Except Fault (List UInt8) := do
  v.readWithin head (← v.fileSize head) offset len

def readInto (v : Volume) (head offset : Nat) (buffer : List UInt8) :
    Except Fault (Nat × List UInt8) := do
  let got ← v.readFile head offset buffer.length
  return (got.length, got ++ buffer.drop got.length)

end Volume

namespace File

open VolumeM

def writePieces : List Piece → List UInt8 → VolumeM Unit
  | [], _           => return
  | p :: rest, data => do
    Block.write p.block p.start (data.take p.len)
    writePieces rest (data.drop p.len)

def zeroPieces : List Piece → VolumeM Unit
  | []        => return
  | p :: rest => do
    Block.write p.block p.start (.replicate p.len 0)
    zeroPieces rest

def write (head offset : Nat) (data : List UInt8) : VolumeM Nat := do
  let len := Volume.clip (← query (·.fileSize head)) offset data.length
  writePieces (← query (·.pieces head offset len)) data
  return len

def zero (head offset len : Nat) : VolumeM Unit := do
  zeroPieces (← query (·.pieces head offset len))

def growZeroed (head bytes : Nat) : VolumeM Growth := do
  match ← attempt (query (·.fileSize head)) with
  | .error e => return ⟨0, some e⟩
  | .ok old  =>
    let growth ← grow head bytes
    match ← attempt (zero head old growth.grown) with
    | .error e => return { growth with cut := some e }
    | .ok ()   => return growth

end File
end InodeVolume
