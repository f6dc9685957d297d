import InodeVolume.Bytes.LittleEndian
import InodeVolume.Bytes.Reference
import InodeVolume.Inode.Basic

namespace InodeVolume

structure Record where
  refs   : Int32
  mode   : UInt32
  size   : Int32
  blocks : Vector Int32 slotsPerInode
  next   : Int32
  deriving DecidableEq

namespace Record

def words (r : Record) : List UInt32 :=
  [r.refs.toUInt32, r.mode, r.size.toUInt32, r.blocks[0].toUInt32, r.blocks[1].toUInt32,
    r.blocks[2].toUInt32, r.blocks[3].toUInt32, r.next.toUInt32]

def bytes (r : Record) : List UInt8 :=
  r.words.flatMap LittleEndian.bytes

@[inline]
def ofWords (word : Nat → UInt32) : Record where
  refs   := (word 0).toInt32
  mode   := word 1
  size   := (word 2).toInt32
  blocks := #v[(word 3).toInt32, (word 4).toInt32, (word 5).toInt32, (word 6).toInt32]
  next   := (word 7).toInt32

inductive StoreError where
  | tooShort (available : Nat)
  deriving DecidableEq, Repr

namespace StoreError

def message : StoreError → String
  | tooShort available => s!"record needs {recordSize} bytes, only {available} available"

end StoreError

def store (r : Record) (buffer : List UInt8) : Except StoreError (List UInt8) :=
  if buffer.length < recordSize then .error (.tooShort buffer.length)
  else .ok (r.bytes ++ buffer.drop recordSize)

def storeInto (r : Record) (buffer : List UInt8) : Except StoreError Nat × List UInt8 :=
  match r.store buffer with
  | .ok stored => (.ok recordSize, stored)
  | .error e   => (.error e, buffer)

def load? (buffer : List UInt8) : Option Record :=
  if buffer.length < recordSize then none
  else some (ofWords fun k => LittleEndian.wordAt (buffer.getD · 0) (4 * k))

def inode (r : Record) : Inode where
  refs   := r.refs.toInt.toNat
  mode   := r.mode
  size   := r.size.toInt.toNat
  blocks := r.blocks.map Reference.ofWord
  next   := Reference.ofWord r.next

def ofInode (i : Inode) : Record where
  refs   := Int32.ofNat i.refs
  mode   := i.mode
  size   := Int32.ofNat i.size
  blocks := i.blocks.map Reference.word
  next   := Reference.word i.next

@[simp]
theorem length_bytes (r : Record) : r.bytes.length = recordSize :=
  rfl

end Record
end InodeVolume
