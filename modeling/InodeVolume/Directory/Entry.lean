import InodeVolume.Bytes.LittleEndian
import InodeVolume.Bytes.Reference
import InodeVolume.Bytes.Utf8
import InodeVolume.Geometry

namespace InodeVolume

structure Entry where
  name  : String
  inode : Option Nat
  deriving DecidableEq, Repr

namespace Entry

def free : Entry :=
  ⟨"", none⟩

def isFree (e : Entry) : Bool :=
  e.inode.isNone

def fits (name : String) : Bool :=
  (Utf8.bytes name).length < nameWidth

-- A name that does not fit is cut, if need be within a character.
def nameField (name : String) : List UInt8 :=
  ((Utf8.bytes name).take (nameWidth - 1)).rightpad nameWidth 0

def bytes (e : Entry) : List UInt8 :=
  nameField e.name ++ LittleEndian.bytes (Reference.word e.inode).toUInt32 ++
    .replicate (entrySize - nameWidth - 4) 0

def ofBytes (raw : List UInt8) : Entry where
  name  := Utf8.lossy ((raw.take nameWidth).takeWhile (· ≠ 0))
  inode := Reference.ofWord (LittleEndian.wordAt (raw.getD · 0) nameWidth).toInt32

@[simp]
theorem length_nameField (name : String) : (nameField name).length = nameWidth := by
  simp only [nameField, List.rightpad, List.length_append, List.length_replicate, List.length_take]
  omega

@[simp]
theorem length_bytes (e : Entry) : e.bytes.length = entrySize := by
  simp [bytes, entrySize, nameWidth]

end Entry
end InodeVolume
