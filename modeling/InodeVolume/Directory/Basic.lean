import InodeVolume.Directory.Entry
import InodeVolume.File.Content

namespace InodeVolume

namespace Volume

-- A directory that ends within an entry is a crash.
def slotCount (v : Volume) (dir : Nat) : Except Fault Nat := do
  let total ← v.fileSize dir
  if total % entrySize = 0 then return total / entrySize else .error .crash

def slotWithin (v : Volume) (dir total index : Nat) : Except Fault Entry := do
  let raw ← v.readWithin dir total (index * entrySize) entrySize
  if raw.length = entrySize then return .ofBytes raw else .error (.errno .io)

def slot (v : Volume) (dir index : Nat) : Except Fault Entry := do
  if wordLimit ≤ index * entrySize then .error .crash
  v.slotWithin dir (← v.fileSize dir) index

def slotsFrom (v : Volume) (dir total : Nat) : (index count : Nat) → Except Fault (List Entry)
  | _, 0 => .ok []
  | index, count + 1 => do
    let entry ← v.slotWithin dir total index
    return entry :: (← v.slotsFrom dir total (index + 1) count)

def slots (v : Volume) (dir : Nat) : Except Fault (List Entry) := do
  let count ← v.slotCount dir
  v.slotsFrom dir (count * entrySize) 0 count

def findSlot (v : Volume) (dir : Nat) (name : String) : Except Fault (Option (Nat × Nat)) := do
  return (← v.slots dir).zipIdx.findSome? fun (entry, index) =>
    if entry.name = name then entry.inode.map (index, ·) else none

def lookup (v : Volume) (dir : Nat) (name : String) : Except Fault Nat := do
  if !Entry.fits name then .error (.errno .notFound)
  match ← v.findSlot dir name with
  | some (_, target) => return target
  | none             => .error (.errno .notFound)

def isBare (v : Volume) (dir : Nat) : Except Fault Bool := do
  return (← v.slots dir).all fun entry => entry.isFree || entry.name = "." || entry.name = ".."

def listing (v : Volume) (dir : Nat) : Except Fault (List (String × Nat)) := do
  return (← v.slots dir).filterMap fun entry => entry.inode.map (entry.name, ·)

def names (v : Volume) (dir : Nat) : Except Fault (List String) := do
  return (← v.listing dir).map (·.1)

end Volume
end InodeVolume
