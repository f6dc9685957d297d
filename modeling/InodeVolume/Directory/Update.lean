import InodeVolume.Directory.Basic
import InodeVolume.File.Shrinkage

namespace InodeVolume.Directory

open VolumeM

def put (dir index : Nat) (entry : Entry) : VolumeM Unit := do
  if wordLimit ≤ index * entrySize then crash
  if (← File.write dir (index * entrySize) entry.bytes) ≠ entrySize then refuse .io

-- One more slot. Half a slot must not stay, so growth that was cut short is undone.
def extend (dir : Nat) : VolumeM Unit := do
  let growth ← File.grow dir entrySize
  match growth.cut with
  | none   => return
  | some e =>
    if 0 < growth.grown then discard <| File.shrink dir growth.grown
    refuse e

def add (dir : Nat) (name : String) (target : Nat) : VolumeM Nat := do
  if !Entry.fits name then refuse .nameTooLong
  let slots ← query (·.slots dir)
  if slots.any fun entry => !entry.isFree && entry.name = name then refuse .fileExists
  let index ← match slots.findIdx? Entry.isFree with
    | some index => pure index
    | none       => extend dir *> pure slots.length
  put dir index ⟨name, some target⟩
  return index

def find (dir : Nat) (name : String) : VolumeM (Nat × Nat) := do
  if !Entry.fits name then refuse .notFound
  match ← query (·.findSlot dir name) with
  | some found => return found
  | none       => refuse .notFound

def trim (dir : Nat) : VolumeM Unit := do
  let trailing := ((← query (·.slots dir)).reverse.takeWhile Entry.isFree).length
  if 0 < trailing then discard <| File.shrink dir (trailing * entrySize)

def remove (dir : Nat) (name : String) : VolumeM Nat := do
  let (index, _) ← find dir name
  put dir index .free
  trim dir
  return index

def redirect (dir : Nat) (name : String) (target : Nat) : VolumeM Nat := do
  let (index, _) ← find dir name
  put dir index ⟨name, some target⟩
  return index

def attach (dir : Nat) (name : String) (target : Nat) : VolumeM Nat := do
  let index ← add dir name target
  if ← query (·.isDir target) then
    match ← attempt (add target ".." dir) with
    | .ok _    => return index
    | .error e =>
      discard <| remove dir name
      refuse e
  else return index

def detach (dir : Nat) (name : String) : VolumeM Nat := do
  let (index, target) ← find dir name
  put dir index .free
  if ← query (·.isDir target) then
    match ← attempt (remove target "..") with
    | .ok _ | .error .notFound => pure ()
    | .error e                 => refuse e
  trim dir
  return index

def start (dir : Nat) : VolumeM Unit :=
  discard <| add dir "." dir

end InodeVolume.Directory
