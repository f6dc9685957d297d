import InodeVolume.Directory.Update

namespace InodeVolume

structure Stat where
  inode  : Nat
  size   : Nat
  blocks : Nat
  mode   : UInt32
  links  : Nat
  deriving DecidableEq, Repr

namespace Stat

def kind (s : Stat) : NodeKind :=
  .ofMode s.mode

end Stat

namespace Tree

open VolumeM

-- Nobody is kept from anything: access asks only whether the inode is there.
def access (v : Volume) (inode : Nat) : Except Fault Unit :=
  (v.inode inode).map fun _ => ()

def stat (v : Volume) (inode : Nat) : Except Fault Stat := do
  let head ← v.inode inode
  let size ← v.fileSize inode
  return ⟨inode, size, blocksFor size, head.mode, head.refs⟩

def lookup (v : Volume) (parent : Nat) (name : String) : Except Fault Nat := do
  if !(← v.isDir parent) then .error (.errno .notDirectory)
  v.lookup parent name

def read (v : Volume) (inode offset len : Nat) : Except Fault (List UInt8) := do
  if ← v.isDir inode then .error (.errno .isDirectory)
  v.readFile inode offset len

def list (v : Volume) (dir : Nat) : Except Fault (List (String × Nat)) := do
  if !(← v.isDir dir) then .error (.errno .notDirectory)
  v.listing dir

-- Entries of these names are made and removed only together with their directory.
def guardName (name : String) : VolumeM Unit :=
  if name = "" ∨ name = "." ∨ name = ".." then refuse .invalid else return

def expectAbsent (find : Volume → Except Fault Nat) : VolumeM Unit := do
  match ← attempt (query find) with
  | .ok _            => refuse .fileExists
  | .error .notFound => return
  | .error e         => refuse e

def makeRoot : VolumeM Unit := do
  if !(← query fun v => .ok (v.inodeTaken rootInode)) then
    let root ← Inode.alloc
    Inode.put root { (← query (·.inode root)) with mode := Mode.root, refs := 1 }
    Directory.start root
    discard <| Directory.add root ".." root

def reset : VolumeM Unit := do
  change fun _ => .blank
  makeRoot

def addReference (inode : Nat) : VolumeM Unit := do
  let head ← query (·.inode inode)
  Inode.put inode { head with refs := head.refs + 1 }

def mknod (parent : Nat) (name : String) (mode : UInt32) : VolumeM Nat := do
  guardName name
  let kind := NodeKind.ofMode mode
  match kind.bits? with
  | none      => refuse .invalid
  | some bits =>
    expectAbsent (lookup · parent name)
    let inode ← Inode.alloc
    Inode.put inode { (← query (·.inode inode)) with mode := bits ||| Mode.permissions mode }
    match ← attempt (place kind inode) with
    | .ok _    =>
      addReference inode
      return inode
    | .error e =>
      -- what went wrong before matters more than whether this succeeds
      discard <| attempt (File.delete inode)
      refuse e
where
  place (kind : NodeKind) (inode : Nat) : VolumeM Unit := do
    if kind = .directory then Directory.start inode
    discard <| Directory.attach parent name inode

def link (inode newParent : Nat) (newName : String) : VolumeM Unit := do
  guardName newName
  if ← query (·.isDir inode) then refuse .notPermitted
  if !(← query (·.isDir newParent)) then refuse .notDirectory
  discard <| Directory.add newParent newName inode
  addReference inode

def removeName (parent : Nat) (name : String) (target : Nat) : VolumeM Unit := do
  discard <| Directory.detach parent name
  let head ← query (·.inode target)
  Inode.put target { head with refs := head.refs - 1 }
  if head.refs - 1 = 0 then File.delete target

def unlink (parent : Nat) (name : String) : VolumeM Unit := do
  guardName name
  let target ← query (lookup · parent name)
  if ← query (·.isDir target) then refuse .isDirectory
  removeName parent name target

def rmdir (parent : Nat) (name : String) : VolumeM Unit := do
  guardName name
  let target ← query (lookup · parent name)
  if !(← query (·.isDir target)) then refuse .notDirectory
  if !(← query (·.isBare target)) then refuse .notEmpty
  removeName parent name target

def isWithinFrom (v : Volume) (ancestor : Nat) : (limit dir : Nat) → Except Fault Bool
  | 0, _ => .error (.errno .io)
  | limit + 1, dir =>
    if dir = ancestor then .ok true
    else if dir = rootInode then .ok false
    else do isWithinFrom v ancestor limit (← v.lookup dir "..")

-- Whether a directory is another one or lies below it. A tree is no deeper than it has inodes.
def isWithin (v : Volume) (ancestor dir : Nat) : Except Fault Bool :=
  isWithinFrom v ancestor inodeCount dir

-- Move an entry. The new name comes first, so that the file is never without one.
def rename (parent : Nat) (name : String) (newParent : Nat) (newName : String) : VolumeM Unit := do
  guardName name
  guardName newName
  let target ← query (lookup · parent name)
  expectAbsent (lookup · newParent newName)
  let moved ← query (·.isDir target)
  if moved then
    if ← query (isWithin · target newParent) then refuse .invalid
  discard <| Directory.add newParent newName target
  match ← attempt (Directory.remove parent name) with
  | .ok _    =>
    if moved ∧ parent ≠ newParent then discard <| Directory.redirect target ".." newParent
  | .error e =>
    -- Only while the old name is still there does the new one go again.
    match ← attempt (query (·.lookup parent name)) with
    | .ok found => if found = target then discard <| Directory.remove newParent newName
    | .error _  => pure ()
    refuse e

def truncate (inode size : Nat) : VolumeM Unit := do
  if ← query (·.isDir inode) then refuse .isDirectory
  let current ← query (·.fileSize inode)
  if current < size then
    let growth ← File.growZeroed inode (size - current)
    match growth.cut with
    | none   => return
    | some e =>
      discard <| File.shrink inode growth.grown
      refuse e
  else discard <| File.shrink inode (current - size)

-- Room for bytes that end at `goal`. If there is not enough, it is kept so long as some of the
-- bytes from `offset` on have a place in it.
def makeRoom (inode total offset goal : Nat) : VolumeM Unit := do
  let growth ← File.growZeroed inode (goal - total)
  match growth.cut with
  | none   => return
  | some e =>
    if total + growth.grown ≤ offset then
      discard <| File.shrink inode growth.grown
      refuse e

def write (inode offset : Nat) (data : List UInt8) : VolumeM Nat := do
  if ← query (·.isDir inode) then refuse .isDirectory
  if data.isEmpty then return 0
  let total ← query (·.fileSize inode)
  let goal := offset + data.length
  if wordLimit ≤ goal then refuse .tooBig
  if total < goal then makeRoom inode total offset goal
  File.write inode offset data

def chmod (inode : Nat) (mode : UInt32) : VolumeM Unit := do
  let head ← query (·.inode inode)
  Inode.put inode { head with mode := Mode.kindBits head.mode ||| Mode.permissions mode }

end Tree
end InodeVolume
