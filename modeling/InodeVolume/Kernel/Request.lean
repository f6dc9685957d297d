import InodeVolume.Kernel.Listing

namespace InodeVolume.Kernel

open VolumeM

abbrev Name : Type := List UInt8

inductive Request where
  | init
  | destroy
  | statfs
  | access (id : Nat)
  | getattr (id : Nat)
  | setattr (id : Nat) (size : Option Nat) (mode : Option UInt32)
  | lookup (parent : Nat) (name : Name)
  | mknod (parent : Nat) (name : Name) (mode umask : UInt32)
  | mkdir (parent : Nat) (name : Name) (mode umask : UInt32)
  | create (parent : Nat) (name : Name) (mode umask flags : UInt32)
  | link (id newParent : Nat) (newName : Name)
  | unlink (parent : Nat) (name : Name)
  | rmdir (parent : Nat) (name : Name)
  | rename (parent : Nat) (name : Name) (newParent : Nat) (newName : Name)
  | read (id : Nat) (offset : Int) (size : Nat)
  | write (id : Nat) (offset : Int) (data : List UInt8)
  | readdir (id : Nat) (offset : Int) (size : Nat)
  deriving DecidableEq, Repr

-- Files are counted as far as they are in use; nothing is set aside for anyone.
structure Capacity where
  blocks     : Nat
  free       : Nat
  available  : Nat
  files      : Nat
  freeFiles  : Nat
  blockSize  : Nat
  nameLength : Nat
  deriving DecidableEq, Repr

def Capacity.ofUsage (u : Usage) : Capacity where
  blocks     := u.totalBlocks
  free       := u.freeBlocks
  available  := u.freeBlocks
  files      := u.usedInodes
  freeFiles  := u.freeInodes
  blockSize  := InodeVolume.blockSize
  nameLength := nameWidth - 1

inductive Reply where
  | done
  | capacity (c : Capacity)
  | attributes (a : Attributes)
  | entry (a : Attributes)
  | created (a : Attributes) (flags : UInt32)
  | data (bytes : List UInt8)
  | written (count : Nat)
  | listing (page : List ListedEntry)
  deriving DecidableEq, Repr

def resize (inode : Nat) : Option Nat → VolumeM Unit
  | none      => return
  | some size => Tree.truncate inode size

def setMode (inode : Nat) : Option UInt32 → VolumeM Unit
  | none      => return
  | some mode => Tree.chmod inode mode

def make (parent : Nat) (name : Name) (mode : UInt32) : VolumeM Attributes := do
  let parent ← inodeOf parent
  attributes (← Tree.mknod parent (← nameOf name) mode)

namespace Request

def serve : Request → VolumeM Reply
  | init | destroy => return .done
  | statfs => do return .capacity (.ofUsage (← query fun v => .ok v.usage))
  | access id => do
    query (Tree.access · (← inodeOf id))
    return .done
  | getattr id => do return .attributes (← Kernel.attributes (← inodeOf id))
  | setattr id size mode => do
    let inode ← inodeOf id
    resize inode size
    setMode inode mode
    return .attributes (← Kernel.attributes inode)
  | lookup parent name => do
    let parent ← inodeOf parent
    let inode ← query (Tree.lookup · parent (← nameOf name))
    return .entry (← Kernel.attributes inode)
  | mknod parent name mode umask => do return .entry (← make parent name (mode &&& ~~~umask))
  | mkdir parent name mode umask => do
    let mode := Mode.directory ||| Mode.permissions (mode &&& ~~~umask)
    return .entry (← make parent name mode)
  | create parent name mode umask flags => do
    return .created (← make parent name (mode &&& ~~~umask)) flags
  | link id newParent newName => do
    let inode ← inodeOf id
    let newParent ← inodeOf newParent
    Tree.link inode newParent (← nameOf newName)
    return .entry (← Kernel.attributes inode)
  | unlink parent name => do
    let parent ← inodeOf parent
    Tree.unlink parent (← nameOf name)
    return .done
  | rmdir parent name => do
    let parent ← inodeOf parent
    Tree.rmdir parent (← nameOf name)
    return .done
  | rename parent name newParent newName => do
    let parent ← inodeOf parent
    let name ← nameOf name
    let newParent ← inodeOf newParent
    Tree.rename parent name newParent (← nameOf newName)
    return .done
  | read id offset size => do
    let inode ← inodeOf id
    let offset ← offsetOf offset
    return .data (← query (Tree.read · inode offset size))
  | write id offset data => do
    let inode ← inodeOf id
    let offset ← offsetOf offset
    return .written (← Tree.write inode offset data)
  | readdir id offset size => do
    let inode ← inodeOf id
    let offset ← offsetOf offset
    return .listing (← query (Listing.read · inode offset size))

end Request
end InodeVolume.Kernel
