import InodeVolume.Path
import InodeVolume.Tree.Basic

namespace InodeVolume.Tree

open VolumeM

def resolve (path : String) : VolumeM Nat :=
  query (·.resolve rootInode path)

def locate (path : String) : VolumeM (Nat × String) :=
  query (·.locate rootInode path)

def mknodAt (path : String) (mode : UInt32) : VolumeM Nat := do
  expectAbsent (·.resolve rootInode path)
  let (parent, leaf) ← locate path
  mknod parent leaf mode

def mkdirAt (path : String) (mode : UInt32) : VolumeM Nat :=
  mknodAt path (Mode.directory ||| Mode.permissions mode)

def linkAt (path newPath : String) : VolumeM Unit := do
  let inode ← resolve path
  expectAbsent (·.resolve rootInode newPath)
  let (parent, leaf) ← locate newPath
  link inode parent leaf

def unlinkAt (path : String) : VolumeM Unit := do
  let (parent, leaf) ← locate path
  unlink parent leaf

def rmdirAt (path : String) : VolumeM Unit := do
  let (parent, leaf) ← locate path
  rmdir parent leaf

def renameAt (path newPath : String) : VolumeM Unit := do
  let (parent, leaf) ← locate path
  let (newParent, newLeaf) ← locate newPath
  rename parent leaf newParent newLeaf

end InodeVolume.Tree
