import InodeVolume.Tree.Path

namespace InodeVolume.Tree

inductive Node where
  | inode (n : Nat)
  | path (p : String)
  deriving DecidableEq, Repr

inductive Operation where
  | access (node : Node)
  | stat (node : Node)
  | lookup (parent : Nat) (name : String)
  | read (node : Node) (offset len : Nat)
  | list (node : Node)
  | usage
  | sync
  | reset
  | mknod (parent : Nat) (name : String) (mode : UInt32)
  | mknodAt (path : String) (mode : UInt32)
  | mkdirAt (path : String) (mode : UInt32)
  | link (inode newParent : Nat) (newName : String)
  | linkAt (path newPath : String)
  | unlink (parent : Nat) (name : String)
  | unlinkAt (path : String)
  | rmdir (parent : Nat) (name : String)
  | rmdirAt (path : String)
  | rename (parent : Nat) (name : String) (newParent : Nat) (newName : String)
  | renameAt (path newPath : String)
  | truncate (node : Node) (size : Nat)
  | write (node : Node) (offset : Nat) (data : List UInt8)
  | chmod (node : Node) (mode : UInt32)
  deriving DecidableEq, Repr

inductive Answer where
  | done
  | stat (s : Stat)
  | inode (n : Nat)
  | bytes (data : List UInt8)
  | entries (list : List (String × Nat))
  | usage (u : Usage)
  | count (n : Nat)
  deriving DecidableEq, Repr

open VolumeM

def Node.find : Node → VolumeM Nat
  | .inode n => return n
  | .path p  => resolve p

namespace Operation

def perform : Operation → VolumeM Answer
  | access node => do
    query (Tree.access · (← node.find))
    return .done
  | stat node => do return .stat (← query (Tree.stat · (← node.find)))
  | lookup parent name => do return .inode (← query (Tree.lookup · parent name))
  | read node offset len => do return .bytes (← query (Tree.read · (← node.find) offset len))
  | list node => do return .entries (← query (Tree.list · (← node.find)))
  | usage => do return .usage (← query fun v => .ok v.usage)
  -- A volume has no bytes that are still to be written.
  | sync => return .done
  | reset => do Tree.reset; return .done
  | mknod parent name mode => do return .inode (← Tree.mknod parent name mode)
  | mknodAt path mode => do return .inode (← Tree.mknodAt path mode)
  | mkdirAt path mode => do return .inode (← Tree.mkdirAt path mode)
  | link inode newParent newName => do Tree.link inode newParent newName; return .done
  | linkAt path newPath => do Tree.linkAt path newPath; return .done
  | unlink parent name => do Tree.unlink parent name; return .done
  | unlinkAt path => do Tree.unlinkAt path; return .done
  | rmdir parent name => do Tree.rmdir parent name; return .done
  | rmdirAt path => do Tree.rmdirAt path; return .done
  | rename parent name newParent newName => do
    Tree.rename parent name newParent newName
    return .done
  | renameAt path newPath => do Tree.renameAt path newPath; return .done
  | truncate node size => do
    Tree.truncate (← node.find) size
    return .done
  | write node offset data => do return .count (← Tree.write (← node.find) offset data)
  | chmod node mode => do
    Tree.chmod (← node.find) mode
    return .done

end Operation
end InodeVolume.Tree
