import InodeVolume.Kernel.Basic

namespace InodeVolume.Kernel

structure ListedEntry where
  id     : Nat
  offset : Nat
  kind   : NodeKind
  name   : String
  deriving DecidableEq, Repr

namespace ListedEntry

def size (e : ListedEntry) : Nat :=
  (24 + (Utf8.bytes e.name).length + 7) / 8 * 8

end ListedEntry

namespace Listing

def page (room : Nat) : List ListedEntry → List ListedEntry
  | []           => []
  | e :: entries => if e.size ≤ room then e :: page (room - e.size) entries else []

def number (v : Volume) (offset : Nat) : List (String × Nat) → Except Fault (List ListedEntry)
  | []                     => .ok []
  | (name, inode) :: rest => do
    let s ← Tree.stat v inode
    return ⟨nodeId inode, offset + 1, s.kind.reported, name⟩ :: (← number v (offset + 1) rest)

-- Every entry left is looked at, also one that does not fit any more.
def read (v : Volume) (inode offset room : Nat) : Except Fault (List ListedEntry) := do
  return page room (← number v offset ((← Tree.list v inode).drop offset))

end Listing
end InodeVolume.Kernel
