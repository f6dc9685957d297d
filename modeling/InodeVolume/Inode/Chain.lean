import InodeVolume.Inode.Table

namespace InodeVolume

abbrev Link : Type := Nat × Inode

namespace Volume

def chainFrom (v : Volume) : (limit link : Nat) → Except Fault (List Link)
  | 0, _ => .error (.errno .io)
  | limit + 1, link => do
    let inode ← v.inode link
    match inode.next with
    | none      => return [(link, inode)]
    | some next => return (link, inode) :: (← v.chainFrom limit next)

def chain (v : Volume) (head : Nat) : Except Fault (List Link) :=
  v.chainFrom inodeCount head

def chainLength (v : Volume) (head : Nat) : Except Fault Nat := do
  return (← v.chain head).length

def fileSize (v : Volume) (head : Nat) : Except Fault Nat := do
  return (← v.chain head).foldr (fun link total => link.2.size + total) 0

def lastLink (v : Volume) (head : Nat) : Except Fault (Link × List Link) := do
  match (← v.chain head).reverse with
  | []             => .error (.errno .io)
  | last :: before => return (last, before)

def blockFrom (v : Volume) (slot : Fin slotsPerInode) :
    (limit skip link : Nat) → Except Fault (Option Nat)
  | 0, _, _ => .error (.errno .io)
  | limit + 1, skip, link => do
    let inode ← v.inode link
    match skip, inode.next with
    | 0, _             => return inode.blocks[slot]
    | _ + 1, none      => return none
    | skip + 1, some n => v.blockFrom slot limit skip n

-- The block that holds the `n`-th block of a file. The walk goes no further than it has to, so a
-- chain that goes wrong behind that place goes unnoticed; so it may also take one link more.
def fileBlock (v : Volume) (head n : Nat) : Except Fault (Option Nat) :=
  v.blockFrom (Fin.ofNat slotsPerInode n) (inodeCount + 1) (n / slotsPerInode) head

end Volume
end InodeVolume
