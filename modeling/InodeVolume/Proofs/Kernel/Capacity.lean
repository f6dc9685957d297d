import InodeVolume.Kernel.Request
import InodeVolume.Proofs.Tree.Restoration

namespace InodeVolume

open Volume

namespace Kernel

def Measures (v : Volume) (size length : Nat → Nat) : Prop :=
  ∀ h, v.Head h → v.fileSize h = .ok (size h) ∧ v.chainLength h = .ok (length h)

namespace Capacity

structure AccountsBlocks (c : Capacity) (v : Volume) (size : Nat → Nat) : Prop where
  free      : c.free ≤ c.blocks
  used      : c.blocks - c.free = reservedBlocks + ∑ h ∈ v.heads, blocksFor (size h)
  available : c.available = c.free

structure AccountsInodes (c : Capacity) (v : Volume) (length : Nat → Nat) : Prop where
  free : c.freeFiles ≤ c.files
  used : c.files - c.freeFiles = ∑ h ∈ v.heads, length h

end Capacity

theorem serve_statfs (v : Volume) :
    Request.serve .statfs v = (.ok (.capacity (.ofUsage v.usage)), v) :=
  rfl

end Kernel

namespace Sound

open Kernel

variable {v : Volume} {chains : Nat → Chain}

theorem measures (hs : Sound v.link? v.blockTaken chains) :
    Measures v (fun h => (chains h).size) fun h => (chains h).numbers.length := by
  intro h hh
  have hne := hs.head_iff.mp hh
  refine ⟨fileSize_eq hs hne, ?_⟩
  rw [chainLength_eq hs hne]
  exact congrArg Except.ok (List.length_map ..).symm

theorem accountsBlocks (hs : Sound v.link? v.blockTaken chains) :
    (Capacity.ofUsage v.usage).AccountsBlocks v fun h => (chains h).size := by
  have hfree := hs.freeBlocks_add
  have hle : reservedBlocks ≤ blockCount := by decide
  constructor
  case free      => show v.freeBlocks ≤ blockCount; omega
  case used      => show blockCount - v.freeBlocks = _; omega
  case available => rfl

end Sound

namespace Tree

open Kernel

variable {v : Volume}

-- What a kernel is told of the blocks accounts for all files. Of the inodes it is told as well how
-- many the files have, but as if these were all that there are: so it does not account for them,
-- unless no inode is free.
theorem Reachable.capacity_exact (r : Reachable v) :
    ∃ c size length, Request.serve .statfs v = (.ok (.capacity c), v) ∧ Measures v size length ∧
      c.blocks = blockCount ∧ c.AccountsBlocks v size ∧
      c.files = ∑ h ∈ v.heads, length h ∧ c.files + c.freeFiles = inodeCount ∧
      (c.AccountsInodes v length ↔ c.freeFiles = 0) := by
  have ⟨_, r⟩ := r
  have ⟨_, ⟨chains, hs, _⟩, _⟩ := r.settled
  have hinodes := hs.freeInodes_add
  have hfiles : v.usage.usedInodes = ∑ h ∈ v.heads, (chains h).numbers.length := by
    show inodeCount - v.freeInodes = _
    omega
  refine ⟨.ofUsage v.usage, _, _, serve_statfs v, hs.measures, rfl, hs.accountsBlocks, hfiles, ?_, ?_⟩
  case refine_1 => exact (congrArg (· + v.freeInodes) hfiles).trans (by omega)
  case refine_2 =>
    constructor
    case mp =>
      intro ⟨hle, hused⟩
      -- the inodes in use, less those that are free, are again the inodes in use
      rw [← hfiles] at hused
      change v.freeInodes ≤ inodeCount - v.freeInodes at hle
      change inodeCount - v.freeInodes - v.freeInodes = inodeCount - v.freeInodes at hused
      show v.freeInodes = 0
      omega
    case mpr =>
      intro h0
      exact ⟨h0 ▸ Nat.zero_le _, by rw [h0, Nat.sub_zero]; exact hfiles⟩

theorem capacity_exact_mkdir :
    let v := ((Operation.mkdirAt "/a" 0o755).perform .fresh).2
    Reachable v ∧
      ∃ c size length, Request.serve .statfs v = (.ok (.capacity c), v) ∧ Measures v size length ∧
        c.blocks = blockCount ∧ c.AccountsBlocks v size ∧
        c.files = ∑ h ∈ v.heads, length h ∧ c.files + c.freeFiles = inodeCount ∧
        (c.AccountsInodes v length ↔ c.freeFiles = 0) :=
  have r := Run.reachable_mkdirAt "/a" 0o755 (by decide)
  ⟨r, r.capacity_exact⟩

theorem not_accountsInodes_fresh :
    Reachable .fresh ∧ ∃ c, Request.serve .statfs .fresh = (.ok (.capacity c), .fresh) ∧
      c.files = 1 ∧ c.freeFiles = 255 ∧ ¬∃ length, c.AccountsInodes .fresh length := by
  have hfree := holds_fresh.freeInodes_root
  have hused : Volume.fresh.usage.usedInodes = 1 := by
    show inodeCount - Volume.fresh.freeInodes = 1
    rw [hfree]
    rfl
  refine ⟨Run.start_fresh.reachable, _, serve_statfs .fresh, hused, hfree, fun ⟨_, hle, _⟩ => ?_⟩
  change Volume.fresh.freeInodes ≤ Volume.fresh.usage.usedInodes at hle
  omega

end Tree
end InodeVolume
