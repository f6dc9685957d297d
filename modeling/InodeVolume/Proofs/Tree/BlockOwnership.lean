import InodeVolume.Proofs.File.Heads
import InodeVolume.Proofs.Tree.History

namespace InodeVolume

open Volume

structure BlocksOwned (v : Volume) : Prop where
  walk    : ∀ h, v.Head h → ∃ l, v.chain h = .ok l
  bounded : ∀ h i c, v.Chains h i c → c.size ≤ inodeCapacity
  filled  : ∀ h i c s, v.Chains h i c → s < slotsPerInode →
    ((c.slot s).isSome ↔ s < blocksFor c.size)
  packed  : ∀ h i c, v.Chains h i c → c.next.isSome → c.size = inodeCapacity
  range   : ∀ h i s b, v.Stores h i s b → reservedBlocks ≤ b ∧ b < blockCount
  once    : ∀ h i s k j t b, v.Stores h i s b → v.Stores k j t b → h = k ∧ i = j ∧ s = t
  taken   : ∀ b < blockCount,
    v.bit blockMapStart b ↔ b < reservedBlocks ∨ ∃ h i s, v.Stores h i s b
  free    : ∃ size : Nat → Nat, (∀ h, v.Head h → v.fileSize h = .ok (size h)) ∧
    v.usage.freeBlocks + ∑ h ∈ v.heads, blocksFor (size h) = blockCount - reservedBlocks
  stat    : ∀ h, v.Head h → ∃ (s : Stat) (bs : List Nat), Tree.stat v h = .ok s ∧ bs.Nodup ∧
    (∀ b, b ∈ bs ↔ ∃ i t, v.Stores h i t b) ∧ s.blocks = bs.length

namespace Sound

variable {v : Volume} {chains : Nat → Chain}

theorem blocksOwned (hs : Sound v.link? v.blockTaken chains) : BlocksOwned v where
  walk    := fun h hh => ⟨_, chain_eq hs (hs.head_iff.mp hh)⟩
  bounded := fun h i c hc => (hs.wellFormed hc).bounded
  filled  := fun h i c s hc _ => (hs.wellFormed hc).filled s
  packed  := fun h i c hc => (hs.wellFormed hc).packed
  range   := by
    intro h i s b hb
    have hm := hs.exists_stores_iff.mp ⟨i, s, hb⟩
    exact ⟨hs.beyond h b hm, hs.block_lt hm⟩
  once    := fun h i s k j t b => hs.stores_unique
  taken   := by
    intro b hb
    simp only [hs.bit_iff hb, hs.exists_stores_iff]
  free    :=
    ⟨fun h => (chains h).size, fun h hh => fileSize_eq hs (hs.head_iff.mp hh), hs.freeBlocks_add⟩
  stat    := by
    intro h hh
    have hne := hs.head_iff.mp hh
    have ⟨a, l, hl⟩ := List.exists_cons_of_ne_nil hne
    have ⟨ha, _⟩ := hl ▸ hs.leads h hne
    obtain rfl := Option.some.inj ha
    have hstat : Tree.stat v a.1 = .ok ⟨a.1, (chains a.1).size, blocksFor (chains a.1).size,
        a.2.mode, a.2.refs⟩ := by
      rw [Tree.stat, inode_of_link? (hs.link_of_eq (l := []) hl), fileSize_eq hs hne]
      rfl
    exact ⟨_, _, hstat, hs.blocks _, fun b => hs.exists_stores_iff.symm, (hs.length_blocks _).symm⟩

end Sound

namespace Tree

theorem Reachable.owns_blocks {v : Volume} (r : Reachable v) : BlocksOwned v :=
  have ⟨_, r⟩ := r
  have ⟨_, ⟨_, hs, _⟩, _⟩ := r.settled
  hs.blocksOwned

theorem owns_blocks_mkdir :
    let v := ((Operation.mkdirAt "/a" 0o755).perform .fresh).2
    Reachable v ∧ BlocksOwned v :=
  have r := Run.reachable_mkdirAt "/a" 0o755 (by decide)
  ⟨r, r.owns_blocks⟩

end Tree
end InodeVolume
