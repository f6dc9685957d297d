import InodeVolume.Proofs.Tree.Listing
import InodeVolume.Proofs.Tree.Strays

namespace InodeVolume

open Volume

structure InodesOwned (v : Volume) : Prop where
  owner   : ∀ i < inodeCount, v.bit inodeMapStart i → ∃ h c, v.Chains h i c
  apart   : ∀ h k i c d, v.Chains h i c → v.Chains k i d → h = k
  link    : ∀ h i c, v.Chains h i c → v.inode i = .ok c
  acyclic : ∀ h, v.Head h → ∃ l, v.chain h = .ok l ∧ (l.map (·.1)).Nodup
  head    : ∀ h, v.Head h ↔ h = rootInode ∨ v.Names h
  entry   : ∀ d name t, v.Lists d name t → v.Head t
  next    : ∀ i c n, v.inode i = .ok c → c.next = some n → v.inodeTaken n
  free    : ∃ length : Nat → Nat, (∀ h, v.Head h → v.chainLength h = .ok (length h)) ∧
    v.usage.freeInodes + ∑ h ∈ v.heads, length h = inodeCount

namespace Sound

variable {v : Volume} {chains : Nat → Chain} {h i : Nat}

theorem exists_chains_iff (hs : Sound v.link? v.blockTaken chains) :
    (∃ c, v.Chains h i c) ↔ i ∈ (chains h).numbers := by
  simp only [hs.chains_iff, Chain.mem_numbers]

end Sound

variable {v : Volume} {crooked : Prop} {files : Nat → Option FileState}

theorem Settled.inodesOwned (s : Settled False crooked files) (hv : v.Holds files) :
    InodesOwned v := by
  have ⟨_, a, _⟩ := s
  have ⟨chains, hs, _⟩ := hv
  exact {
    owner   := by
      intro i hi hb
      have ⟨h, hm⟩ := (hs.bit_inode_iff hi).mp hb
      exact ⟨h, hs.exists_chains_iff.mpr hm⟩
    apart   := fun h k i c d hc hd =>
      hs.apart h k i (hs.exists_chains_iff.mp ⟨c, hc⟩) (hs.exists_chains_iff.mp ⟨d, hd⟩)
    link    := fun h i c hc => inode_of_link? (hs.link (hs.chains_iff.mp hc))
    acyclic := fun h hh => ⟨_, chain_eq hs (hs.head_iff.mp hh), hs.numbers h⟩
    head    := by
      intro h
      rw [hv.head_iff, a.names_iff hv]
      constructor
      case mp  => exact fun ⟨f, hf⟩ => or_iff_not_imp_left.mpr (s.named hf)
      case mpr =>
        intro hn
        cases hn
        case inl h0 => exact h0 ▸ have ⟨f, hf, _⟩ := a.exists_root; ⟨f, hf⟩
        case inr hn => exact s.exists_of_named hn
    entry   := by
      intro d name t ht
      have ⟨x, hx, hm⟩ := (a.lists_iff hv).mp ht
      rw [hv.head_iff]
      exact Option.isSome_iff_exists.mp (isSome_graph ▸ a.consistent.named d x name t hx hm)
    next    := by
      intro i c n hi hn
      have ⟨h, hm⟩ := (hs.links i c).mp (inode_eq_ok_iff.mp hi)
      have := (hs.leads h (List.ne_nil_of_mem hm)).next_mem hm hn
      rw [← isSome_link?, hs.isSome_iff]
      exact ⟨h, this⟩
    free    := by
      refine ⟨fun h => (chains h).numbers.length, fun h hh => ?_, hs.freeInodes_add⟩
      rw [chainLength_eq hs (hs.head_iff.mp hh)]
      exact congrArg Except.ok (List.length_map ..).symm
  }

namespace Tree

variable {steps : List (Volume × Operation)} {op : Operation}

theorem Run.not_inodesOwned (r : Run steps v) (ha : op.Admissible v) (hp : op.Plants .regular v) :
    ¬InodesOwned (op.perform v).2 := by
  have ⟨files, hv, s⟩ := r.settled
  have ⟨files', i, f, hw, ⟨_, a, _⟩, h0, hf, _, hn⟩ := hp.regular s hv ha
  intro owned
  exact ((owned.head i).mp (hw.head_iff.mpr ⟨f, hf⟩)).elim h0 (mt (a.names_iff hw).mp hn)

-- A regular file that is planted is what no name leads to, and nothing else is lost ever.
theorem Run.owns_inodes_iff (r : Run steps v) :
    (∀ u ∈ v :: steps.map (·.1), InodesOwned u) ↔ ∀ s ∈ steps, ¬s.2.Plants .regular s.1 := by
  refine always_iff (p := InodesOwned) (b := fun s => s.2.Plants .regular s.1) ?_ ?_ r
  case refine_1 =>
    intro steps v r h
    have ⟨files, hv, s⟩ := r.settled
    have s : Settled False (Planted .directory steps) files := s.mono (fun ⟨x, hx, hp⟩ => h x hx hp) id
    exact s.inodesOwned hv
  case refine_2 => exact fun steps v op r ha hp => r.not_inodesOwned ha hp

theorem owns_inodes_stray :
    let op := Operation.mknod 1 "x" 0o100644
    let v := (op.perform .fresh).2
    Run [(.fresh, op)] v ∧
      ((∀ u ∈ [v, .fresh], InodesOwned u) ↔ ∀ s ∈ [(fresh, op)], ¬s.2.Plants .regular s.1) :=
  have r := Run.fresh (Operation.plants_fresh .regular 0o100644 (by decide) (by decide)).left
  ⟨r, r.owns_inodes_iff⟩

theorem inodes_not_owned_stray :
    let v := ((Operation.mknod 1 "x" 0o100644).perform .fresh).2
    Reachable v ∧ ¬InodesOwned v :=
  not_stray .regular (by decide) (by decide) Run.start_fresh.not_inodesOwned

end Tree
end InodeVolume
