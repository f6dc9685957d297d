import InodeVolume.Proofs.Tree.History
import InodeVolume.Proofs.Tree.Listing

namespace InodeVolume

open VolumeM Volume

namespace Volume

variable {v : Volume} {files : Nat → Option FileState} {h i : Nat} {f : FileState}

def Known (v : Volume) (i : Nat) : Prop :=
  i = rootInode ∨ ∃ d name, v.Lists d name i

theorem Holds.walks_of_continues (hv : v.Holds files) (hc : v.Continues i) :
    ∃ c l, v.Walks i ((i, c) :: l) := by
  have ⟨chains, hs, _⟩ := hv
  have ⟨k, d, hk, hn⟩ := hc
  have ⟨h, hm⟩ := (hs.links k d).mp hk
  have hne : chains h ≠ [] := List.ne_nil_of_mem hm
  have ⟨c, hi⟩ := Chain.mem_numbers.mp ((hs.leads h hne).next_mem hm hn)
  have ⟨before, l, hl⟩ := List.append_of_mem hi
  exact ⟨c, l, (hl ▸ walks_chain hs hne).drop⟩

theorem Holds.exists_continues (hv : v.Holds files) (hf : files h = some f)
    (hlen : inodeCapacity < f.bytes.length) : ∃ i, v.Continues i := by
  have ⟨chains, hs, _, c, l, hl, _, _, hb⟩ := hv.exists_chain hf
  have hlead := hs.leads h (by simp [hl])
  have hsize := Chain.size_le (hs.formed h)
  rw [← hb, Chain.length_content] at hlen
  cases l
  case nil =>
    rw [hl, List.length_singleton, Nat.one_mul, ← hl] at hsize
    omega
  case cons x l =>
    rw [hl] at hlead
    exact ⟨x.1, h, c, hs.link (h := h) (by simp [hl]), hlead.right.left⟩

end Volume

namespace Settled

variable {v : Volume} {files : Nat → Option FileState} {i : Nat}

theorem known_or_continues (s : Settled False False files) (hv : v.Holds files)
    (ht : v.inodeTaken i) : v.Known i ∨ v.Continues i := by
  by_cases hc : v.Continues i
  case pos => exact .inr hc
  case neg =>
    have ⟨f, hf⟩ := hv.head_iff.mp ⟨ht, hc⟩
    by_cases h0 : i = rootInode
    case pos => exact .inl (.inl h0)
    case neg =>
      have ⟨_, a, _⟩ := s
      have ⟨d, name, _, hl⟩ := (a.names_iff hv).mpr (s.named hf h0)
      exact .inl (.inr ⟨d, name, hl⟩)

theorem not_known_of_continues (s : Settled False False files) (hv : v.Holds files)
    (hc : v.Continues i) : ¬v.Known i := by
  have ⟨_, a, _⟩ := s
  have hhead : ¬v.Head i := fun h => h.right hc
  intro hk
  cases hk
  case inl h0 =>
    have ⟨f, hf, _⟩ := a.exists_root
    exact hhead (h0 ▸ hv.head_iff.mpr ⟨f, hf⟩)
  case inr hl =>
    have ⟨d, name, hl⟩ := hl
    have ⟨x, hx, hm⟩ := (a.lists_iff hv).mp hl
    have ht := a.consistent.named d x name i hx hm
    rw [isSome_graph, Option.isSome_iff_exists] at ht
    exact hhead (hv.head_iff.mpr ht)

end Settled

namespace Tree

variable {v : Volume} {i : Nat} {steps : List (Volume × Operation)} {op : Operation}

def Node.numbers : Node → List Nat
  | .inode n => [n]
  | .path _  => []

def Operation.numbers : Operation → List Nat
  | .access node | .stat node | .read node _ _ | .list node
  | .truncate node _ | .write node _ _ | .chmod node _ => node.numbers
  | .lookup parent _ | .mknod parent _ _ | .unlink parent _ | .rmdir parent _ => [parent]
  | .link inode newParent _ => [inode, newParent]
  | .rename parent _ newParent _ => [parent, newParent]
  | _ => []

def Operation.OnFiles (v : Volume) (op : Operation) : Prop :=
  ∀ i ∈ op.numbers, v.Head i

theorem Operation.OnFiles.not_plants (h : op.OnFiles v) (kind : NodeKind) : ¬op.Plants kind v := by
  intro ⟨parent, name, mode, i, hop, _, ht, _⟩
  subst hop
  have hp := (h parent List.mem_cons_self).left
  rw [ht] at hp
  contradiction

theorem Run.settled_of_onFiles (r : Run steps v) (ho : ∀ s ∈ steps, s.2.OnFiles s.1) :
    ∃ files, v.Holds files ∧ Settled False False files := by
  have none : ∀ kind, ¬Planted kind steps := fun kind ⟨s, hs, hp⟩ => (ho s hs).not_plants kind hp
  have ⟨files, hv, s⟩ := r.settled
  exact ⟨files, hv, s.mono (none _) (none _)⟩

theorem stat_of_walks {c : Inode} {l : Chain} (hw : v.Walks i ((i, c) :: l)) :
    stat v i = .ok ⟨i, c.size + l.size, blocksFor (c.size + l.size), c.mode, c.refs⟩ := by
  rw [stat, inode_of_link? (hw.links i c List.mem_cons_self), hw.fileSize_eq]
  rfl

end Tree
end InodeVolume
