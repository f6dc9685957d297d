import InodeVolume.Proofs.File.State
import Mathlib.Algebra.BigOperators.Group.Finset.Basic

namespace InodeVolume

namespace Volume

theorem continues_iff {v : Volume} {i : Nat} :
    v.Continues i ↔ ∃ k < inodeCount, (v.link? k).any fun c => c.next = some i := by
  constructor
  case mp =>
    intro ⟨k, c, hk, hn⟩
    exact ⟨k, lt_of_link? hk, by simp [hk, hn]⟩
  case mpr =>
    intro ⟨k, _, hk⟩
    have ⟨c, hc, hn⟩ := (Option.any_eq_true _ _).mp hk
    exact ⟨k, c, hc, by simpa using hn⟩

instance (v : Volume) (i : Nat) : Decidable (v.Continues i) :=
  decidable_of_iff _ continues_iff.symm

instance (v : Volume) (i : Nat) : Decidable (v.Head i) :=
  inferInstanceAs (Decidable (_ ∧ _))

def heads (v : Volume) : Finset Nat :=
  (Finset.range inodeCount).filter v.Head

def Chains (v : Volume) (h i : Nat) (c : Inode) : Prop :=
  v.Head h ∧ ∃ l, v.chain h = .ok l ∧ (i, c) ∈ l

def Stores (v : Volume) (h i s b : Nat) : Prop :=
  ∃ c, v.Chains h i c ∧ c.slot s = some b

variable {v : Volume} {chains : Nat → Chain} {h i s b : Nat} {c : Inode}

theorem mem_heads : h ∈ v.heads ↔ v.Head h := by
  rw [heads, Finset.mem_filter, Finset.mem_range]
  refine and_iff_right_of_imp fun ⟨ht, _⟩ => ?_
  rw [inodeTaken, Bool.and_eq_true, decide_eq_true_iff] at ht
  exact ht.left

end Volume

namespace Sound

open Volume

variable {v : Volume} {chains : Nat → Chain} {h k i j s t b : Nat} {c d : Inode}

theorem head_iff (hs : Sound v.link? v.blockTaken chains) : v.Head h ↔ chains h ≠ [] := by
  have hv : v.Holds fun h => (chains h).file v.byte := ⟨chains, hs, fun _ => rfl⟩
  rw [hv.head_iff, ← Option.ne_none_iff_exists', ne_eq, Chain.file_eq_none]

theorem chains_iff (hs : Sound v.link? v.blockTaken chains) : v.Chains h i c ↔ (i, c) ∈ chains h := by
  rw [Volume.Chains, hs.head_iff]
  constructor
  case mp =>
    intro ⟨hne, l, hl, hm⟩
    rw [chain_eq hs hne, Except.ok.injEq] at hl
    exact hl ▸ hm
  case mpr =>
    intro hm
    have hne : chains h ≠ [] := List.ne_nil_of_mem hm
    exact ⟨hne, _, chain_eq hs hne, hm⟩

theorem wellFormed (hs : Sound v.link? v.blockTaken chains) (hc : v.Chains h i c) : c.WellFormed :=
  hs.formed h _ (hs.chains_iff.mp hc)

theorem exists_stores_iff (hs : Sound v.link? v.blockTaken chains) :
    (∃ i s, v.Stores h i s b) ↔ b ∈ (chains h).blocks := by
  rw [Chain.mem_blocks]
  constructor
  case mp =>
    intro ⟨i, s, c, hc, hb⟩
    exact ⟨i, c, hs.chains_iff.mp hc, (hs.wellFormed hc).mem_owned.mpr ⟨s, hb⟩⟩
  case mpr =>
    intro ⟨i, c, hm, hb⟩
    have ⟨s, hb⟩ := (hs.formed h _ hm).mem_owned.mp hb
    exact ⟨i, s, c, hs.chains_iff.mpr hm, hb⟩

theorem stores_unique (hs : Sound v.link? v.blockTaken chains) (hi : v.Stores h i s b)
    (hj : v.Stores k j t b) : h = k ∧ i = j ∧ s = t := by
  obtain rfl := hs.alone h k b (hs.exists_stores_iff.mp ⟨i, s, hi⟩) (hs.exists_stores_iff.mp ⟨j, t, hj⟩)
  have ⟨c, hc, hcb⟩ := hi
  have ⟨d, hd, hdb⟩ := hj
  have ⟨he, hst⟩ := Chain.slot_unique (hs.blocks h) (hs.formed h) (hs.chains_iff.mp hc)
    (hs.chains_iff.mp hd) hcb hdb
  exact ⟨rfl, (Prod.mk.inj he).left, hst⟩

end Sound

theorem countP_range_eq {n : Nat} {p : Nat → Bool} {base : List Nat} {owners : Finset Nat}
    {items : Nat → List Nat} (hbase : base.Nodup) (hitems : ∀ h, (items h).Nodup)
    (alone : ∀ h k x, x ∈ items h → x ∈ items k → h = k) (apart : ∀ h, base.Disjoint (items h))
    (hp : ∀ x, x < n ∧ p x ↔ x ∈ base ∨ ∃ h ∈ owners, x ∈ items h) :
    (List.range n).countP p = base.length + ∑ h ∈ owners, (items h).length := by
  have hset : ((List.range n).filter p).toFinset =
      base.toFinset ∪ owners.biUnion fun h => (items h).toFinset := by
    ext x
    simp only [List.mem_toFinset, List.mem_filter, List.mem_range, hp, Finset.mem_union,
      Finset.mem_biUnion]
  have hapart : Disjoint base.toFinset (owners.biUnion fun h => (items h).toFinset) := by
    simp only [Finset.disjoint_left, List.mem_toFinset, Finset.mem_biUnion, not_exists, not_and]
    exact fun x hx h _ hm => apart h hx hm
  have halone : (owners : Set Nat).PairwiseDisjoint fun h => (items h).toFinset := by
    intro h _ k _ hne
    simp only [Function.onFun, Finset.disjoint_left, List.mem_toFinset]
    exact fun x hx hy => hne (alone h k x hx hy)
  rw [List.countP_eq_length_filter, ← List.toFinset_card_of_nodup (List.nodup_range.filter _), hset,
    Finset.card_union_of_disjoint hapart, Finset.card_biUnion halone,
    List.toFinset_card_of_nodup hbase]
  congr 1
  exact Finset.sum_congr rfl fun h _ => List.toFinset_card_of_nodup (hitems h)

namespace Volume

variable {v : Volume}

theorem clearBits_add (v : Volume) (a n : Nat) :
    v.clearBits a n + (List.range n).countP (v.bit a) = n := by
  have := List.length_eq_countP_add_countP (v.bit a) (l := List.range n)
  simp only [List.length_range, Bool.not_eq_true, Bool.decide_eq_false] at this
  rw [clearBits, Nat.add_comm, ← this]

end Volume

namespace Sound

open Volume

variable {v : Volume} {chains : Nat → Chain} {h i b : Nat}

theorem bit_iff (hs : Sound v.link? v.blockTaken chains) (hb : b < blockCount) :
    v.bit blockMapStart b ↔ b < reservedBlocks ∨ ∃ h, b ∈ (chains h).blocks := by
  rw [← hs.taken, blockTaken, Bool.and_eq_true, decide_eq_true_iff, and_iff_right hb]

theorem block_lt (hs : Sound v.link? v.blockTaken chains) (hb : b ∈ (chains h).blocks) :
    b < blockCount :=
  lt_of_blockTaken (hs.taken_of_mem hb)

theorem freeBlocks_add (hs : Sound v.link? v.blockTaken chains) :
    v.freeBlocks + ∑ h ∈ v.heads, blocksFor (chains h).size = blockCount - reservedBlocks := by
  have hcount : (List.range blockCount).countP (v.bit blockMapStart) =
      (List.range reservedBlocks).length + ∑ h ∈ v.heads, (chains h).blocks.length := by
    refine countP_range_eq List.nodup_range hs.blocks hs.alone ?_ fun b => ?_
    case refine_1 =>
      intro h b hr hb
      exact absurd (hs.beyond h b hb) (Nat.not_le.mpr (List.mem_range.mp hr))
    case refine_2 =>
      simp only [List.mem_range, mem_heads, hs.head_iff]
      constructor
      case mp =>
        intro ⟨hlt, hb⟩
        refine ((hs.bit_iff hlt).mp hb).imp_right fun ⟨h, hm⟩ => ⟨h, ?_, hm⟩
        intro e
        simp [e] at hm
      case mpr =>
        intro hb
        have hlt : b < blockCount := by
          cases hb
          case inl hr => lia
          case inr hm => have ⟨_, _, hm⟩ := hm; exact hs.block_lt hm
        exact ⟨hlt, (hs.bit_iff hlt).mpr (hb.imp_right fun ⟨h, _, hm⟩ => ⟨h, hm⟩)⟩
  have hall := clearBits_add v blockMapStart blockCount
  rw [hcount, List.length_range] at hall
  simp only [hs.length_blocks] at hall
  rw [freeBlocks]
  omega

theorem bit_inode_iff (hs : Sound v.link? v.blockTaken chains) (hi : i < inodeCount) :
    v.bit inodeMapStart i ↔ ∃ h, i ∈ (chains h).numbers := by
  rw [← hs.isSome_iff, isSome_link?, inodeTaken, Bool.and_eq_true, decide_eq_true_iff,
    and_iff_right hi]

theorem number_lt (hs : Sound v.link? v.blockTaken chains) (hi : i ∈ (chains h).numbers) :
    i < inodeCount := by
  have ⟨_, hm⟩ := Chain.mem_numbers.mp hi
  exact lt_of_link? (hs.link hm)

theorem freeInodes_add (hs : Sound v.link? v.blockTaken chains) :
    v.freeInodes + ∑ h ∈ v.heads, (chains h).numbers.length = inodeCount := by
  have hcount : (List.range inodeCount).countP (v.bit inodeMapStart) =
      ([] : List Nat).length + ∑ h ∈ v.heads, (chains h).numbers.length := by
    refine countP_range_eq List.nodup_nil hs.numbers hs.apart (by simp) fun i => ?_
    simp only [List.not_mem_nil, false_or, mem_heads, hs.head_iff]
    constructor
    case mp =>
      intro ⟨hlt, hi⟩
      have ⟨h, hm⟩ := (hs.bit_inode_iff hlt).mp hi
      exact ⟨h, by intro e; simp [e] at hm, hm⟩
    case mpr =>
      intro ⟨h, _, hm⟩
      have hlt := hs.number_lt hm
      exact ⟨hlt, (hs.bit_inode_iff hlt).mpr ⟨h, hm⟩⟩
  have hall := clearBits_add v inodeMapStart inodeCount
  rw [hcount, List.length_nil, Nat.zero_add] at hall
  exact hall

end Sound

end InodeVolume
