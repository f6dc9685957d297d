import InodeVolume.File.Growth
import InodeVolume.File.Shrinkage
import InodeVolume.Proofs.Inode.Record

namespace InodeVolume.Inode

-- The first slots are in use, as many as the size asks for, and no others. Only a full inode has
-- another one after it.
structure WellFormed (c : Inode) : Prop where
  bounded : c.size ≤ inodeCapacity
  filled  : ∀ s, (c.slot s).isSome ↔ s < c.usedBlocks
  packed  : c.next.isSome → c.size = inodeCapacity

structure Loaded (c : Inode) : Prop where
  filled : ∀ s < c.usedBlocks, (c.slot s).isSome
  packed : c.next.isSome → c.size = inodeCapacity

def owned (c : Inode) : List Nat :=
  (List.range c.usedBlocks).map fun s => (c.slot s).getD 0

@[simp]
theorem length_owned (c : Inode) : c.owned.length = c.usedBlocks := by
  simp [owned]

theorem usedBlocks_le_iff {c : Inode} {k : Nat} : c.usedBlocks ≤ k ↔ c.size ≤ k * blockSize :=
  blocksFor_le_iff

theorem slot_eq {c : Inode} {s : Nat} (f : Nat → Option Nat)
    (h : ∀ s (h : s < slotsPerInode), c.blocks[s] = f s) :
    c.slot s = if s < slotsPerInode then f s else none := by
  split
  case isTrue hs  => rw [slot_of_lt hs, h s hs]
  case isFalse hs => exact slot_of_le (Nat.le_of_not_lt hs)

namespace Loaded

variable {c : Inode}

theorem slot_of_owned (h : c.Loaded) {s b : Nat} (hb : c.owned[s]? = some b) : c.slot s = some b := by
  have ⟨hs, _⟩ := List.getElem?_eq_some_iff.mp hb
  have hs : s < c.usedBlocks := by simpa using hs
  have ⟨x, hx⟩ := Option.isSome_iff_exists.mp (h.filled s hs)
  simpa [owned, hs, hx] using hb

theorem owned_full (h : c.Loaded) (hn : c.next.isSome) : c.owned.length = slotsPerInode := by
  rw [length_owned, usedBlocks, h.packed hn]
  decide

theorem usedBlocks_le (h : c.Loaded) : c.usedBlocks ≤ slotsPerInode := by
  by_contra hlt
  have := h.filled slotsPerInode (Nat.lt_of_not_le hlt)
  simp [slot_of_le] at this

end Loaded

namespace WellFormed

variable {c : Inode}

theorem loaded (h : c.WellFormed) : c.Loaded where
  filled := fun s => (h.filled s).mpr
  packed := h.packed

theorem usedBlocks_le (h : c.WellFormed) : c.usedBlocks ≤ slotsPerInode :=
  usedBlocks_le_iff.mpr h.bounded

theorem last_slot_lt (h : c.WellFormed) (hz : c.size ≠ 0) : c.usedBlocks - 1 < slotsPerInode :=
  Nat.sub_one_lt_of_le (blocksFor_pos (Nat.pos_of_ne_zero hz)) h.usedBlocks_le

theorem getElem?_owned (h : c.WellFormed) (s : Nat) : c.owned[s]? = c.slot s := by
  by_cases hs : s < c.usedBlocks
  case pos =>
    have ⟨b, hb⟩ := Option.isSome_iff_exists.mp ((h.filled s).mpr hs)
    simp [owned, hs, hb]
  case neg =>
    have hn : c.slot s = none := by simpa using mt (h.filled s).mp hs
    simp [owned, hs, hn]

theorem mem_owned (h : c.WellFormed) {b : Nat} : b ∈ c.owned ↔ ∃ s, c.slot s = some b := by
  simp [List.mem_iff_getElem?, h.getElem?_owned]

theorem owned_eq (h : c.WellFormed) {bs : List Nat} (hb : ∀ s, c.slot s = bs[s]?) :
    c.owned = bs :=
  List.ext_getElem? fun s => (h.getElem?_owned s).trans (hb s)

end WellFormed

theorem WellFormed.default : WellFormed {} where
  bounded := by decide
  filled  := by simp [usedBlocks, blocksFor_zero]
  packed  := by simp

@[simp]
theorem owned_default : owned {} = [] := by
  simp [owned, usedBlocks, blocksFor_zero]

section

variable {c : Inode} {n : Nat}

theorem WellFormed.resize (h : c.WellFormed) (hb : n ≤ inodeCapacity)
    (hu : blocksFor n = c.usedBlocks) (hn : c.next = none) :
    WellFormed { c with size := n } where
  bounded := hb
  filled  := fun s => (h.filled s).trans (by rw [← hu]; rfl)
  packed  := by simp [hn]

theorem owned_resize (hu : blocksFor n = c.usedBlocks) : owned { c with size := n } = c.owned := by
  simp only [owned, usedBlocks, hu]
  rfl

theorem WellFormed.relink (h : c.WellFormed) (next : Option Nat)
    (hn : next.isSome → c.size = inodeCapacity) : WellFormed { c with next } where
  bounded := h.bounded
  filled  := h.filled
  packed  := hn

theorem slot_hold (h : c.usedBlocks < slotsPerInode) (block len s : Nat) :
    (c.hold block len).slot s = if s = c.usedBlocks then some block else c.slot s := by
  refine (slot_eq (fun s => if s = c.usedBlocks then some block else c.slot s) ?_).trans ?_
  case refine_1 =>
    intro s hs
    simp only [hold, Vector.getElem_setIfInBounds, slot_of_lt hs, eq_comm]
  case refine_2 =>
    split
    case isTrue     => rfl
    case isFalse hs => rw [if_neg (by omega), slot_of_le (Nat.le_of_not_lt hs)]

theorem usedBlocks_hold (hn : 0 < n) (h : blocksFor (c.size + n) ≠ c.usedBlocks) (block : Nat) :
    (c.hold block (min blockSize n)).usedBlocks = c.usedBlocks + 1 := by
  simp only [usedBlocks, hold, blocksFor, blockSize] at *
  omega

theorem WellFormed.hold (h : c.WellFormed) (hs : c.usedBlocks < slotsPerInode) {block len : Nat}
    (hu : (c.hold block len).usedBlocks = c.usedBlocks + 1) (hn : c.next = none) :
    (c.hold block len).WellFormed where
  bounded := usedBlocks_le_iff.mp (by omega)
  packed  := by simp [Inode.hold, hn]
  filled  := by
    intro s
    rw [slot_hold hs, hu]
    have := h.filled s
    split <;> grind

theorem owned_hold (h : c.WellFormed) (hs : c.usedBlocks < slotsPerInode) {block len : Nat}
    (hu : (c.hold block len).usedBlocks = c.usedBlocks + 1) (hn : c.next = none) :
    (c.hold block len).owned = c.owned ++ [block] := by
  apply (h.hold hs hu hn).owned_eq
  intro s
  rw [slot_hold hs, List.getElem?_append, length_owned, ← h.getElem?_owned]
  grind [length_owned]

theorem slot_drop (s : Nat) :
    c.drop.slot s = if s = c.usedBlocks - 1 then none else c.slot s := by
  refine (slot_eq (fun s => if s = c.usedBlocks - 1 then none else c.slot s) ?_).trans ?_
  case refine_1 =>
    intro s hs
    simp only [drop, Vector.getElem_setIfInBounds, slot_of_lt hs, eq_comm]
  case refine_2 =>
    split
    case isTrue     => rfl
    case isFalse hs => simp [slot_of_le (Nat.le_of_not_lt hs)]

theorem usedBlocks_drop : c.drop.usedBlocks = c.usedBlocks - 1 := by
  simp only [usedBlocks, drop, blocksFor, blockSize]
  omega

theorem WellFormed.drop (h : c.WellFormed) (hn : c.next = none) : c.drop.WellFormed where
  bounded := by
    have := h.usedBlocks_le
    simp only [Inode.drop, inodeCapacity]
    lia
  packed := by simp [Inode.drop, hn]
  filled := by
    intro s
    rw [slot_drop, usedBlocks_drop]
    have := h.filled s
    split <;> grind

theorem owned_drop (h : c.WellFormed) (hn : c.next = none) : c.drop.owned = c.owned.dropLast := by
  apply (h.drop hn).owned_eq
  intro s
  rw [slot_drop, List.getElem?_dropLast, length_owned, ← h.getElem?_owned]
  grind [length_owned]

theorem isEmpty_of_size (h : c.WellFormed) (hz : c.size = 0) (hn : c.next = none) : c.isEmpty := by
  have hb : ∀ s (_ : s < slotsPerInode), c.blocks[s] = none := by
    intro s hs
    have := h.filled s
    rw [slot_of_lt hs, usedBlocks, hz, blocksFor_zero] at this
    simpa using this
  simp only [isEmpty, hz, hn, Option.isNone_none, Bool.and_eq_true, decide_true, true_and,
    Vector.all_eq_true]
  exact fun s hs => by simp [hb s hs]

theorem Storable.resize (h : c.Storable) (hn : n ≤ inodeCapacity) :
    Storable { c with size := n } where
  refs   := h.refs
  size   := by lia
  blocks := h.blocks
  next   := h.next

theorem Storable.relink (h : c.Storable) (next : Option Nat)
    (hn : ∀ k, next = some k → k < inodeCount) : Storable { c with next } where
  refs   := h.refs
  size   := h.size
  blocks := h.blocks
  next   := fun k hk => by have := hn k hk; lia

theorem Storable.hold (h : c.Storable) (hs : c.usedBlocks < slotsPerInode) {block len : Nat}
    (hb : block < blockCount) (hl : c.size + len ≤ inodeCapacity) :
    (c.hold block len).Storable where
  refs   := h.refs
  size   := by simp only [Inode.hold]; lia
  next   := h.next
  blocks := by
    intro s b hsb
    rw [slot_hold hs] at hsb
    split at hsb
    case isTrue  => have := Option.some.inj hsb; lia
    case isFalse => exact h.blocks s b hsb

theorem Storable.drop (h : c.Storable) : c.drop.Storable where
  refs   := h.refs
  size   := by
    have := h.size
    simp only [Inode.drop, usedBlocks, blocksFor, blockSize]
    omega
  next   := h.next
  blocks := by
    intro s b hsb
    rw [slot_drop] at hsb
    split at hsb
    case isTrue  => contradiction
    case isFalse => exact h.blocks s b hsb

end
end InodeVolume.Inode
