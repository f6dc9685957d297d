import InodeVolume.Proofs.File.State
import InodeVolume.Proofs.Volume.Allocation

namespace InodeVolume

namespace Inode

def address (c : Inode) (q : Nat) : Nat :=
  (c.slot (q / blockSize)).getD 0 * blockSize + q % blockSize

-- A link has its blocks where files may have them. If it is that of the root, and not empty, then its
-- first block is `first`.
structure Sited (first : Option Nat) (i : Nat) (c : Inode) : Prop where
  wellFormed : c.WellFormed
  range      : ∀ s b, c.slot s = some b → reservedBlocks ≤ b ∧ b < blockCount
  root       : i = rootInode → c.size ≠ 0 → c.slot 0 = first

end Inode

namespace Volume

def Tended (first : Option Nat) (v : Volume) : Prop :=
  ∀ i c, v.link? i = some c → c.Sited first i

def Live (v : Volume) (a : Nat) : Prop :=
  ∃ i c q, v.link? i = some c ∧ q < c.size ∧ c.address q = a

def Rooted (v : Volume) : Prop :=
  ∃ c, v.link? rootInode = some c ∧ c.size ≠ 0

end Volume

namespace Chain

variable {l m : Chain} {i p q : Nat} {c : Inode} {a b : Option Nat}

theorem address_cons_of_lt (hc : c.WellFormed) (hq : q < c.size) :
    address ((i, c) :: l) q = c.address q := by
  have hlt : q / blockSize < c.owned.length := c.length_owned ▸ div_lt_blocksFor hq
  rw [address, Inode.address, blocks_cons, List.getD_eq_getElem?_getD,
    List.getElem?_append_left hlt, hc.getElem?_owned]

theorem address_append (hl : l.blocks.length * blockSize = l.size) (p : Nat) :
    address (l ++ m) (l.size + p) = m.address p := by
  have hdiv : (l.size + p) / blockSize = l.blocks.length + p / blockSize := by
    rw [← hl, Nat.add_comm, Nat.add_mul_div_right _ _ (by decide), Nat.add_comm]
  have hmod : (l.size + p) % blockSize = p % blockSize := by
    rw [← hl, Nat.mul_add_mod_self_right]
  rw [address, address, hdiv, hmod, blocks_append, List.getD_eq_getElem?_getD,
    List.getD_eq_getElem?_getD, List.getElem?_append_right (Nat.le_add_right ..),
    Nat.add_sub_cancel_left]

theorem length_blocks_of_next (hf : l.Formed) (hn : ∀ x ∈ l, x.2.next.isSome) :
    l.blocks.length * blockSize = l.size := by
  induction l
  case nil => rfl
  case cons x l hi =>
    have ⟨hx, hf⟩ := formed_cons.mp hf
    have ⟨hnx, hn⟩ := List.forall_mem_cons.mp hn
    rw [blocks_cons, List.length_append, hx.loaded.owned_full hnx, size_cons, hx.packed hnx, ← hi hf hn]
    lia

theorem Leads.next_isSome {x : Link} (h : Leads a (l ++ x :: m) b) : ∀ y ∈ l, y.2.next.isSome := by
  induction l generalizing a
  case nil => simp
  case cons y l hi =>
    refine List.forall_mem_cons.mpr ⟨?_, hi h.right⟩
    have hr : Leads y.2.next (l ++ x :: m) b := h.right
    cases l
    case nil      => rw [hr.left]; rfl
    case cons z l => rw [hr.left]; rfl

theorem exists_address (h : Leads a l none) (hf : l.Formed) (hm : (i, c) ∈ l) (hq : q < c.size) :
    ∃ p < l.size, l.address p = c.address q := by
  have ⟨k, m, hl⟩ := List.append_of_mem hm
  rw [hl] at h hf ⊢
  have ⟨hk, hf⟩ := formed_append.mp hf
  have ⟨hc, _⟩ := formed_cons.mp hf
  refine ⟨size k + q, by rw [size_append, size_cons]; omega, ?_⟩
  rw [address_append (length_blocks_of_next hk h.next_isSome), address_cons_of_lt hc hq]

theorem exists_link (h : Leads a l none) (hf : l.Formed) (hp : p < l.size) :
    ∃ i c q, (i, c) ∈ l ∧ q < c.size ∧ c.address q = l.address p := by
  induction l generalizing a p
  case nil => simp at hp
  case cons x l hi =>
    obtain ⟨j, d⟩ := x
    have ⟨hd, hf⟩ := formed_cons.mp hf
    by_cases hlt : p < d.size
    case pos => exact ⟨j, d, p, List.mem_cons_self, hlt, (address_cons_of_lt hd hlt).symm⟩
    case neg =>
      cases hn : d.next
      case none =>
        have := Leads.eq_nil (hn ▸ h.right)
        rw [this, size_cons, size_nil] at hp
        omega
      case some n =>
        rw [size_cons] at hp
        have ⟨i, c, q, hm, hq, he⟩ := hi h.right hf (p := p - d.size) (by omega)
        refine ⟨i, c, q, List.mem_cons_of_mem _ hm, hq, he.trans ?_⟩
        have hfull : (blocks [(j, d)]).length * blockSize = size [(j, d)] :=
          length_blocks_of_next (formed_cons.mpr ⟨hd, formed_nil⟩) (by simp [hn])
        have := address_append (m := l) hfull (p - d.size)
        rw [size_cons, size_nil, Nat.add_zero, Nat.add_sub_cancel' (Nat.le_of_not_lt hlt)] at this
        exact this.symm

end Chain

namespace Inode.Sited

variable {first : Option Nat} {i n : Nat} {c : Inode}

theorem default (first : Option Nat) (i : Nat) : Sited first i {} where
  wellFormed := .default
  range      := by simp
  root       := by simp

theorem resize (s : c.Sited first i) (hb : n ≤ inodeCapacity) (hu : blocksFor n = c.usedBlocks)
    (hn : c.next = none) : Sited first i { c with size := n } where
  wellFormed := s.wellFormed.resize hb hu hn
  range      := s.range
  root       := by
    intro hi hz
    refine s.root hi fun h => ?_
    have := blocksFor_pos (Nat.pos_of_ne_zero hz)
    rw [hu, Inode.usedBlocks, h, blocksFor_zero] at this
    omega

theorem relink (s : c.Sited first i) (next : Option Nat)
    (hn : next.isSome → c.size = inodeCapacity) : Sited first i { c with next } where
  wellFormed := s.wellFormed.relink next hn
  range      := s.range
  root       := s.root

theorem revise (s : c.Sited first i) (refs : Nat) (mode : UInt32) :
    Sited first i { c with refs, mode } where
  wellFormed := ⟨s.wellFormed.bounded, s.wellFormed.filled, s.wellFormed.packed⟩
  range      := s.range
  root       := s.root

theorem hold (s : c.Sited first i) (hs : c.usedBlocks < slotsPerInode) {block len : Nat}
    (hu : (c.hold block len).usedBlocks = c.usedBlocks + 1) (hn : c.next = none)
    (hb : reservedBlocks ≤ block ∧ block < blockCount) (hr : i = rootInode → c.size ≠ 0) :
    (c.hold block len).Sited first i where
  wellFormed := s.wellFormed.hold hs hu hn
  range      := by
    intro t b htb
    rw [slot_hold hs] at htb
    split at htb
    case isTrue  => exact Option.some.inj htb ▸ hb
    case isFalse => exact s.range t b htb
  root       := by
    intro hi _
    have hz := hr hi
    have : 0 < c.usedBlocks := blocksFor_pos (Nat.pos_of_ne_zero hz)
    rw [slot_hold hs, if_neg (by omega)]
    exact s.root hi hz

theorem drop (s : c.Sited first i) (hn : c.next = none) : c.drop.Sited first i where
  wellFormed := s.wellFormed.drop hn
  range      := by
    intro t b htb
    rw [slot_drop] at htb
    split at htb
    case isTrue  => contradiction
    case isFalse => exact s.range t b htb
  root       := by
    intro hi hz
    have hused : 1 < c.usedBlocks := by
      by_contra hle
      have hzero : c.usedBlocks - 1 = 0 := by omega
      exact hz (show blockSize * (c.usedBlocks - 1) = 0 by rw [hzero, Nat.mul_zero])
    rw [slot_drop, if_neg (by omega)]
    refine s.root hi fun h => ?_
    rw [Inode.usedBlocks, h, blocksFor_zero] at hused
    omega

end Inode.Sited

namespace Volume

variable {first : Option Nat} {u v w : Volume} {h i a : Nat} {l m : Chain} {c d : Inode}

namespace Walks

theorem formed (hw : v.Walks h l) (t : v.Tended first) : l.Formed :=
  fun x hx => (t x.1 x.2 (hw.links x.1 x.2 hx)).wellFormed

theorem block_range (hw : v.Walks h l) (t : v.Tended first) :
    ∀ b ∈ l.blocks, reservedBlocks ≤ b ∧ b < blockCount := by
  intro b hb
  have ⟨i, c, hm, hb⟩ := Chain.mem_blocks.mp hb
  have s := t i c (hw.links i c hm)
  have ⟨k, hk⟩ := s.wellFormed.mem_owned.mp hb
  exact s.range k b hk

theorem live (hw : v.Walks h l) (t : v.Tended first) {p : Nat} (hp : p < l.size) :
    v.Live (l.address p) := by
  have ⟨i, c, q, hm, hq, he⟩ := Chain.exists_link hw.leads (hw.formed t) hp
  exact ⟨i, c, q, hw.links i c hm, hq, he⟩

end Walks

theorem Live.dataStart_le (ha : v.Live a) (t : v.Tended first) : dataStart ≤ a := by
  have ⟨i, c, q, hc, hq, he⟩ := ha
  have s := t i c hc
  have ⟨b, hb⟩ := Option.isSome_iff_exists.mp ((s.wellFormed.filled _).mpr (div_lt_blocksFor hq))
  have := (s.range _ b hb).left
  rw [← he, Inode.address, hb, Option.getD_some]
  lia

theorem live_update (hw : w.link? = Function.update v.link? i (some d)) (ha : w.Live a) :
    v.Live a ∨ ∃ q < d.size, d.address q = a := by
  have ⟨j, c, q, hc, hq, he⟩ := ha
  rw [hw, Function.update_apply] at hc
  split at hc
  case isTrue =>
    obtain rfl := Option.some.inj hc
    exact .inr ⟨q, hq, he⟩
  case isFalse => exact .inl ⟨j, c, q, hc, hq, he⟩

theorem tended_update (t : v.Tended first) (hd : d.Sited first i)
    (hw : w.link? = Function.update v.link? i (some d)) : w.Tended first := by
  intro j c hc
  rw [hw, Function.update_apply] at hc
  split at hc
  case isTrue hj => exact hj ▸ Option.some.inj hc ▸ hd
  case isFalse   => exact t j c hc

structure Sheds (first : Option Nat) (v w : Volume) : Prop where
  tended : w.Tended first
  live   : ∀ a, w.Live a → v.Live a

namespace Sheds

theorem same (t : v.Tended first) (hw : w.link? = v.link?) : v.Sheds first w := by
  refine ⟨fun i c hc => t i c (hw ▸ hc), fun a ha => ?_⟩
  rwa [Live, hw] at ha

theorem refl (t : v.Tended first) : v.Sheds first v :=
  same t rfl

theorem trans (s₁ : u.Sheds first v) (s₂ : v.Sheds first w) : u.Sheds first w :=
  ⟨s₂.tended, fun a ha => s₁.live a (s₂.live a ha)⟩

theorem update (t : v.Tended first) (hc : v.link? i = some c) (hd : d.Sited first i)
    (hs : d.size ≤ c.size) (hslot : ∀ s < d.usedBlocks, d.slot s = c.slot s)
    (hw : w.link? = Function.update v.link? i (some d)) : v.Sheds first w := by
  refine ⟨tended_update t hd hw, fun a ha => ?_⟩
  cases live_update hw ha
  case inl ha => exact ha
  case inr ha =>
    have ⟨q, hq, he⟩ := ha
    refine ⟨i, c, q, hc, by omega, ?_⟩
    rw [← he, Inode.address, Inode.address, hslot _ (div_lt_blocksFor hq)]

theorem remove (t : v.Tended first) (hw : w.link? = Function.update v.link? i none) :
    v.Sheds first w := by
  have hlink : ∀ j c, w.link? j = some c → v.link? j = some c := by
    intro j c hc
    rw [hw, Function.update_apply] at hc
    split at hc
    case isTrue  => contradiction
    case isFalse => exact hc
  exact ⟨fun j c hc => t j c (hlink j c hc),
    fun a ⟨j, c, q, hc, hq, he⟩ => ⟨j, c, q, hlink j c hc, hq, he⟩⟩

end Sheds
end Volume
end InodeVolume
