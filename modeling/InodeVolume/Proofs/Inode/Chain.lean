import InodeVolume.Proofs.Inode.Owned
import InodeVolume.Proofs.Volume.Layout
import Mathlib.Data.List.Nodup
import Mathlib.Data.List.Perm.Subperm

namespace InodeVolume

abbrev Chain : Type := List Link

namespace Chain

def numbers (l : Chain) : List Nat :=
  l.map (·.1)

def blocks (l : Chain) : List Nat :=
  l.flatMap (·.2.owned)

def size : Chain → Nat
  | []          => 0
  | (_, c) :: l => c.size + size l

-- The links follow each other from one number to another; `none` stands for the end.
def Leads : Option Nat → Chain → Option Nat → Prop
  | a, [], b          => a = b
  | a, (i, c) :: l, b => a = some i ∧ Leads c.next l b

def Formed (l : Chain) : Prop :=
  ∀ a ∈ l, a.2.WellFormed

def Laden (l : Chain) : Prop :=
  ∀ a ∈ l, a.2.Loaded

variable {l m : Chain} {i : Nat} {c d : Inode} {a b : Option Nat}

@[simp]
theorem numbers_append : numbers (l ++ m) = l.numbers ++ m.numbers :=
  List.map_append

@[simp]
theorem blocks_append : blocks (l ++ m) = l.blocks ++ m.blocks :=
  List.flatMap_append

@[simp]
theorem size_append : size (l ++ m) = l.size + m.size := by
  induction l
  case nil          => simp [size]
  case cons a l hi => rw [List.cons_append, size, hi, size, Nat.add_assoc]

@[simp]
theorem numbers_cons : numbers ((i, c) :: l) = i :: l.numbers :=
  rfl

@[simp]
theorem blocks_cons : blocks ((i, c) :: l) = c.owned ++ l.blocks :=
  List.flatMap_cons

@[simp]
theorem size_cons : size ((i, c) :: l) = c.size + l.size :=
  rfl

@[simp]
theorem numbers_nil : numbers [] = [] := rfl

@[simp]
theorem blocks_nil : blocks [] = [] := rfl

@[simp]
theorem size_nil : size [] = 0 := rfl

theorem mem_numbers : i ∈ l.numbers ↔ ∃ c, (i, c) ∈ l := by
  simp [numbers]

theorem mem_blocks {n : Nat} : n ∈ l.blocks ↔ ∃ i c, (i, c) ∈ l ∧ n ∈ c.owned := by
  simp [blocks]

theorem formed_append : (l ++ m).Formed ↔ l.Formed ∧ m.Formed :=
  List.forall_mem_append

theorem formed_cons : Formed ((i, c) :: l) ↔ c.WellFormed ∧ l.Formed :=
  List.forall_mem_cons

theorem formed_nil : Formed [] := by
  simp [Formed]

theorem Formed.laden (hf : l.Formed) : l.Laden :=
  fun a ha => (hf a ha).loaded

namespace Leads

theorem append : Leads a (l ++ m) b ↔ ∃ k, Leads a l k ∧ Leads k m b := by
  induction l generalizing a
  case nil          => simp [Leads]
  case cons x l hi => simp [Leads, hi, and_assoc]

theorem eq_nil (h : Leads none l none) : l = [] := by
  cases l
  case nil      => rfl
  case cons x _ => simp [Leads] at h

theorem next_mem (h : Leads a l none) (hm : (i, c) ∈ l) {n : Nat} (hn : c.next = some n) :
    n ∈ l.numbers := by
  induction l generalizing a
  case nil => simp at hm
  case cons x l hi =>
    have ⟨_, h⟩ := h
    cases List.mem_cons.mp hm
    case inr hm => exact List.mem_cons_of_mem _ (hi h hm)
    case inl hm =>
      subst hm
      cases l
      case nil      => simp [Leads, hn] at h
      case cons y l =>
        have ⟨h, _⟩ := h
        simp_all [numbers]

theorem mem_next (h : Leads a l b) (hm : i ∈ l.numbers) :
    a = some i ∨ ∃ j c, (j, c) ∈ l ∧ c.next = some i := by
  induction l generalizing a
  case nil => simp at hm
  case cons x l hi =>
    have ⟨ha, h⟩ := h
    cases List.mem_cons.mp hm
    case inl he => exact .inl (ha.trans (congrArg some he.symm))
    case inr hm =>
      cases hi h hm
      case inl hn => exact .inr ⟨x.1, x.2, List.mem_cons_self, hn⟩
      case inr hx =>
        have ⟨j, c, hc, hn⟩ := hx
        exact .inr ⟨j, c, List.mem_cons_of_mem _ hc, hn⟩

theorem next_ne_head (h : Leads (some i) l none) (hn : l.numbers.Nodup)
    {k : Nat} (hm : (k, c) ∈ l) : c.next ≠ some i := by
  intro hnext
  cases l
  case nil => simp at hm
  case cons a l =>
    obtain ⟨j, d⟩ := a
    obtain rfl := Option.some.inj h.left
    rw [numbers_cons, List.nodup_cons] at hn
    have hl : Leads d.next l none := h.right
    cases List.mem_cons.mp hm
    case inr hm => exact hn.left (hl.next_mem hm hnext)
    case inl hm =>
      obtain ⟨rfl, rfl⟩ := Prod.mk.inj hm
      rw [hnext] at hl
      cases l
      case nil => simp [Leads] at hl
      case cons b l =>
        have := hl.left
        simp only [Option.some.injEq] at this
        exact hn.left (this ▸ List.mem_cons_self)

theorem replace (h : Leads a (l ++ (i, c) :: m) b) (hn : d.next = c.next) :
    Leads a (l ++ (i, d) :: m) b := by
  rw [append] at *
  have ⟨k, h₁, h₂, h₃⟩ := h
  exact ⟨k, h₁, h₂, hn ▸ h₃⟩

end Leads

namespace Laden

-- A file has as many blocks as its size needs: only its last link can have room left.
theorem length_blocks (hf : l.Laden) (h : Leads a l none) : l.blocks.length = blocksFor l.size := by
  induction l generalizing a
  case nil => simp [blocksFor_zero]
  case cons x l hi =>
    have ⟨hc, hf⟩ := List.forall_mem_cons.mp hf
    have hr := hi hf h.right
    rw [blocks_cons, List.length_append, Inode.length_owned, hr, size_cons]
    cases hn : x.2.next
    case none =>
      have hl := Leads.eq_nil (hn ▸ h.right)
      simp [hl, Inode.usedBlocks, blocksFor_zero]
    case some n =>
      have hs := hc.packed (by simp [hn])
      simp only [Inode.usedBlocks, hs, blocksFor, inodeCapacity, slotsPerInode, blockSize]
      omega

theorem getElem?_blocks (hf : l.Laden) (h : Leads a l none) (n : Nat) :
    l.blocks[n]? = l[n / slotsPerInode]?.bind fun x => x.2.owned[n % slotsPerInode]? := by
  induction l generalizing a n
  case nil => simp
  case cons x l hi =>
    have ⟨hc, hf⟩ := List.forall_mem_cons.mp hf
    rw [blocks_cons, List.getElem?_append]
    cases hn : x.2.next
    case none =>
      have hl := Leads.eq_nil (hn ▸ h.right)
      have := hc.usedBlocks_le
      rw [hl, blocks_nil]
      by_cases hlt : n < slotsPerInode
      case pos => simp [Nat.div_eq_of_lt hlt, Nat.mod_eq_of_lt hlt]
      case neg =>
        have hdiv : 1 ≤ n / slotsPerInode := Nat.div_pos (Nat.le_of_not_lt hlt) (by decide)
        rw [if_neg (by rw [Inode.length_owned]; omega), List.getElem?_nil,
          List.getElem?_eq_none hdiv]
        rfl
    case some next =>
      rw [hc.owned_full (by simp [hn])]
      split
      case isTrue hlt => simp [Nat.div_eq_of_lt hlt, Nat.mod_eq_of_lt hlt]
      case isFalse hlt =>
        have hle := Nat.le_of_not_lt hlt
        rw [hi hf h.right, ← Nat.mod_eq_sub_mod hle, Nat.div_eq_sub_div (by decide) hle,
          List.getElem?_cons_succ]

end Laden

theorem length_blocks (h : Leads a l none) (hf : l.Formed) : l.blocks.length = blocksFor l.size :=
  hf.laden.length_blocks h

theorem eq_singleton (h : Leads (some i) l none) (hf : l.Formed) (hs : l.size < inodeCapacity) :
    ∃ c, l = [(i, c)] ∧ c.next = none := by
  cases l
  case nil => simp [Leads] at h
  case cons x l =>
    obtain ⟨j, c⟩ := x
    obtain rfl := Option.some.inj h.left
    have hn : c.next = none := by
      by_contra hn
      have := (formed_cons.mp hf).left.packed (Option.isSome_iff_ne_none.mpr hn)
      rw [size_cons] at hs
      omega
    have hr : Leads c.next _ none := h.right
    rw [hn] at hr
    exact ⟨c, by rw [hr.eq_nil], hn⟩

theorem slot_unique {j s t n : Nat} (hn : l.blocks.Nodup) (hf : l.Formed) (hi : (i, c) ∈ l)
    (hj : (j, d) ∈ l) (hs : c.slot s = some n) (ht : d.slot t = some n) :
    (i, c) = (j, d) ∧ s = t := by
  induction l
  case nil => simp at hi
  case cons a l ih =>
    have ⟨ha, hl⟩ := formed_cons.mp hf
    have owned : ∀ {k x r}, (k, x) ∈ a :: l → x.slot r = some n → n ∈ x.owned := by
      intro k x r hm hx
      exact (hf _ hm).mem_owned.mpr ⟨r, hx⟩
    have hb : (a.2.owned ++ blocks l).Nodup := hn
    have ⟨ho, hr, hne⟩ := List.nodup_append.mp hb
    cases List.mem_cons.mp hi
    case inl hia =>
      cases List.mem_cons.mp hj
      case inl hja =>
        subst hia
        obtain ⟨rfl, rfl⟩ := Prod.mk.inj hja
        rw [← ha.getElem?_owned] at hs ht
        have ⟨hlt, _⟩ := List.getElem?_eq_some_iff.mp hs
        exact ⟨rfl, (List.getElem?_inj hlt ho).mp (hs.trans ht.symm)⟩
      case inr hja =>
        subst hia
        exact absurd rfl (hne n (owned hi hs) n (mem_blocks.mpr ⟨j, d, hja, owned hj ht⟩))
    case inr hia =>
      cases List.mem_cons.mp hj
      case inl hja =>
        subst hja
        exact absurd rfl (hne n (owned hj ht) n (mem_blocks.mpr ⟨i, c, hia, owned hi hs⟩))
      case inr hja => exact ih hr hl hia hja

theorem size_le (hf : l.Formed) : l.size ≤ l.length * inodeCapacity := by
  induction l
  case nil => simp
  case cons a l hi =>
    have ⟨ha, hf⟩ := formed_cons.mp hf
    have := hi hf
    have := ha.bounded
    rw [size_cons, List.length_cons, Nat.succ_mul]
    omega

theorem length_le (hn : l.numbers.Nodup) (hb : ∀ i ∈ l.numbers, i < inodeCount) :
    l.length ≤ inodeCount := by
  have := (List.Nodup.subperm hn fun i hi => List.mem_range.mpr (hb i hi)).length_le
  simpa [numbers] using this

end Chain

namespace Volume

variable {v : Volume} {l : Chain} {h : Nat}

theorem chainFrom_eq {limit : Nat} (hl : ∀ i c, (i, c) ∈ l → v.link? i = some c)
    (hc : l.Leads (some h) none) (hn : l.length ≤ limit) : v.chainFrom limit h = .ok l := by
  induction l generalizing h limit
  case nil => simp [Chain.Leads] at hc
  case cons x l hi =>
    obtain ⟨i, c⟩ := x
    have ⟨he, hr⟩ := hc
    obtain rfl := Option.some.inj he
    cases limit
    case zero => simp at hn
    case succ limit =>
      simp only [chainFrom, inode_of_link? (hl h c List.mem_cons_self), bind, Except.bind]
      cases hx : c.next
      case none => simp [Chain.Leads.eq_nil (hx ▸ hr), pure, Except.pure]
      case some n =>
        have := hi (fun j d hj => hl j d (List.mem_cons_of_mem _ hj)) (hx ▸ hr)
          (Nat.le_of_succ_le_succ hn)
        simp only [this]
        rfl

end Volume
end InodeVolume
