import InodeVolume.Proofs.Inode.Chain

namespace InodeVolume

def linksFor (bytes : Nat) : Nat :=
  max 1 ((bytes + (inodeCapacity - 1)) / inodeCapacity)

theorem linksFor_le_iff {n k : Nat} (hk : 0 < k) : linksFor n ≤ k ↔ n ≤ k * inodeCapacity := by
  simp only [linksFor, inodeCapacity, slotsPerInode, blockSize]
  omega

theorem linksFor_mono {n k : Nat} (h : n ≤ k) : linksFor n ≤ linksFor k := by
  simp only [linksFor, inodeCapacity, slotsPerInode, blockSize]
  omega

theorem linksFor_pos (n : Nat) : 0 < linksFor n :=
  Nat.le_max_left ..

theorem linksFor_eq_one {n : Nat} (h : n ≤ inodeCapacity) : linksFor n = 1 :=
  Nat.le_antisymm ((linksFor_le_iff Nat.one_pos).mpr ((Nat.one_mul _).symm ▸ h)) (linksFor_pos n)

theorem max_linksFor_add (full n : Nat) :
    max (full + 1) (linksFor (full * inodeCapacity + n)) = full + linksFor n := by
  simp only [linksFor, inodeCapacity, slotsPerInode, blockSize]
  omega

theorem linksFor_add {n : Nat} (h : 0 < n) (full : Nat) :
    linksFor (full * inodeCapacity + n) = full + linksFor n := by
  rw [← max_linksFor_add, Nat.max_eq_right]
  simp only [linksFor, inodeCapacity, slotsPerInode, blockSize]
  omega

theorem blocksFor_add (full n : Nat) :
    blocksFor (full * inodeCapacity + n) = full * slotsPerInode + blocksFor n := by
  simp only [blocksFor, inodeCapacity, slotsPerInode, blockSize]
  omega

theorem linksFor_le (n : Nat) : linksFor n ≤ blocksFor n / slotsPerInode + 1 := by
  simp only [linksFor, blocksFor, inodeCapacity, slotsPerInode, blockSize]
  omega

namespace Chain

def Brims (l : Chain) : Prop :=
  ∃ m a, l = m ++ [a] ∧ a.2.size = inodeCapacity

def Trails (l : Chain) : Prop :=
  ∃ m a, m ≠ [] ∧ l = m ++ [a] ∧ a.2.size = 0

variable {l : Chain} {i : Nat} {c : Inode} {a b : Option Nat}

theorem brims_concat : Brims (l ++ [(i, c)]) ↔ c.size = inodeCapacity := by
  constructor
  case mp =>
    intro ⟨m, a, he, ha⟩
    obtain ⟨rfl, rfl⟩ := List.append_inj' he rfl |>.imp_right List.singleton_inj.mp
    exact ha
  case mpr => exact fun h => ⟨l, _, rfl, h⟩

theorem trails_concat : Trails (l ++ [(i, c)]) ↔ l ≠ [] ∧ c.size = 0 := by
  constructor
  case mp =>
    intro ⟨m, a, hm, he, ha⟩
    obtain ⟨rfl, rfl⟩ := List.append_inj' he rfl |>.imp_right List.singleton_inj.mp
    exact ⟨hm, ha⟩
  case mpr => exact fun ⟨hl, h⟩ => ⟨l, _, hl, rfl, h⟩

theorem not_trails_singleton : ¬Trails [(i, c)] :=
  fun h => (trails_concat.mp h).left rfl

theorem trails_cons_congr {x y : Link} : Trails (x :: l) ↔ Trails (y :: l) := by
  rcases List.eq_nil_or_concat l with rfl | ⟨m, ⟨i, c⟩, rfl⟩
  case inl => exact iff_of_false not_trails_singleton not_trails_singleton
  case inr =>
    rw [List.concat_eq_append, ← List.cons_append, ← List.cons_append, trails_concat, trails_concat]
    simp

instance : DecidablePred Brims := fun l =>
  decidable_of_iff (∃ a ∈ l.getLast?, a.2.size = inodeCapacity) <| by
    rcases List.eq_nil_or_concat l with rfl | ⟨m, ⟨i, c⟩, rfl⟩
    case inl => simp [Brims]
    case inr => simp [brims_concat]

instance : DecidablePred Trails := fun l =>
  decidable_of_iff (l.length ≠ 1 ∧ ∃ a ∈ l.getLast?, a.2.size = 0) <| by
    rcases List.eq_nil_or_concat l with rfl | ⟨m, ⟨i, c⟩, rfl⟩
    case inl => simp [Trails]
    case inr => simp [trails_concat]

theorem Brims.ne_nil (h : l.Brims) : l ≠ [] := by
  obtain ⟨m, a, rfl, _⟩ := h
  simp

theorem Trails.ne_nil (h : l.Trails) : l ≠ [] := by
  obtain ⟨m, a, _, rfl, _⟩ := h
  simp

theorem size_before (h : Leads a (l ++ [(i, c)]) b) (hf : (l ++ [(i, c)]).Formed) :
    l.size = l.length * inodeCapacity := by
  induction l generalizing a
  case nil => rfl
  case cons x l hi =>
    have ⟨hx, hf⟩ := formed_cons.mp hf
    have hn : x.2.next.isSome := by
      cases l
      case nil      => exact h.right.left ▸ rfl
      case cons y l => exact h.right.left ▸ rfl
    rw [size_cons, hx.packed hn, hi h.right hf, List.length_cons, Nat.succ_mul, Nat.add_comm]

-- A chain from its end: so many full links, and a last one that holds so many bytes.
structure Ends (l : Chain) (full last : Nat) : Prop where
  length : l.length = full + 1
  size   : l.size = full * inodeCapacity + last
  le     : last ≤ inodeCapacity
  brims  : l.Brims ↔ last = inodeCapacity
  trails : l.Trails ↔ full ≠ 0 ∧ last = 0

theorem ends_concat (h : Leads a (l ++ [(i, c)]) b) (hf : (l ++ [(i, c)]).Formed) :
    Ends (l ++ [(i, c)]) l.length c.size where
  length := by simp
  size   := by rw [size_append, size_before h hf, size_cons, size_nil, Nat.add_zero]
  le     := (hf (i, c) (by simp)).bounded
  brims  := brims_concat
  trails := by rw [trails_concat, ne_eq, ne_eq, List.length_eq_zero_iff]

theorem exists_ends (h : Leads a l b) (hf : Formed l) (hne : l ≠ []) :
    ∃ full last, Ends l full last := by
  have hl := List.dropLast_append_getLast hne
  rw [← hl] at h hf
  exact ⟨_, _, hl ▸ ends_concat h hf⟩

namespace Ends

variable {full last : Nat}

theorem brims_iff (e : Ends l full last) :
    l.Brims ↔ l.size ≠ 0 ∧ l.size % inodeCapacity = 0 ∧ ¬l.Trails := by
  have := e.le
  rw [e.brims, e.trails, e.size]
  simp only [inodeCapacity, slotsPerInode, blockSize] at *
  omega

-- There are as many links as the bytes need, and maybe one more.
theorem length_eq [Decidable l.Trails] (e : Ends l full last) :
    l.length = linksFor l.size + if l.Trails then 1 else 0 := by
  have := e.le
  rw [e.length, e.size, linksFor, if_congr e.trails rfl rfl]
  simp only [inodeCapacity, slotsPerInode, blockSize] at *
  split <;> omega

theorem size_of_trails (e : Ends l full last) (ht : l.Trails) :
    l.size ≠ 0 ∧ l.size % inodeCapacity = 0 := by
  have := e.trails.mp ht
  rw [e.size]
  simp only [inodeCapacity, slotsPerInode, blockSize] at *
  omega

end Ends
end Chain
end InodeVolume
