import InodeVolume.Proofs.File.Supply

namespace InodeVolume

open VolumeM Volume

namespace Volume

-- The blocks and inodes that a file of `goal` bytes needs are there or free. What the file has already
-- and does not need counts for nothing.
def Affords (v : Volume) (h goal : Nat) : Prop :=
  ∃ l : Chain, v.chain h = .ok l ∧ blocksFor goal - blocksFor l.size ≤ v.freeBlocks ∧
    linksFor goal - l.length ≤ v.freeInodes

-- The byte at `p` has a place in the last block of a file if all free blocks come before that one. But
-- they are too few to fill the slots of the last link, so this place is out of reach.
def Wasted (v : Volume) (h p : Nat) : Prop :=
  ∃ size, v.fileSize h = .ok size ∧ blocksFor size % slotsPerInode ≠ 0 ∧
    blocksFor size % slotsPerInode + v.freeBlocks < slotsPerInode ∧
    size + v.freeBlocks * blockSize ≤ p ∧ p < (blocksFor size + v.freeBlocks) * blockSize

variable {v w : Volume} {h goal p : Nat} {l : Chain}

theorem Walks.affords_iff (hw : v.Walks h l) :
    v.Affords h goal ↔ blocksFor goal - blocksFor l.size ≤ v.freeBlocks ∧
      linksFor goal - l.length ≤ v.freeInodes := by
  simp [Affords, hw.chain_eq]

theorem Walks.wasted_iff (hw : v.Walks h l) :
    v.Wasted h p ↔ blocksFor l.size % slotsPerInode ≠ 0 ∧
      blocksFor l.size % slotsPerInode + v.freeBlocks < slotsPerInode ∧
      l.size + v.freeBlocks * blockSize ≤ p ∧ p < (blocksFor l.size + v.freeBlocks) * blockSize := by
  simp [Wasted, hw.fileSize_eq]

theorem Affords.mono {n : Nat} (hle : n ≤ goal) (ha : v.Affords h goal) : v.Affords h n := by
  have ⟨l, hl, hb, hi⟩ := ha
  have := blocksFor_mono hle
  have := linksFor_mono hle
  exact ⟨l, hl, by omega, by omega⟩

end Volume

namespace Chain.Ends

variable {l : Chain} {full last x : Nat} {v : Volume} {h : Nat}

theorem linksFor_le (e : Ends l full last) : linksFor l.size ≤ l.length := by
  have := e.le
  rw [e.size, e.length, linksFor_le_iff (Nat.succ_pos _), Nat.succ_mul]
  omega

theorem affords_iff (e : Ends l full last) (hw : v.Walks h l) :
    v.Affords h (l.size + x) ↔ Suffices v.freeBlocks v.freeInodes last (last + x) := by
  rw [hw.affords_iff, e.size, e.length, Nat.add_assoc, blocksFor_add, blocksFor_add, Suffices,
    Nat.sub_le_iff_le_add', Nat.sub_le_iff_le_add', linksFor_le_iff (by omega),
    linksFor_le_iff (by omega), Nat.add_assoc full, Nat.add_mul]
  omega

theorem wasted_iff (e : Ends l full last) (hw : v.Walks h l) :
    v.Wasted h (l.size + x) ↔ Slack v.freeBlocks last ∧ v.freeBlocks * blockSize ≤ x ∧
      blocksFor (last + x + 1) ≤ blocksFor last + v.freeBlocks := by
  have := e.le
  rw [hw.wasted_iff, e.size, blocksFor_add, Slack]
  simp only [blocksFor, inodeCapacity, slotsPerInode, blockSize] at *
  omega

theorem affords_of_wasted (e : Ends l full last) (hw : v.Walks h l)
    (hx : v.Wasted h (l.size + x)) : v.Affords h (l.size + (x + 1)) := by
  have ⟨hs, _, hb⟩ := (e.wasted_iff hw).mp hx
  have hle : last + x + 1 ≤ inodeCapacity :=
    blocksFor_le_iff.mp (Nat.le_trans hb (Nat.le_of_lt hs.right))
  rw [e.affords_iff hw]
  exact ⟨hb, (linksFor_eq_one hle).symm ▸ Nat.le_add_right 1 v.freeInodes⟩

end Chain.Ends

-- Growth of a file of `size` bytes by `n` bytes. It is cut short just if there is not enough for it. If
-- so, no byte behind what has been added has a place, but for those that are wasted.
structure Growth.Provides (g : Growth) (v : Volume) (h size n : Nat) : Prop where
  fits  : g.Fits n 0
  whole : g.cut = none ↔ v.Affords h (size + n)
  most  : g.cut ≠ none → ∀ p, v.Affords h (p + 1) ∧ size + g.grown ≤ p ↔ v.Wasted h p

theorem Growth.Reaches.provides {g : Growth} {v : Volume} {h n full last : Nat} {l : Chain}
    (hg : g.Reaches v.freeBlocks v.freeInodes last n 0) (e : l.Ends full last) (hw : v.Walks h l) :
    g.Provides v h l.size n where
  fits  := hg.fits
  whole := hg.whole.trans (e.affords_iff hw).symm
  most  := by
    intro hcut p
    constructor
    case mp =>
      intro ⟨ha, hp⟩
      obtain ⟨x, rfl⟩ := Nat.exists_eq_add_of_le (Nat.le_trans (Nat.le_add_right ..) hp)
      rw [Nat.add_assoc, e.affords_iff hw] at ha
      have hx : g.grown ≤ x := Nat.le_of_add_le_add_left hp
      by_cases hs : Slack v.freeBlocks last
      case pos =>
        have := hg.slack hcut hs
        exact (e.wasted_iff hw).mpr ⟨hs, by omega, ha.left⟩
      case neg =>
        refine absurd ⟨Nat.le_trans (blocksFor_mono ?_) ha.left,
          Nat.le_trans (linksFor_mono ?_) ha.right⟩ (hg.most hcut hs) <;> omega
    case mpr =>
      intro hp
      have hle : l.size ≤ p := Nat.le_trans (Nat.le_add_right ..) (hw.wasted_iff.mp hp).right.right.left
      obtain ⟨x, rfl⟩ := Nat.exists_eq_add_of_le hle
      have ⟨hs, hx, _⟩ := (e.wasted_iff hw).mp hp
      have := hg.slack hcut hs
      exact ⟨e.affords_of_wasted hw hp, by omega⟩

structure Volume.Grants (v : Volume) (h size goal k : Nat) : Prop where
  le    : size + k ≤ max size goal
  whole : goal ≤ size + k ↔ v.Affords h goal
  most  : ¬v.Affords h goal → ∀ p, v.Affords h (p + 1) ∧ size + k ≤ p ↔ v.Wasted h p

theorem Growth.Provides.grants {g : Growth} {v : Volume} {h size goal : Nat}
    (hg : g.Provides v h size (goal - size)) (hlt : size < goal) :
    v.Grants h size goal g.grown := by
  have hsum : size + (goal - size) = goal := Nat.add_sub_cancel' (Nat.le_of_lt hlt)
  have hwhole := hsum ▸ hg.whole
  have hle := hg.fits.le_add
  constructor
  case le => omega
  case most => exact fun ha => hg.most (mt hwhole.mp ha)
  case whole =>
    rw [← hwhole]
    rcases hg.fits with hf | hf
    case inl => exact iff_of_true (by omega) hf.left
    case inr => exact iff_of_false (by omega) (by simp [hf.left])

namespace Volume.Holds

variable {v : Volume} {h goal p : Nat} {files : Nat → Option FileState} {f : FileState}

theorem exists_walk (hv : v.Holds files) (hf : files h = some f) :
    ∃ l full last, v.Walks h l ∧ l.Ends full last ∧ l.size = f.bytes.length := by
  have ⟨chains, hs, _, c, l, hl, _, _, hb⟩ := hv.exists_chain hf
  have hne : chains h ≠ [] := by simp [hl]
  have ⟨full, last, e⟩ := hs.exists_ends hne
  exact ⟨_, full, last, walks_chain hs hne, e, by rw [← hb, Chain.length_content]⟩

theorem affords (hv : v.Holds files) (hf : files h = some f)
    (hb : blocksFor goal ≤ blocksFor f.bytes.length + v.freeBlocks)
    (hi : linksFor goal ≤ linksFor f.bytes.length + v.freeInodes) : v.Affords h goal := by
  have ⟨_, _, _, hw, e, hsize⟩ := hv.exists_walk hf
  have := e.linksFor_le
  rw [hsize] at this
  rw [hw.affords_iff, hsize]
  omega

theorem blocksFor_le (hv : v.Holds files) (hf : files h = some f) (ha : v.Affords h goal) :
    blocksFor goal ≤ blocksFor f.bytes.length + v.freeBlocks := by
  have ⟨_, _, _, hw, _, hsize⟩ := hv.exists_walk hf
  have hb := (hw.affords_iff.mp ha).left
  rw [hsize] at hb
  omega

theorem wasted_iff (hv : v.Holds files) (hf : files h = some f) :
    v.Wasted h p ↔ blocksFor f.bytes.length % slotsPerInode ≠ 0 ∧
      blocksFor f.bytes.length % slotsPerInode + v.freeBlocks < slotsPerInode ∧
      f.bytes.length + v.freeBlocks * blockSize ≤ p ∧
      p < (blocksFor f.bytes.length + v.freeBlocks) * blockSize := by
  have ⟨_, _, _, hw, _, hsize⟩ := hv.exists_walk hf
  rw [hw.wasted_iff, hsize]

theorem grants (hv : v.Holds files) (hf : files h = some f) (hle : goal ≤ f.bytes.length) :
    v.Grants h f.bytes.length goal 0 := by
  have ha : v.Affords h goal := hv.affords hf
    (Nat.le_trans (blocksFor_mono hle) (Nat.le_add_right ..))
    (Nat.le_trans (linksFor_mono hle) (Nat.le_add_right ..))
  exact ⟨by omega, iff_of_true hle ha, absurd ha⟩

end Volume.Holds

namespace File

variable {v w : Volume} {h : Nat} {l : Chain}

theorem grow_takes (hr : v.Reserved) (hw : v.Walks h l) (hf : l.Formed) {n : Nat}
    (hn : l.size + n < wordLimit) :
    (grow h n).Ensures v
      (fun g w => ∃ k last c m bs js, l = k ++ [(last, c)] ∧
        g.Reaches v.freeBlocks v.freeInodes c.size n 0 ∧ v.Takes w last c m g.grown bs js ∧
        (g.cut = none → m.length = linksFor (c.size + n))) Never := by
  have ⟨k, last, c, hl, hnext⟩ := hw.exists_last
  have hc : v.link? last = some c := hw.links last c (by simp [hl])
  have hcf : c.WellFormed := hf (last, c) (by simp [hl])
  rw [grow]
  by_cases hz : n = 0
  case pos =>
    rw [if_pos hz, hz]
    exact ⟨k, last, c, _, [], [], hl, .zero hcf.bounded, .refl hc hcf hnext,
      fun _ => (linksFor_eq_one hcf.bounded).symm⟩
  case neg =>
    subst hl
    rw [if_neg hz, ensures_bind, ensures_attempt, ensures_query_ok hw.lastLink_eq]
    apply (takesFrom last c n 0 v hr hc hcf hnext).mono
    case ho =>
      rintro g w ⟨hg, m, bs, js, t, hm⟩
      exact ⟨k, last, c, m, bs, js, rfl, hg, t, hm⟩
    case he =>
      intro _ _ he
      rw [Chain.size_append, Chain.size_cons, Chain.size_nil] at hn
      exact absurd he.right (by omega)

variable {files : Nat → Option FileState} {f : FileState}

theorem growZeroed_provides (hv : v.Holds files) (hf : files h = some f) {n : Nat}
    (hn : f.bytes.length + n < wordLimit) :
    (growZeroed h n).Ensures v (fun g _ => g.Provides v h f.bytes.length n) Never := by
  have ⟨chains, hs, _, c, l, hl, _, _, hb⟩ := hv.exists_chain hf
  have hne : chains h ≠ [] := by simp [hl]
  have hw := walks_chain hs hne
  have hsize : (chains h).size = f.bytes.length := by rw [← hb, Chain.length_content]
  rw [growZeroed, ensures_bind, ensures_attempt, ensures_query_ok (hv.fileSize hf)]
  dsimp only
  rw [ensures_bind]
  apply ((grow_ensures hv hf n).and
    (grow_takes hs.reserved hw (hs.formed h) (hsize.symm ▸ hn))).mono
  case he => exact fun _ _ he => he.right.elim
  rintro g u ⟨⟨_, _, _, new, hnew, hu, _⟩, k, last, c, m, bs, js, hk, hg, _⟩
  have hprovides : g.Provides v h f.bytes.length n := hsize ▸ hg.provides (hs.ends_of_eq hk) hw
  rw [ensures_bind, ensures_attempt]
  exact (zero_ensures hu (Function.update_self ..) (by simp [hnew])).mono_never fun _ _ _ => hprovides

end File
end InodeVolume
