import InodeVolume.Proofs.Tree.Graph

namespace InodeVolume.Graph

variable {G : Graph} {crooked : Prop} {owed : Nat → Int} {allowed : Nat → Prop} {d e k t : Nat}

-- Going up leads neither to a certain directory nor to the root, for however long.
def Circles (G : Graph) (t d : Nat) : Prop :=
  ∀ n e, G.Climbs n d e → e ≠ t ∧ e ≠ rootInode

theorem Climbs.trans {m n : Nat} (h₁ : G.Climbs m d e) (h₂ : G.Climbs n e k) :
    G.Climbs (m + n) d k := by
  induction m generalizing d
  case zero =>
    obtain rfl : d = e := h₁
    rwa [Nat.zero_add]
  case succ m hi =>
    have ⟨p, hp, h₁⟩ := h₁
    rw [Nat.succ_add]
    exact ⟨p, hp, hi h₁⟩

theorem Ascends.climbs_root (ha : Ascends G allowed d) : ∃ n, G.Climbs n d rootInode := by
  induction ha
  case root => exact ⟨0, rfl⟩
  case up p _ hu _ hi =>
    have ⟨n, hn⟩ := hi
    exact ⟨n + 1, p, hu, hn⟩

theorem Ascends.not_circles (ha : Ascends G allowed d) : ¬G.Circles t d := by
  intro hc
  have ⟨n, hn⟩ := ha.climbs_root
  exact (hc n rootInode hn).right rfl

namespace Consistent

theorem exists_climbs (c : Consistent crooked owed G) (hd : G.IsDir d) (n : Nat) :
    ∃ e, G.Climbs n d e ∧ G.IsDir e := by
  induction n generalizing d
  case zero => exact ⟨d, rfl, hd⟩
  case succ n hi =>
    have ⟨p, hp, hpd, _⟩ := c.up d hd
    have ⟨e, he, hed⟩ := hi hpd
    exact ⟨e, ⟨p, hp, he⟩, hed⟩

theorem climbs_unique (c : Consistent crooked owed G) {n : Nat} (he : G.Climbs n d e)
    (hk : G.Climbs n d k) : e = k := by
  induction n generalizing d
  case zero => exact Eq.trans (Eq.symm he) hk
  case succ n hi =>
    have ⟨p, hp, he⟩ := he
    have ⟨q, hq, hk⟩ := hk
    obtain rfl := c.up_unique hp hq
    exact hi he hk

theorem circles (c : Consistent crooked owed G) (hd : G.IsDir d)
    (h : ∀ n < inodeCount, ∀ e, G.Climbs n d e → e ≠ t ∧ e ≠ rootInode) : G.Circles t d := by
  by_contra hc
  have hgoal : ∃ n e, G.Climbs n d e ∧ (e = t ∨ e = rootInode) := by
    simpa only [Circles, not_forall, not_and_or, not_not, exists_prop] using hc
  classical
  have ⟨e, he, hg⟩ := Nat.find_spec hgoal
  have hleast := fun m hm => Nat.find_min hgoal (m := m) hm
  generalize Nat.find hgoal = n at he hleast
  choose way hway hdir using c.exists_climbs hd
  have hinj : Set.InjOn way (Finset.range (n + 1)) := by
    have hne : ∀ i j, i < j → j ≤ n → way i ≠ way j := by
      intro i j hij hjn hw
      have ⟨k, hk, _⟩ := c.exists_climbs (hdir j) (n - j)
      have hfar : G.Climbs n d k := by
        have := (hway j).trans hk
        rwa [Nat.add_sub_cancel' hjn] at this
      obtain rfl := c.climbs_unique he hfar
      exact hleast (i + (n - j)) (by omega) ⟨e, (hway i).trans (hw ▸ hk), hg⟩
    intro i hi j hj hw
    simp only [Finset.coe_range, Set.mem_Iio] at hi hj
    rcases Nat.lt_trichotomy i j with hij | hij | hij
    case inl     => exact absurd hw (hne i j hij (by omega))
    case inr.inl => exact hij
    case inr.inr => exact absurd hw.symm (hne j i hij (by omega))
  have hmaps : Set.MapsTo way (Finset.range (n + 1)) (Finset.range inodeCount) := by
    intro i _
    have ⟨a, ha, _⟩ := hdir i
    simpa using c.bounded _ a ha
  have hcard := Finset.card_le_card_of_injOn way hmaps hinj
  simp only [Finset.card_range] at hcard
  exact absurd hg (not_or.mpr (h n hcard e he))

end Consistent
end InodeVolume.Graph
