import InodeVolume.Proofs.Tree.Faults
import Mathlib.Logic.Relation

namespace InodeVolume

open Volume

variable {v : Volume} {strays crooked : Prop} {owed : Nat → Int} {files : Nat → Option FileState}
variable {d e k p q t : Nat} {f g : FileState}

namespace Volume

def Child (v : Volume) (d e : Nat) : Prop :=
  ∃ name, Proper name ∧ v.Lists d name e

def Encloses (v : Volume) (d e : Nat) : Prop :=
  Relation.ReflTransGen v.Child d e

end Volume

namespace Graph

variable {G : Graph}

theorem Consistent.climbs_root (c : G.Consistent crooked owed) (h : G.Climbs k rootInode e) :
    e = rootInode := by
  induction k
  case zero => exact h.symm
  case succ k hi =>
    have ⟨p, hp, h⟩ := h
    exact hi (c.up_unique hp c.root ▸ h)

theorem Ascends.not_climbs (ha : Ascends G (· ≠ t) d) (c : G.Consistent crooked owed)
    (h0 : t ≠ rootInode) : ¬G.Climbs k d t := by
  induction ha generalizing k
  case root => exact fun h => h0 (c.climbs_root h)
  case up d p hd hu _ hi =>
    intro h
    cases k
    case zero   => exact hd h
    case succ k =>
      have ⟨p', hp', h⟩ := h
      exact hi (c.up_unique hp' hu ▸ h)

end Graph

namespace Arranged

theorem child_iff (a : Arranged crooked owed files) (hv : v.Holds files) :
    v.Child d e ↔ (graph files).Names d e := by
  constructor
  case mp =>
    intro ⟨name, hp, hl⟩
    have ⟨x, hx, hm⟩ := (a.lists_iff hv).mp hl
    exact ⟨x, name, hx, hp, hm⟩
  case mpr =>
    intro ⟨x, name, hx, hp, hm⟩
    exact ⟨name, hp, (a.lists_iff hv).mpr ⟨x, hx, hm⟩⟩

theorem circles_iff (a : Arranged crooked owed files) (hv : v.Holds files)
    (hq : (graph files).IsDir q) : v.Circles t q ↔ (graph files).Circles t q := by
  constructor
  case mp =>
    intro h n e he
    have ⟨e', he', hne⟩ := h n
    rw [a.climb_eq hv he, Except.ok.injEq] at he'
    exact he' ▸ hne
  case mpr =>
    intro h n
    have ⟨e, he, _⟩ := a.consistent.exists_climbs hq n
    exact ⟨e, a.climb_eq hv he, h n e he⟩

theorem encloses_of_climbs (a : Arranged crooked owed files) (hv : v.Holds files)
    (h0 : t ≠ rootInode) (h : (graph files).Climbs k q t) (hq : (graph files).IsDir q) :
    v.Encloses t q := by
  induction k generalizing q
  case zero =>
    obtain rfl : q = t := h
    exact .refl
  case succ k hi =>
    have hq0 : q ≠ rootInode := by
      rintro rfl
      exact h0 (a.consistent.climbs_root h)
    have ⟨p, hp, h⟩ := h
    have ⟨p', hp', hpd, hn⟩ := a.consistent.up q hq
    obtain rfl := a.consistent.up_unique hp hp'
    exact (hi h hpd).tail ((a.child_iff hv).mpr (hn hq0))

end Arranged

namespace Settled

theorem up_of_names (s : Settled strays crooked files) (hn : (graph files).Names p e)
    (he : (graph files).IsDir e) : (graph files).Up e p := by
  have ⟨owed, a, b⟩ := s
  have h0 : e ≠ rootInode := s.ne_root ⟨p, hn⟩
  have ⟨q, hq, _, hnames⟩ := a.consistent.up e he
  have ⟨f, hf, hd⟩ := Arranged.isDir_iff.mp he
  have hone := Nat.le_of_eq (a.count_eq_one b hf hd h0)
  have ⟨_, _, hx, hpx, hmx⟩ := hn
  have ⟨_, _, hy, hpy, hmy⟩ := hnames h0
  have ⟨hpq, _⟩ := Graph.eq_of_count_le a.consistent.bounded hone hx hpx hmx hy hpy hmy
  exact hpq ▸ hq

theorem climbs_of_encloses (s : Settled strays crooked files) (hv : v.Holds files)
    (h : v.Encloses t q) (hq : (graph files).IsDir q) : ∃ k, (graph files).Climbs k q t := by
  have ⟨_, a, _⟩ := s
  induction h
  case refl => exact ⟨0, rfl⟩
  case tail d e _ hc hi =>
    have hn := (a.child_iff hv).mp hc
    have ⟨x, _, hx, _, hm⟩ := hn
    have ⟨k, hk⟩ := hi ⟨x, hx, a.consistent.isDir_of_mem hx hm⟩
    exact ⟨k + 1, d, s.up_of_names hn hq, hk⟩

theorem isWithin_cases (s : Settled strays crooked files) (hv : v.Holds files) (h0 : t ≠ rootInode)
    (hq : (graph files).IsDir q) :
    Tree.isWithin v t q = .ok true ∧ v.Encloses t q ∧ ¬v.Circles t q ∨
      Tree.isWithin v t q = .error (.errno .io) ∧ ¬v.Encloses t q ∧ v.Circles t q ∨
      Tree.isWithin v t q = .ok false ∧ ¬v.Encloses t q ∧ ¬v.Circles t q := by
  have ⟨_, a, _⟩ := s
  rw [a.circles_iff hv hq]
  rcases a.isWithinFrom_cases hv hq t inodeCount with ⟨h, hlong⟩ | ⟨h, k, hk⟩ | ⟨h, _, hasc⟩
  case inl =>
    have hc := a.consistent.circles hq hlong
    refine .inr (.inl ⟨h, fun he => ?_, hc⟩)
    have ⟨k, hk⟩ := s.climbs_of_encloses hv he hq
    exact (hc k t hk).left rfl
  case inr.inl =>
    exact .inl ⟨h, a.encloses_of_climbs hv h0 hk hq, fun hc => (hc k t hk).left rfl⟩
  case inr.inr =>
    refine .inr (.inr ⟨h, fun he => ?_, hasc.not_circles⟩)
    have ⟨k, hk⟩ := s.climbs_of_encloses hv he hq
    exact hasc.not_climbs a.consistent h0 hk

-- Where nothing is crooked, the way up ends, and no directory lies below one that it names.
theorem not_circles (s : Settled strays False files) (hv : v.Holds files)
    (hq : (graph files).IsDir q) : ¬v.Circles t q := by
  have ⟨_, a, _⟩ := s
  rw [a.circles_iff hv hq]
  exact (a.consistent.ascend id q hq).not_circles

theorem not_encloses (s : Settled strays False files) (hv : v.Holds files)
    (hn : (graph files).Names p t) (ht : (graph files).IsDir t) : ¬v.Encloses t p := by
  have ⟨_, a, _⟩ := s
  intro he
  have h0 : t ≠ rootInode := s.ne_root ⟨p, hn⟩
  have hup := s.up_of_names hn ht
  have ⟨x, _, hx, _, hm⟩ := hn
  have ⟨k, hk⟩ := s.climbs_of_encloses hv he ⟨x, hx, a.consistent.isDir_of_mem hx hm⟩
  have ⟨_, p', hp', hasc⟩ := (a.consistent.ascend id t ht).step h0
  obtain rfl := a.consistent.up_unique hup hp'
  exact (hasc.mono fun _ _ h hu => ⟨h.right, hu⟩).not_climbs a.consistent h0 hk

end Settled
end InodeVolume
