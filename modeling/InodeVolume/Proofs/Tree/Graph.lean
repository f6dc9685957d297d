import InodeVolume.Geometry
import Mathlib.Algebra.BigOperators.Group.Finset.Basic
import Mathlib.Algebra.Order.BigOperators.Group.Finset
import Mathlib.Logic.Function.Basic

namespace InodeVolume

structure Node where
  isDir : Bool
  refs  : Nat
  names : List (String × Nat)

abbrev Graph : Type := Nat → Option Node

def Proper (name : String) : Prop :=
  name ≠ "." ∧ name ≠ ".."

instance (name : String) : Decidable (Proper name) :=
  inferInstanceAs (Decidable (_ ∧ _))

def Node.namings (a : Node) (h : Nat) : Nat :=
  a.names.countP fun p => Proper p.1 ∧ p.2 = h

theorem update_some_iff {α : Type} {f : Nat → Option α} {i k : Nat} {x y : α} :
    Function.update f i (some x) k = some y ↔ k = i ∧ y = x ∨ k ≠ i ∧ f k = some y := by
  by_cases hk : k = i <;> simp [hk, eq_comm]

theorem update_none_iff {α : Type} {f : Nat → Option α} {i k : Nat} {y : α} :
    Function.update f i none k = some y ↔ k ≠ i ∧ f k = some y := by
  by_cases hk : k = i <;> simp [hk]

namespace Graph

def count (G : Graph) (h : Nat) : Nat :=
  ∑ d ∈ Finset.range inodeCount, (G d).elim 0 (·.namings h)

def IsDir (G : Graph) (d : Nat) : Prop :=
  ∃ a, G d = some a ∧ a.isDir

def Up (G : Graph) (d p : Nat) : Prop :=
  ∃ a, G d = some a ∧ a.isDir ∧ ("..", p) ∈ a.names

def Names (G : Graph) (d h : Nat) : Prop :=
  ∃ a name, G d = some a ∧ Proper name ∧ (name, h) ∈ a.names

-- Going up from a directory ends at the root. All directories passed on the way are allowed ones.
inductive Ascends (G : Graph) (allowed : Nat → Prop) : Nat → Prop
  | root : Ascends G allowed rootInode
  | up {d p : Nat} : allowed d → G.Up d p → Ascends G allowed p → Ascends G allowed d

variable {G G' : Graph} {d h t : Nat} {a b : Node} {name : String}

theorem Ascends.mono {allowed allowed' : Nat → Prop} (ha : Ascends G allowed d)
    (h : ∀ d p, allowed d → G.Up d p → allowed' d ∧ G'.Up d p) : Ascends G' allowed' d := by
  induction ha
  case root => exact .root
  case up hd hu _ hi =>
    have ⟨hd, hu⟩ := h _ _ hd hu
    exact .up hd hu hi

theorem Ascends.avoid (ha : Ascends G (fun _ => True) d) (hd : d ≠ t) (ht : ∀ k, ¬G.Up k t) :
    Ascends G (· ≠ t) d := by
  induction ha
  case root => exact .root
  case up hu _ hi => exact .up hd hu (hi fun e => ht _ (e ▸ hu))

theorem Ascends.divert (ha : Ascends G (fun _ => True) d)
    (hu : ∀ k p, k ≠ t → G.Up k p → G'.Up k p) (ht : Ascends G' (fun _ => True) t) :
    Ascends G' (fun _ => True) d := by
  induction ha
  case root => exact .root
  case up k p _ hkp _ hi =>
    by_cases hk : k = t
    case pos => exact hk ▸ ht
    case neg => exact .up trivial (hu k p hk hkp) hi

def Climbs (G : Graph) : Nat → Nat → Nat → Prop
  | 0, d, e     => d = e
  | n + 1, d, e => ∃ p, G.Up d p ∧ Climbs G n p e

theorem Ascends.skip {allowed : Nat → Prop} (ha : Ascends G allowed d) (t : Nat) :
    Ascends G (fun k => allowed k ∧ k ≠ t) d ∨
      ∃ p, G.Up t p ∧ Ascends G (fun k => allowed k ∧ k ≠ t) p := by
  induction ha
  case root => exact .inl .root
  case up k p hk hu _ hi =>
    cases hi
    case inr hi => exact .inr hi
    case inl hi =>
      by_cases hkt : k = t
      case pos => exact .inr ⟨p, hkt ▸ hu, hi⟩
      case neg => exact .inl (.up ⟨hk, hkt⟩ hu hi)

theorem Ascends.step {allowed : Nat → Prop} (ha : Ascends G allowed d) (h0 : d ≠ rootInode) :
    allowed d ∧ ∃ p, G.Up d p ∧ Ascends G (fun k => allowed k ∧ k ≠ d) p := by
  constructor
  case left =>
    match ha with
    | .root      => exact absurd rfl h0
    | .up hd _ _ => exact hd
  case right =>
    refine (ha.skip d).resolve_left fun h => ?_
    match h with
    | .root      => exact h0 rfl
    | .up hd _ _ => exact hd.right rfl

theorem Ascends.climbs {s : Finset Nat} (ha : Ascends G (· ∈ s) d) :
    ∃ n ≤ s.card, G.Climbs n d rootInode := by
  generalize hn : s.card = n
  induction n generalizing s d
  case zero =>
    by_cases h0 : d = rootInode
    case pos => exact ⟨0, Nat.le_refl 0, h0⟩
    case neg => simp [Finset.card_eq_zero.mp hn] at ha; exact absurd (ha.step h0).left (by simp)
  case succ n hi =>
    by_cases h0 : d = rootInode
    case pos => exact ⟨0, Nat.zero_le _, h0⟩
    case neg =>
      have ⟨hd, p, hp, hasc⟩ := ha.step h0
      have hcard : (s.erase d).card = n := by rw [Finset.card_erase_of_mem hd, hn]; rfl
      have hasc' : Ascends G (· ∈ s.erase d) p :=
        hasc.mono fun k _ hk hu => ⟨Finset.mem_erase.mpr hk.symm, hu⟩
      have ⟨m, hm, hc⟩ := hi hasc' hcard
      exact ⟨m + 1, Nat.succ_le_succ hm, p, hp, hc⟩

theorem Ascends.climbs_lt (ha : Ascends G (fun _ => True) d) (hb : ∀ k, G.IsDir k → k < inodeCount) :
    ∃ n < inodeCount, G.Climbs n d rootInode := by
  have hasc : Ascends G (· ∈ (Finset.range inodeCount).erase rootInode) d := by
    induction ha
    case root => exact .root
    case up k p _ hu _ hi =>
      by_cases h0 : k = rootInode
      case pos => rw [h0]; exact .root
      case neg =>
        have ⟨x, hx, hxd, _⟩ := hu
        exact .up (Finset.mem_erase.mpr ⟨h0, Finset.mem_range.mpr (hb k ⟨x, hx, hxd⟩)⟩) hu hi
  have ⟨n, hn, hc⟩ := hasc.climbs
  rw [Finset.card_erase_of_mem (by simp), Finset.card_range] at hn
  exact ⟨n, by lia, hc⟩

-- All nodes of a graph are in another one, each of the same kind and with all of its names.
def Within (G G' : Graph) : Prop :=
  ∀ k a, G k = some a → ∃ b, G' k = some b ∧ b.isDir = a.isDir ∧ a.names ⊆ b.names

namespace Within

theorem trans {H : Graph} (w : Within G G') (w' : Within G' H) : Within G H := by
  intro k a ha
  have ⟨b, hb, hbd, hbn⟩ := w k a ha
  have ⟨x, hx, hxd, hxn⟩ := w' k b hb
  exact ⟨x, hx, hxd.trans hbd, List.Subset.trans hbn hxn⟩

theorem create (hn : G h = none) (b : Node) : Within G (Function.update G h (some b)) := by
  intro k a ha
  exact ⟨a, update_some_iff.mpr (.inr ⟨by grind, ha⟩), rfl, List.Subset.refl _⟩

theorem drop (G : Graph) (h : Nat) : Within (Function.update G h none) G :=
  fun _ a ha => ⟨a, (update_none_iff.mp ha).right, rfl, List.Subset.refl _⟩

theorem enter (ha : G d = some a) (hd : b.isDir = a.isDir) (hn : a.names ⊆ b.names) :
    Within G (Function.update G d (some b)) := by
  intro k x hx
  by_cases hk : k = d
  case pos =>
    obtain rfl := Option.some.inj ((hk ▸ hx).symm.trans ha)
    exact ⟨b, update_some_iff.mpr (.inl ⟨hk, rfl⟩), hd, hn⟩
  case neg => exact ⟨x, update_some_iff.mpr (.inr ⟨hk, hx⟩), rfl, List.Subset.refl _⟩

theorem leave (ha : G d = some a) (hd : b.isDir = a.isDir) (hn : b.names ⊆ a.names) :
    Within (Function.update G d (some b)) G := by
  intro k x hx
  cases update_some_iff.mp hx
  case inl hx => exact ⟨a, hx.left ▸ ha, hx.right ▸ hd.symm, hx.right ▸ hn⟩
  case inr hx => exact ⟨x, hx.right, rfl, List.Subset.refl _⟩

theorem isSome (w : Within G G') (hs : (G h).isSome) : (G' h).isSome :=
  have ⟨_, hb, _⟩ := w h _ (Option.some_get hs).symm
  Option.isSome_of_mem hb

theorem isDir (w : Within G G') (hd : G.IsDir d) : G'.IsDir d :=
  have ⟨a, ha, had⟩ := hd
  have ⟨b, hb, hbd, _⟩ := w d a ha
  ⟨b, hb, hbd.trans had⟩

theorem up (w : Within G G') {p : Nat} (hu : G.Up d p) : G'.Up d p :=
  have ⟨a, ha, had, hp⟩ := hu
  have ⟨b, hb, hbd, hbn⟩ := w d a ha
  ⟨b, hb, hbd.trans had, hbn hp⟩

theorem names (w : Within G G') (hn : G.Names d h) : G'.Names d h :=
  have ⟨a, name, ha, hp, hm⟩ := hn
  have ⟨b, hb, _, hbn⟩ := w d a ha
  ⟨b, name, hb, hp, hbn hm⟩

theorem ascends (w : Within G G') {allowed : Nat → Prop} (ha : Ascends G allowed d) :
    Ascends G' (fun _ => True) d :=
  ha.mono fun _ _ _ hu => ⟨trivial, w.up hu⟩

end Within

theorem namings_perm {l : List (String × Nat)} (hp : b.names.Perm ((name, t) :: l)) (hn : Proper name)
    (h : Nat) :
    b.namings h = l.countP (fun p => Proper p.1 ∧ p.2 = h) + if t = h then 1 else 0 := by
  rw [Node.namings, hp.countP_eq, List.countP_cons]
  simp [hn]

theorem count_update (G : Graph) (x : Option Node) (hd : d < inodeCount) (h : Nat) :
    count (Function.update G d x) h + (G d).elim 0 (·.namings h) =
      count G h + x.elim 0 (·.namings h) := by
  have hm := Finset.mem_range.mpr hd
  rw [count, count, ← Finset.add_sum_erase _ _ hm, ← Finset.add_sum_erase _ _ hm,
    Function.update_self]
  have : ∑ k ∈ (Finset.range inodeCount).erase d,
        (Function.update G d x k).elim 0 (·.namings h) =
      ∑ k ∈ (Finset.range inodeCount).erase d, (G k).elim 0 (·.namings h) := by
    refine Finset.sum_congr rfl fun k hk => ?_
    rw [Function.update_of_ne (Finset.ne_of_mem_erase hk)]
  rw [this]
  omega

theorem count_same {x : Option Node} (hd : d < inodeCount)
    (hx : x.elim 0 (·.namings h) = (G d).elim 0 (·.namings h)) :
    count (Function.update G d x) h = count G h := by
  have := count_update G x hd h
  omega

theorem count_enter (ha : G d = some a) (hd : d < inodeCount) (hn : Proper name)
    (hb : b.names.Perm ((name, t) :: a.names)) (h : Nat) :
    count (Function.update G d (some b)) h = count G h + if t = h then 1 else 0 := by
  have hc := count_update G (some b) hd h
  have hbn : b.namings h = a.namings h + if t = h then 1 else 0 := namings_perm hb hn h
  rw [ha, Option.elim_some, Option.elim_some] at hc
  omega

theorem count_leave (ha : G d = some a) (hd : d < inodeCount) (hn : Proper name)
    (hb : a.names.Perm ((name, t) :: b.names)) (h : Nat) :
    count G h = count (Function.update G d (some b)) h + if t = h then 1 else 0 := by
  have hc := count_update G (some b) hd h
  have han : a.namings h = b.namings h + if t = h then 1 else 0 := namings_perm hb hn h
  rw [ha, Option.elim_some, Option.elim_some] at hc
  omega

theorem namings_of_bare (hb : ∀ n u, (n, u) ∈ b.names → ¬Proper n) (h : Nat) : b.namings h = 0 := by
  rw [Node.namings, List.countP_eq_zero]
  intro (n, u) hu hp
  simp only [decide_eq_true_eq] at hp
  exact hb n u hu hp.left

theorem count_eq_zero (hb : ∀ d a, G d = some a → d < inodeCount) :
    count G h = 0 ↔ ∀ d, ¬G.Names d h := by
  rw [count, Finset.sum_eq_zero_iff]
  constructor
  case mp =>
    intro hz d ⟨a, name, ha, hn, hm⟩
    have := hz d (Finset.mem_range.mpr (hb d a ha))
    rw [ha, Option.elim_some, Node.namings, List.countP_eq_zero] at this
    exact this _ hm (by simp [hn])
  case mpr =>
    intro hn d _
    cases ha : G d
    case none => rfl
    case some a =>
      rw [Option.elim_some, Node.namings, List.countP_eq_zero]
      intro (name, t) hm hp
      simp only [decide_eq_true_eq] at hp
      exact hn d ⟨a, name, ha, hp.left, hp.right ▸ hm⟩

theorem eq_of_count_le {p q : Nat} {n m : String} (hb : ∀ d a, G d = some a → d < inodeCount)
    (hc : count G h ≤ 1) (ha : G p = some a) (hn : Proper n) (hnm : (n, h) ∈ a.names)
    (hx : G q = some b) (hm : Proper m) (hmm : (m, h) ∈ b.names) : p = q ∧ n = m := by
  have hp := Finset.mem_range.mpr (hb p a ha)
  have hq := Finset.mem_range.mpr (hb q b hx)
  by_cases hpq : p = q
  case pos =>
    subst hpq
    obtain rfl := Option.some.inj (ha.symm.trans hx)
    refine ⟨rfl, ?_⟩
    by_contra hne
    have hsub : [(n, h), (m, h)] ⊆ a.names := by simp [hnm, hmm]
    have htwo := (List.Nodup.subperm (by simp [hne]) hsub).countP_le fun x => Proper x.1 ∧ x.2 = h
    have hle := Finset.single_le_sum (f := fun d => (G d).elim 0 (·.namings h))
      (fun _ _ => Nat.zero_le _) hp
    simp only [ha, Option.elim_some] at hle
    simp only [hn, hm, List.countP_cons, and_self, decide_true, if_true, List.countP_nil] at htwo
    exact absurd (Nat.le_trans (Nat.le_trans htwo hle) hc) (by decide)
  case neg =>
    exfalso
    have hone : ∀ {x : Node} {l : String}, Proper l → (l, h) ∈ x.names → 1 ≤ x.namings h := by
      intro x l hl hmem
      exact List.countP_pos_iff.mpr ⟨_, hmem, by simp [hl]⟩
    have hle := Finset.sum_le_sum_of_subset (f := fun d => (G d).elim 0 (·.namings h))
      (Finset.insert_subset hp (Finset.singleton_subset_iff.mpr hq))
    rw [Finset.sum_pair hpq, ha, hx] at hle
    have := hone hn hnm
    have := hone hm hmm
    simp only [Option.elim_some] at hle
    rw [count] at hc
    omega

-- A graph in which every node is where it is supposed to be. References count the names of a node,
-- apart from what it is owed. A crooked graph is one where not every directory needs to lie below
-- the root.
structure Consistent (crooked : Prop) (owed : Nat → Int) (G : Graph) : Prop where
  bounded  : ∀ h a, G h = some a → h < inodeCount
  leaf     : ∀ h a, G h = some a → ¬a.isDir → a.names = []
  distinct : ∀ h a, G h = some a → (a.names.map (·.1)).Nodup
  named    : ∀ d a n t, G d = some a → (n, t) ∈ a.names → (G t).isSome
  self     : ∀ d a, G d = some a → a.isDir → (".", d) ∈ a.names
  up       : ∀ d, G.IsDir d → ∃ p, G.Up d p ∧ G.IsDir p ∧ (d ≠ rootInode → G.Names p d)
  root     : G.Up rootInode rootInode
  refs     : ∀ h a, G h = some a → (a.refs : Int) = G.count h + owed h
  ascend   : ¬crooked → ∀ d, G.IsDir d → G.Ascends (fun _ => True) d

namespace Consistent

variable {crooked : Prop} {owed owed' : Nat → Int}

theorem up_unique (c : Consistent crooked owed G) {p q : Nat} (hp : G.Up d p) (hq : G.Up d q) :
    p = q := by
  have ⟨a, ha, _, hpa⟩ := hp
  have ⟨b, hb, _, hqb⟩ := hq
  obtain rfl := Option.some.inj (ha.symm.trans hb)
  exact (Prod.mk.inj (List.inj_on_of_nodup_map (c.distinct d a ha) hpa hqb rfl)).right

theorem named_above (c : Consistent crooked owed G) (ha : G d = some a) (ht : G.Up t d)
    (h0 : t ≠ rootInode) : ∃ n, Proper n ∧ (n, t) ∈ a.names := by
  have ⟨x, hx, hd, _⟩ := ht
  have ⟨p, hp, _, hn⟩ := c.up t ⟨x, hx, hd⟩
  obtain rfl := c.up_unique ht hp
  have ⟨y, n, hy, hn, hm⟩ := hn h0
  obtain rfl := Option.some.inj (ha.symm.trans hy)
  exact ⟨n, hn, hm⟩

theorem not_mem_of_none (c : Consistent crooked owed G) (hh : G h = none) (ha : G d = some a) :
    (name, h) ∉ a.names := by
  intro hm
  simpa [hh] using c.named d a name h ha hm

theorem count_of_none (c : Consistent crooked owed G) (hh : G h = none) : G.count h = 0 :=
  (count_eq_zero c.bounded).mpr fun _ ⟨_, _, ha, _, hm⟩ => c.not_mem_of_none hh ha hm

theorem edit (c : Consistent crooked owed G) (ha : G d = some a) (hb : b.isDir = a.isDir)
    (hl : ¬a.isDir → b.names = []) (hd : (b.names.map (·.1)).Nodup)
    (hn : ∀ n t, (n, t) ∈ b.names → (G t).isSome)
    (hs : ∀ n t, ¬Proper n → ((n, t) ∈ b.names ↔ (n, t) ∈ a.names))
    (hu : ∀ k, G.Up k d → k ≠ rootInode → ∃ n, Proper n ∧ (n, k) ∈ b.names)
    (ho : ∀ h, owed' h + b.namings h =
      owed h + a.namings h + if h = d then (b.refs - a.refs : Int) else 0) :
    Consistent crooked owed' (Function.update G d (some b)) := by
  have hg : ∀ k x, Function.update G d (some b) k = some x ↔
      k = d ∧ x = b ∨ k ≠ d ∧ G k = some x := fun _ _ => update_some_iff
  have hisDir : ∀ k, Graph.IsDir (Function.update G d (some b)) k ↔ G.IsDir k := by
    intro k
    by_cases hk : k = d
    case pos => simp [IsDir, hk, ha, hb]
    case neg => simp [IsDir, hk]
  -- names that are not proper ones stay, and so does every way up
  have hup : ∀ k p, Graph.Up (Function.update G d (some b)) k p ↔ G.Up k p := by
    intro k p
    by_cases hk : k = d
    case pos => simp [Up, hk, ha, hb, hs ".." p (by simp [Proper])]
    case neg => simp [Up, hk]
  have hsome : ∀ t, (G t).isSome → (Function.update G d (some b) t).isSome := by
    intro t ht
    by_cases htd : t = d <;> simp [htd, ht]
  exact {
    bounded  := by have := c.bounded; grind
    leaf     := by have := c.leaf; grind
    distinct := by have := c.distinct; grind
    named    := by have := c.named; grind
    self     := by
      have := c.self
      have := hs "."
      grind [Proper]
    up := by
      intro k hk
      have ⟨p, hkp, hp, hpn⟩ := c.up k ((hisDir k).mp hk)
      refine ⟨p, (hup k p).mpr hkp, (hisDir p).mpr hp, fun h0 => ?_⟩
      by_cases hpd : p = d
      case pos =>
        have ⟨n, hn, hm⟩ := hu k (hpd ▸ hkp) h0
        exact ⟨b, n, by simp [hpd], hn, hm⟩
      case neg =>
        have ⟨x, n, hx, hn, hm⟩ := hpn h0
        exact ⟨x, n, by simp [hpd, hx], hn, hm⟩
    root := (hup _ _).mpr c.root
    refs := by
      intro h x hx
      have hc := count_update G (some b) (c.bounded d a ha) h
      have := c.refs h
      have := ho h
      rw [ha, Option.elim_some, Option.elim_some] at hc
      cases (hg h x).mp hx
      case inl hx => grind
      case inr hx => grind
    ascend := fun hc k hk =>
      (c.ascend hc k ((hisDir k).mp hk)).mono fun k p _ hkp => ⟨trivial, (hup k p).mpr hkp⟩
  }

theorem enter (c : Consistent crooked owed G) (ha : G d = some a) (hdir : a.isDir)
    (ht : (G t).isSome) (hp : Proper name) (hn : ∀ u, (name, u) ∉ a.names)
    {names : List (String × Nat)} (hb : names.Perm ((name, t) :: a.names)) :
    Consistent crooked (Function.update owed t (owed t - 1))
      (Function.update G d (some { a with names })) := by
  have hm : ∀ n u, (n, u) ∈ names ↔ (n = name ∧ u = t) ∨ (n, u) ∈ a.names := by
    simp [hb.mem_iff]
  refine c.edit ha rfl (by simp [hdir]) ?distinct ?named ?special ?up ?owed
  case distinct =>
    rw [(hb.map _).nodup_iff, List.map_cons, List.nodup_cons]
    exact ⟨by simpa using hn, c.distinct d a ha⟩
  case named =>
    have := c.named d a
    grind
  case special => grind
  case up =>
    intro k hk h0
    have ⟨n, hn, hxm⟩ := c.named_above ha hk h0
    exact ⟨n, hn, (hm n k).mpr (.inr hxm)⟩
  case owed =>
    intro h
    have : Node.namings { a with names } h = a.namings h + if t = h then 1 else 0 :=
      namings_perm hb hp h
    rw [Function.update_apply]
    grind

-- A directory loses an entry. If that named a directory, the one above it still names it.
theorem leave (c : Consistent crooked owed G) (ha : G d = some a) (hdir : a.isDir)
    (hp : Proper name) {names : List (String × Nat)} (hb : a.names.Perm ((name, t) :: names))
    (hu : G.Up t d → t ≠ rootInode → ∃ n, Proper n ∧ (n, t) ∈ names) :
    Consistent crooked (Function.update owed t (owed t + 1))
      (Function.update G d (some { a with names })) := by
  have hm : ∀ n u, (n, u) ∈ a.names ↔ (n = name ∧ u = t) ∨ (n, u) ∈ names := by
    simp [hb.mem_iff]
  refine c.edit ha rfl (by simp [hdir]) ?distinct ?named ?special ?up ?owed
  case distinct =>
    have := c.distinct d a ha
    rw [(hb.map _).nodup_iff, List.map_cons, List.nodup_cons] at this
    exact this.right
  case named =>
    have := c.named d a
    grind
  case special => grind
  case up =>
    intro k hk h0
    by_cases hkt : k = t
    case pos => exact hkt ▸ hu (hkt ▸ hk) (hkt ▸ h0)
    have ⟨n, hn, hxm⟩ := c.named_above ha hk h0
    exact ⟨n, hn, ((hm n k).mp hxm).resolve_left fun e => hkt e.right⟩
  case owed =>
    intro h
    have : a.namings h = Node.namings { a with names } h + if t = h then 1 else 0 :=
      namings_perm hb hp h
    rw [Function.update_apply]
    grind

theorem claim (c : Consistent crooked owed G) (ha : G d = some a) (refs : Nat) :
    Consistent crooked (Function.update owed d (owed d + refs - a.refs))
      (Function.update G d (some { a with refs })) := by
  refine c.edit ha rfl (c.leaf d a ha) (c.distinct d a ha) (fun n t => c.named d a n t ha) ?_ ?_ ?_
  case refine_1 => exact fun _ _ _ => .rfl
  case refine_2 => exact fun k hk h0 => c.named_above (a := a) ha hk h0
  case refine_3 =>
    intro h
    have : Node.namings { a with refs } h = a.namings h := rfl
    rw [Function.update_apply]
    grind

theorem create (c : Consistent crooked owed G) (hn : G h = none) (hh : h < inodeCount)
    (hl : ¬b.isDir → b.names = []) (hd : (b.names.map (·.1)).Nodup)
    (hm : ∀ n t, (n, t) ∈ b.names → t = h)
    (hb : b.isDir → crooked ∧ (".", h) ∈ b.names ∧ ("..", h) ∈ b.names ∧
      ∃ n, Proper n ∧ (n, h) ∈ b.names) :
    Consistent crooked (Function.update owed h (b.refs - b.namings h))
      (Function.update G h (some b)) := by
  have hg : ∀ k x, Function.update G h (some b) k = some x ↔
      k = h ∧ x = b ∨ k ≠ h ∧ G k = some x := fun _ _ => update_some_iff
  have w : Within G (Function.update G h (some b)) := Within.create hn b
  have hold : ∀ d n x, G d = some x → (n, h) ∉ x.names := fun _ _ _ => c.not_mem_of_none hn
  exact {
    bounded  := by have := c.bounded; grind
    leaf     := by have := c.leaf; grind
    distinct := by have := c.distinct; grind
    named    := by
      intro k x n t hx hnt
      cases (hg k x).mp hx
      case inl hx => simp [hm n t (hx.right ▸ hnt)]
      case inr hx => exact w.isSome (c.named k x n t hx.right hnt)
    self     := by have := c.self; grind
    root     := w.up c.root
    up := by
      intro k ⟨x, hx, hxd⟩
      cases (hg k x).mp hx
      case inl hx =>
        obtain ⟨rfl, rfl⟩ := hx
        have ⟨_, _, hbu, n, hp, hnm⟩ := hb hxd
        exact ⟨k, ⟨x, by simp, hxd, hbu⟩, ⟨x, by simp, hxd⟩, fun _ => ⟨x, n, by simp, hp, hnm⟩⟩
      case inr hx =>
        have ⟨p, hkp, hpd, hpn⟩ := c.up k ⟨x, hx.right, hxd⟩
        exact ⟨p, w.up hkp, w.isDir hpd, fun h0 => w.names (hpn h0)⟩
    refs := by
      intro k x hx
      have hc := count_update G (some b) hh k
      rw [hn, Option.elim_none, Option.elim_some, Nat.add_zero] at hc
      rw [Function.update_apply]
      cases (hg k x).mp hx
      case inl hx =>
        obtain ⟨rfl, rfl⟩ := hx
        have := c.count_of_none hn
        rw [if_pos rfl]
        omega
      case inr hx =>
        have : b.namings k = 0 := by
          rw [Node.namings, List.countP_eq_zero]
          intro (n, t) hnt hp
          simp only [decide_eq_true_eq] at hp
          exact hx.left (hp.right ▸ hm n t hnt)
        have := c.refs k x hx.right
        rw [if_neg hx.left]
        omega
    ascend := by
      intro hc k ⟨x, hx, hxd⟩
      cases (hg k x).mp hx
      case inl hx => exact absurd (hb (hx.right ▸ hxd)).left hc
      case inr hx => exact w.ascends (c.ascend hc k ⟨x, hx.right, hxd⟩)
  }

theorem isDir_of_mem (c : Consistent crooked owed G) (ha : G d = some a) {p : String × Nat}
    (hp : p ∈ a.names) : a.isDir := by
  by_contra hd
  simp [c.leaf d a ha hd] at hp

theorem eq_of_self (c : Consistent crooked owed G) (ha : G d = some a) (hm : (".", t) ∈ a.names) :
    t = d := by
  have := c.self d a ha (c.isDir_of_mem ha hm)
  exact (Prod.mk.inj (List.inj_on_of_nodup_map (c.distinct d a ha) hm this rfl)).right

theorem make (c : Consistent crooked owed G) (ha : G d = some a) (hdir : a.isDir)
    (hp : Proper name) (hn : ∀ u, (name, u) ∉ a.names) {names : List (String × Nat)}
    (hperm : names.Perm ((name, h) :: a.names)) (hh : G h = none) (hlt : h < inodeCount)
    (refs : Nat) :
    Consistent crooked (Function.update owed h (refs - 1))
      (Function.update (Function.update G d (some { a with names })) h
        (some ⟨true, refs, [(".", h), ("..", d)]⟩)) := by
  generalize hb : (⟨true, refs, [(".", h), ("..", d)]⟩ : Node) = b
  generalize ha' : ({ a with names } : Node) = a'
  have hne : d ≠ h := by
    intro e
    simp [← e, ha] at hh
  let G' : Graph := Function.update (Function.update G d (some a')) h (some b)
  have hg : ∀ k x, G' k = some x ↔
      k = h ∧ x = b ∨ k ≠ h ∧ (k = d ∧ x = a' ∨ k ≠ d ∧ G k = some x) := by
    simp [G', update_some_iff]
  have hda : a'.isDir = a.isDir := by simp [← ha']
  have hra : a'.refs = a.refs := by simp [← ha']
  have hna : a'.names.Perm ((name, h) :: a.names) := by simp [← ha', hperm]
  have hdb : b.isDir := by simp [← hb]
  have hrb : b.refs = refs := by simp [← hb]
  have hmb : ∀ n u, (n, u) ∈ b.names ↔ n = "." ∧ u = h ∨ n = ".." ∧ u = d := by
    simp [← hb]
  have hma : ∀ n u, (n, u) ∈ a'.names ↔ (n = name ∧ u = h) ∨ (n, u) ∈ a.names := by
    simp [hna.mem_iff]
  have hh' : Function.update G d (some a') h = none := by rw [Function.update_of_ne hne.symm, hh]
  have w : Within G G' := by
    refine .trans (.enter ha hda ?_) (.create hh' b)
    exact List.Subset.trans (List.subset_cons_self ..) hna.symm.subset
  have hisDir : ∀ k, G'.IsDir k → k = h ∨ G.IsDir k := by
    intro k ⟨x, hx, hxd⟩
    have := (hg k x).mp hx
    grind [IsDir]
  have hupb : G'.Up h d := ⟨b, (hg h b).mpr (.inl ⟨rfl, rfl⟩), hdb, (hmb ..).mpr (by simp)⟩
  -- the new directory has no proper name for anything, so the entry for it is all that counts
  have hcount : ∀ k, G'.count k = G.count k + if h = k then 1 else 0 := by
    intro k
    have hnb : b.namings k = 0 := namings_of_bare (by grind [Proper]) k
    rw [← count_enter ha (c.bounded d a ha) hp hna]
    exact count_same hlt (by rw [hh', Option.elim_some, hnb]; rfl)
  exact {
    bounded  := by have := c.bounded; grind
    leaf     := by have := c.leaf; grind
    distinct := by
      have := c.distinct
      have hnda : (a'.names.map (·.1)).Nodup := by
        rw [(hna.map _).nodup_iff, List.map_cons, List.nodup_cons]
        exact ⟨by simpa using hn, c.distinct d a ha⟩
      have hndb : (b.names.map (·.1)).Nodup := by simp [← hb]
      grind
    named    := by
      intro k x n t hx hm
      by_cases hth : t = h
      case pos => simp [hth]
      case neg =>
        have := c.named
        exact w.isSome (by grind)
    self     := by have := c.self; grind
    root     := w.up c.root
    up := by
      intro k hk
      cases hisDir k hk
      case inl hk =>
        subst hk
        refine ⟨d, hupb, w.isDir ⟨a, ha, hdir⟩, fun _ => ?_⟩
        exact ⟨a', name, (hg d a').mpr (by simp [hne]), hp, (hma ..).mpr (.inl ⟨rfl, rfl⟩)⟩
      case inr hk =>
        have ⟨p, hkp, hpd, hpn⟩ := c.up k hk
        exact ⟨p, w.up hkp, w.isDir hpd, fun h0 => w.names (hpn h0)⟩
    refs := by
      intro k x hx
      have := c.count_of_none hh
      have := c.refs k
      have := c.refs d a ha
      have := hcount k
      have := (hg k x).mp hx
      rw [Function.update_apply]
      grind
    ascend := by
      intro hc k hk
      cases hisDir k hk
      case inl hk =>
        subst hk
        exact .up trivial hupb (w.ascends (c.ascend hc d ⟨a, ha, hdir⟩))
      case inr hk => exact w.ascends (c.ascend hc k hk)
  }

theorem ne_of_up (c : Consistent crooked owed G) (ht : G t = some b)
    (hbare : ∀ n u, (n, u) ∈ b.names → ¬Proper n) (h0 : t ≠ rootInode) {k : Nat} (hk : G.Up k t) :
    False := by
  by_cases hk0 : k = rootInode
  case pos => exact h0 (c.up_unique (hk0 ▸ hk) c.root)
  case neg =>
    have ⟨n, hn, hm⟩ := c.named_above ht hk hk0
    exact hbare n k hm hn

theorem drop (c : Consistent crooked owed G) (ha : G d = some a) (hp : Proper name)
    {names : List (String × Nat)} (hperm : a.names.Perm ((name, t) :: names)) (ht : G t = some b)
    (hne : t ≠ d) (h0 : t ≠ rootInode) (hbare : ∀ n u, (n, u) ∈ b.names → ¬Proper n)
    (hlast : G.count t = 1) :
    Consistent crooked owed
      (Function.update (Function.update G d (some { a with names })) t none) := by
  generalize ha' : ({ a with names } : Node) = a'
  have hda : a'.isDir = a.isDir := by simp [← ha']
  have hra : a'.refs = a.refs := by simp [← ha']
  have hna : a.names.Perm ((name, t) :: a'.names) := by simp [← ha', hperm]
  have hm : ∀ n u, (n, u) ∈ a.names ↔ (n = name ∧ u = t) ∨ (n, u) ∈ a'.names := by
    simp [hna.mem_iff]
  have hdir : a.isDir := c.isDir_of_mem ha ((hm name t).mpr (.inl ⟨rfl, rfl⟩))
  have hsub : a'.names ⊆ a.names :=
    List.Subset.trans (List.subset_cons_self ..) hna.symm.subset
  let G' : Graph := Function.update (Function.update G d (some a')) t none
  have hg : ∀ k x, G' k = some x ↔ k ≠ t ∧ (k = d ∧ x = a' ∨ k ≠ d ∧ G k = some x) := by
    simp [G', update_some_iff, update_none_iff]
  have w : Within G' G := .trans (.drop _ t) (.leave ha hda hsub)
  have hcount : ∀ k, G.count k = G'.count k + if t = k then 1 else 0 := by
    intro k
    have hnb : b.namings k = 0 := namings_of_bare hbare k
    rw [count_leave ha (c.bounded d a ha) hp hna, Nat.add_right_cancel_iff]
    refine (count_same (c.bounded t b ht) ?_).symm
    rw [Function.update_of_ne hne, ht, Option.elim_some, hnb]
    rfl
  have hbounded : ∀ k x, G' k = some x → k < inodeCount := by have := c.bounded; grind
  -- Nothing that is left names the node that goes.
  have hgone : ∀ k x n, G' k = some x → (n, t) ∉ x.names := by
    intro k x n hx hmx
    have ⟨y, hy, _, hyn⟩ := w k x hx
    have hym := hyn hmx
    by_cases hn : Proper n
    case pos =>
      have : G'.count t = 0 := by have := hcount t; simp only [if_true] at this; omega
      exact (count_eq_zero hbounded).mp this k ⟨x, n, hx, hn, hmx⟩
    case neg =>
      have : n = "." ∨ n = ".." := by simpa only [Proper, ne_eq, not_and_or, not_not] using hn
      cases this
      case inl hn => exact ((hg k x).mp hx).left (c.eq_of_self hy (hn ▸ hym)).symm
      case inr hn => exact c.ne_of_up ht hbare h0 ⟨y, hy, c.isDir_of_mem hy hym, hn ▸ hym⟩
  -- What is left has all other names that it had.
  have hkept : ∀ k x, k ≠ t → G k = some x →
      ∃ y, G' k = some y ∧ y.isDir = x.isDir ∧ ∀ n u, (n, u) ∈ x.names →
        (n = name ∧ u = t) ∨ (n, u) ∈ y.names := by
    intro k x hk hx
    by_cases hkd : k = d
    case pos =>
      obtain rfl := Option.some.inj ((hkd ▸ hx).symm.trans ha)
      exact ⟨a', (hg k a').mpr ⟨hk, .inl ⟨hkd, rfl⟩⟩, hda, fun n u => (hm n u).mp⟩
    case neg => exact ⟨x, (hg k x).mpr ⟨hk, .inr ⟨hkd, hx⟩⟩, rfl, fun _ _ => .inr⟩
  have hup : ∀ k p, k ≠ t → G.Up k p → G'.Up k p := by
    intro k p hk ⟨x, hx, hxd, hxp⟩
    have ⟨y, hy, hyd, hyn⟩ := hkept k x hk hx
    exact ⟨y, hy, hyd.trans hxd, (hyn ".." p hxp).resolve_left fun e => hp.right e.left.symm⟩
  exact {
    bounded  := hbounded
    leaf     := by have := c.leaf; grind
    distinct := by
      have := c.distinct
      have hnd : (a'.names.map (·.1)).Nodup := by
        have := c.distinct d a ha
        rw [(hna.map _).nodup_iff, List.map_cons, List.nodup_cons] at this
        exact this.right
      grind
    named    := by
      intro k x n u hx hmx
      have hut : u ≠ t := fun e => hgone k x n hx (e ▸ hmx)
      have ⟨y, hy, _, hyn⟩ := w k x hx
      have ⟨z, hz, _⟩ := hkept u _ hut (Option.some_get (c.named k y n u hy (hyn hmx))).symm
      exact Option.isSome_of_mem hz
    self     := by have := c.self; grind [Proper]
    root     := hup _ _ h0.symm c.root
    up := by
      intro k hk
      have hkt : k ≠ t := have ⟨x, hx, _⟩ := hk; ((hg k x).mp hx).left
      have ⟨p, hkp, ⟨x, hx, hxd⟩, hpn⟩ := c.up k (w.isDir hk)
      have hpt : p ≠ t := fun e => c.ne_of_up ht hbare h0 (e ▸ hkp)
      have ⟨y, hy, hyd, _⟩ := hkept p x hpt hx
      refine ⟨p, hup k p hkt hkp, ⟨y, hy, hyd.trans hxd⟩, fun hk0 => ?_⟩
      have ⟨z, n, hz, hn, hmz⟩ := hpn hk0
      have ⟨z', hz', _, hzn⟩ := hkept p z hpt hz
      exact ⟨z', n, hz', hn, (hzn n k hmz).resolve_left fun e => hkt e.right⟩
    refs := by
      intro k x hx
      have := c.refs k
      have := c.refs d a ha
      have := hcount k
      have := (hg k x).mp hx
      grind
    ascend := by
      intro hc k hk
      have hkt : k ≠ t := have ⟨x, hx, _⟩ := hk; ((hg k x).mp hx).left
      have hap := (c.ascend hc k (w.isDir hk)).avoid hkt fun k => c.ne_of_up ht hbare h0
      exact hap.mono fun k p hkt hkp => ⟨trivial, hup k p hkt hkp⟩
  }

theorem redirect (c : Consistent crooked owed G) (ha : G t = some a) {p q : Nat}
    {rest names : List (String × Nat)} (hold : a.names.Perm (("..", p) :: rest))
    (hnew : names.Perm (("..", q) :: rest)) (hq : G.IsDir q) (hn : G.Names q t) (h0 : t ≠ rootInode)
    (hasc : ¬crooked → G.Ascends (· ≠ t) q) :
    Consistent crooked owed (Function.update G t (some { a with names })) := by
  generalize ha' : ({ a with names } : Node) = a'
  have hda : a'.isDir = a.isDir := by simp [← ha']
  have hra : a'.refs = a.refs := by simp [← ha']
  have hna : a'.names = names := by simp [← ha']
  let G' : Graph := Function.update G t (some a')
  have hg : ∀ k x, G' k = some x ↔ k = t ∧ x = a' ∨ k ≠ t ∧ G k = some x :=
    fun _ _ => update_some_iff
  have hma : ∀ n u, (n, u) ∈ a.names ↔ n = ".." ∧ u = p ∨ (n, u) ∈ rest := by
    simp [hold.mem_iff]
  have hmb : ∀ n u, (n, u) ∈ a'.names ↔ n = ".." ∧ u = q ∨ (n, u) ∈ rest := by
    simp [hna, hnew.mem_iff]
  have hdir : a.isDir := c.isDir_of_mem ha ((hma ".." p).mpr (.inl ⟨rfl, rfl⟩))
  -- all names are kept but the one for the way up
  have hkept : ∀ k x, G k = some x → ∃ y, G' k = some y ∧ y.isDir = x.isDir ∧
      ∀ n u, n ≠ ".." → (n, u) ∈ x.names → (n, u) ∈ y.names := by
    intro k x hx
    by_cases hk : k = t
    case pos =>
      obtain rfl := Option.some.inj ((hk ▸ hx).symm.trans ha)
      refine ⟨a', (hg k a').mpr (.inl ⟨hk, rfl⟩), hda, fun n u hn hm => ?_⟩
      exact (hmb n u).mpr (.inr (((hma n u).mp hm).resolve_left fun e => hn e.left))
    case neg => exact ⟨x, (hg k x).mpr (.inr ⟨hk, hx⟩), rfl, fun _ _ _ hm => hm⟩
  have hisDir : ∀ k, G'.IsDir k ↔ G.IsDir k := by
    intro k
    simp only [IsDir, hg]
    grind
  have hnames : ∀ k u, G.Names k u → G'.Names k u := by
    intro k u ⟨x, n, hx, hp, hm⟩
    have ⟨y, hy, _, hym⟩ := hkept k x hx
    exact ⟨y, n, hy, hp, hym n u hp.right hm⟩
  have hup : ∀ k u, k ≠ t → G.Up k u → G'.Up k u :=
    fun k u hk ⟨x, hx, hxd, hxu⟩ => ⟨x, (hg k x).mpr (.inr ⟨hk, hx⟩), hxd, hxu⟩
  have hupt : G'.Up t q := by
    refine ⟨a', (hg t a').mpr (.inl ⟨rfl, rfl⟩), hda.trans hdir, ?_⟩
    exact (hmb ".." q).mpr (.inl ⟨rfl, rfl⟩)
  exact {
    bounded  := by have := c.bounded; grind
    leaf     := by have := c.leaf; grind
    distinct := by
      have := c.distinct
      have hnd : (a'.names.map (·.1)).Nodup := by
        have := c.distinct t a ha
        rw [(hold.map _).nodup_iff, List.map_cons] at this
        rwa [hna, (hnew.map _).nodup_iff, List.map_cons]
      grind
    named    := by
      intro k x n u hx hm
      have hu : (G u).isSome := by
        have ⟨y, hy, _⟩ := hq
        have := c.named
        grind
      have ⟨y, hy, _⟩ := hkept u _ (Option.some_get hu).symm
      exact Option.isSome_of_mem hy
    self     := by have := c.self; grind
    root     := hup _ _ h0.symm c.root
    up := by
      intro k hk
      by_cases hkt : k = t
      case pos =>
        subst hkt
        exact ⟨q, hupt, (hisDir q).mpr hq, fun _ => hnames q k hn⟩
      case neg =>
        have ⟨u, hku, hud, hun⟩ := c.up k ((hisDir k).mp hk)
        exact ⟨u, hup k u hkt hku, (hisDir u).mpr hud, fun hk0 => hnames u k (hun hk0)⟩
    refs := by
      intro k x hx
      have hnk : a'.namings k = a.namings k := by
        rw [Node.namings, hna, hnew.countP_eq, Node.namings, hold.countP_eq, List.countP_cons,
          List.countP_cons]
        simp [Proper]
      have hck : G'.count k = G.count k :=
        count_same (c.bounded t a ha) (by rw [ha, Option.elim_some, Option.elim_some, hnk])
      rw [hck]
      have := c.refs k
      have := (hg k x).mp hx
      grind
    ascend := by
      intro hc k hk
      -- a way up that comes past `t` goes on from there by `q`, and that way does not come back
      have hqt : G'.Ascends (fun _ => True) q :=
        (hasc hc).mono fun k u hk hku => ⟨trivial, hup k u hk hku⟩
      exact (c.ascend hc k ((hisDir k).mp hk)).divert hup (.up trivial hupt hqt)
  }

end Consistent
end Graph
end InodeVolume
