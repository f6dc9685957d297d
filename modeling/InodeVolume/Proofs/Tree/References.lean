import InodeVolume.Proofs.Tree.Listing
import InodeVolume.Proofs.Tree.Strays

namespace InodeVolume

open Volume

namespace Volume

def entriesOf (v : Volume) (d : Nat) : List (String × Nat) :=
  (Tree.list v d).toOption.getD []

def namings (v : Volume) (h : Nat) : Nat :=
  ∑ d ∈ v.heads, (v.entriesOf d).countP fun p => p.2 = h

end Volume

structure References (v : Volume) : Prop where
  regular   : ∀ h c, v.Head h → v.inode h = .ok c → ¬c.isDir → c.refs = v.namings h ∧ 1 ≤ c.refs
  directory : ∀ d c, v.Head d → v.inode d = .ok c → c.isDir → c.refs = 1
  release   : ∀ op, Tree.Operation.Admissible v op → ∀ h, v.Names h →
    ((op.perform v).2.inodeTaken h ↔ (op.perform v).2.Names h)

variable {v w : Volume} {strays crooked : Prop} {owed : Nat → Int}
variable {files files' : Nat → Option FileState} {d h : Nat} {f : FileState}

namespace Arranged

theorem proper_of_mem (a : Arranged crooked owed files) (hf : files h = some f) (hd : ¬f.isDir)
    {x : Node} {name : String} (hx : graph files d = some x) (hm : (name, h) ∈ x.names) :
    Proper name := by
  have hxd := a.consistent.isDir_of_mem hx hm
  constructor
  case left =>
    intro e
    subst e
    obtain rfl := a.consistent.eq_of_self hx hm
    obtain rfl := Option.some.inj (hx.symm.trans (graph_eq hf))
    exact hd hxd
  case right =>
    intro e
    subst e
    have ⟨p, hp, hpd, _⟩ := a.consistent.up d ⟨x, hx, hxd⟩
    obtain rfl := a.consistent.up_unique ⟨x, hx, hxd, hm⟩ hp
    have ⟨y, hy, hyd⟩ := hpd
    obtain rfl := Option.some.inj (hy.symm.trans (graph_eq hf))
    exact hd hyd

theorem countP_entriesOf (a : Arranged crooked owed files) (hv : v.Holds files)
    (hf : files h = some f) (hd : ¬f.isDir) {g : FileState} (hg : files d = some g) :
    (v.entriesOf d).countP (fun p => p.2 = h) = g.node.namings h := by
  by_cases hgd : g.isDir
  case neg => simp [entriesOf, list_error hv hg hgd, Node.namings, FileState.node, hgd, Except.toOption]
  case pos =>
    rw [entriesOf, a.list_eq hv hg hgd, Node.namings, FileState.names_node hgd]
    refine List.countP_congr ?_
    rintro ⟨name, t⟩ hm
    simp only [decide_eq_true_iff, iff_and_self]
    intro ht
    subst ht
    exact a.proper_of_mem hf hd (graph_eq hg) (FileState.names_node hgd ▸ hm)

theorem namings_eq (a : Arranged crooked owed files) (hv : v.Holds files) (hf : files h = some f)
    (hd : ¬f.isDir) : v.namings h = (graph files).count h := by
  have hsub : v.heads ⊆ Finset.range inodeCount := Finset.filter_subset ..
  have hzero : ∀ d ∈ Finset.range inodeCount, d ∉ v.heads →
      (graph files d).elim 0 (·.namings h) = 0 := by
    intro d _ hm
    rw [mem_heads, hv.head_iff, not_exists] at hm
    have hnone : files d = none := Option.eq_none_iff_forall_ne_some.mpr hm
    simp [graph, hnone]
  rw [namings, Graph.count, ← Finset.sum_subset hsub hzero]
  refine Finset.sum_congr rfl fun d hm => ?_
  rw [mem_heads, hv.head_iff] at hm
  obtain ⟨g, hg⟩ := hm
  rw [graph_eq hg, Option.elim_some]
  exact a.countP_entriesOf hv hf hd hg

end Arranged

theorem Settled.taken_of_named (s : Settled strays crooked files) (hv : v.Holds files)
    (hn : Named files h) : v.inodeTaken h := by
  have ⟨_, hf⟩ := s.exists_of_named hn
  exact isSome_link? ▸ hv.link?_isSome hf

theorem Evolves.taken_iff (e : Evolves False crooked files v w) (s : Settled False crooked files)
    (hv : v.Holds files) (hn : Named files h) : w.inodeTaken h ↔ w.Names h := by
  have ⟨files', hw, s', hk⟩ := e
  have ⟨_, a', _⟩ := s'
  rw [a'.names_iff hw]
  constructor
  case mpr => exact s'.taken_of_named hw
  case mp =>
    intro ht
    cases hk
    case inl hk => exact hk h hn
    case inr hr =>
      have ⟨f, hf⟩ := hw.head_iff.mp (hr.head (hv.head_iff.mpr (s.exists_of_named hn)) ht)
      exact s'.named hf (s.ne_root hn)

theorem Settled.references (s : Settled False crooked files) (hv : v.Holds files) :
    References v := by
  have ⟨owed, a, b⟩ := s
  have hinode : ∀ h c, v.Head h → v.inode h = .ok c →
      ∃ f, files h = some f ∧ f.isDir = c.isDir ∧ f.refs = c.refs := by
    intro h c hh hc
    obtain ⟨f, hf⟩ := hv.head_iff.mp hh
    obtain ⟨c', hc', hr, hm⟩ := hv.inode hf
    rw [hc, Except.ok.injEq] at hc'
    subst hc'
    exact ⟨f, hf, by rw [FileState.isDir, Inode.isDir, hm], hr.symm⟩
  constructor
  case regular =>
    intro h c hh hc hd
    obtain ⟨f, hf, hfd, hr⟩ := hinode h c hh hc
    rw [← hfd] at hd
    obtain ⟨hpos, ho⟩ := b.regular h f hf hd
    have ho := ho.resolve_right And.left
    have hrefs := a.refs_eq hf
    rw [a.namings_eq hv hf hd, ← hr]
    omega
  case directory =>
    intro d c hh hc hd
    obtain ⟨f, hf, hfd, hr⟩ := hinode d c hh hc
    exact hr ▸ a.refs hf (hfd ▸ hd)
  case release =>
    intro op ha h hn
    have hn := (a.names_iff hv).mp hn
    by_cases hp : op.Plants .regular v
    case pos =>
      obtain ⟨files', hw, s', hk⟩ := hp.keeps s hv ha
      have ht := s'.taken_of_named hw (hk h hn)
      obtain ⟨_, a', _⟩ := s'
      exact iff_of_true ht ((a'.names_iff hw).mpr (hk h hn))
    case neg =>
      have e : Evolves False _ files v _ :=
        (Tree.Operation.perform_evolves s hv ha).mono (fun h => h.elim id hp) id
      exact e.taken_iff (s.mono id .inl) hv hn

namespace Tree

variable {steps : List (Volume × Operation)} {op : Operation}

theorem Run.not_references (r : Run steps v) (ha : op.Admissible v) (hp : op.Plants .regular v) :
    ¬References (op.perform v).2 := by
  have ⟨files, hv, s⟩ := r.settled
  have ⟨files', i, f, hw, ⟨_, a, _⟩, _, hf, hd, hn⟩ := hp.regular s hv ha
  have ⟨c, hc, _, hm⟩ := hw.inode hf
  intro refs
  have hcd : ¬c.isDir := by rwa [Inode.isDir, hm]
  have ⟨he, hpos⟩ := refs.regular i c (hw.head_iff.mpr ⟨f, hf⟩) hc hcd
  have hzero : (graph files').count i = 0 := by
    rw [Graph.count_eq_zero a.consistent.bounded, ← not_exists]
    exact hn
  rw [a.namings_eq hw hf hd, hzero] at he
  omega

-- A regular file that is planted has a reference without a name, and no other one ever has.
theorem Run.references_iff (r : Run steps v) :
    (∀ u ∈ v :: steps.map (·.1), References u) ↔ ∀ s ∈ steps, ¬s.2.Plants .regular s.1 := by
  refine always_iff (p := References) (b := fun s => s.2.Plants .regular s.1) ?_ ?_ r
  case refine_1 =>
    intro steps v r h
    have ⟨files, hv, s⟩ := r.settled
    have s : Settled False (Planted .directory steps) files := s.mono (fun ⟨x, hx, hp⟩ => h x hx hp) id
    exact s.references hv
  case refine_2 => exact fun steps v op r ha hp => r.not_references ha hp

theorem references_stray :
    let op := Operation.mknod 1 "x" 0o100644
    let v := (op.perform .fresh).2
    Run [(.fresh, op)] v ∧
      ((∀ u ∈ [v, .fresh], References u) ↔ ∀ s ∈ [(fresh, op)], ¬s.2.Plants .regular s.1) :=
  have r := Run.fresh (Operation.plants_fresh .regular 0o100644 (by decide) (by decide)).left
  ⟨r, r.references_iff⟩

theorem no_references_stray :
    let v := ((Operation.mknod 1 "x" 0o100644).perform .fresh).2
    Reachable v ∧ ¬References v :=
  not_stray .regular (by decide) (by decide) Run.start_fresh.not_references

end Tree
end InodeVolume
