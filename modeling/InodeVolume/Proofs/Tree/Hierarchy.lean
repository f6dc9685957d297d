import InodeVolume.Proofs.Tree.Listing
import InodeVolume.Proofs.Tree.Strays

namespace InodeVolume

open Volume

def Volume.climb (v : Volume) : Nat → Nat → Except Fault Nat
  | 0, d     => .ok d
  | n + 1, d => do v.climb n (← Tree.lookup v d "..")

structure Volume.Orderly (v : Volume) (d : Nat) : Prop where
  size   : ∃ n, v.fileSize d = .ok n ∧ n % entrySize = 0 ∧ 2 * entrySize ≤ n
  slots  : ∃ es, v.slots d = .ok es ∧ es[0]? = some ⟨".", some d⟩ ∧
    (∃ p, es[1]? = some ⟨"..", some p⟩) ∧
    ((es.filter fun e => !e.isFree).map Entry.name).Nodup ∧ ∀ e, es.getLast? = some e → ¬e.isFree
  above  : d ≠ rootInode → ∃ p name, v.Lists d ".." p ∧ Proper name ∧ v.Lists p name d ∧
    ∀ q n, Proper n → v.Lists q n d → q = p ∧ n = name
  climb  : ∃ n < inodeCount, v.climb n d = .ok rootInode

structure Hierarchy (v : Volume) : Prop where
  kind      : ∀ h c, v.Head h → v.inode h = .ok c →
    Mode.kindBits c.mode = Mode.regular ∨ Mode.kindBits c.mode = Mode.directory
  directory : ∀ d, v.Head d → v.isDir d = .ok true → v.Orderly d
  root      : v.isDir rootInode = .ok true ∧ v.Lists rootInode ".." rootInode

variable {v : Volume} {strays crooked : Prop} {owed : Nat → Int} {files : Nat → Option FileState}
variable {d h n : Nat} {f : FileState}

namespace Arranged

theorem lookup_up (a : Arranged crooked owed files) (hv : v.Holds files) {p : Nat}
    (hu : (graph files).Up d p) : Tree.lookup v d ".." = .ok p := by
  have ⟨x, hx, hxd, _⟩ := hu
  have ⟨f, hf, he⟩ := graph_eq_some.mp hx
  subst he
  have ⟨i, q, hfind, hq⟩ := a.find_up hf hxd
  rw [a.lookup_eq hv hf hxd, hfind, a.consistent.up_unique hu hq]

theorem climb_eq (a : Arranged crooked owed files) (hv : v.Holds files) {e : Nat}
    (hc : (graph files).Climbs n d e) : v.climb n d = .ok e := by
  induction n generalizing d
  case zero => exact congrArg Except.ok hc
  case succ n hi =>
    have ⟨p, hp, hc⟩ := hc
    rw [climb, a.lookup_up hv hp]
    exact hi hc

theorem orderly (a : Arranged False owed files) (b : Accounted strays owed files)
    (hv : v.Holds files) (hf : files d = some f) (hd : f.isDir) : v.Orderly d := by
  have l := (a.legal d f hf).directory hd
  have hdir : (graph files).IsDir d := ⟨_, graph_eq hf, hd⟩
  have ⟨p, hp⟩ := l.second False.elim
  exact {
    size   := by
      have h1 := (List.getElem?_eq_some_iff.mp hp).fst
      refine ⟨_, hv.fileSize hf, ?_, ?_⟩
      case refine_1 => rw [l.lists.length, Nat.mul_mod_left]
      case refine_2 =>
        rw [l.lists.length]
        exact Nat.mul_le_mul_right _ h1
    slots  := ⟨_, hv.slots hf l.lists, l.first, ⟨p, hp⟩,
      Entries.map_fst_used _ ▸ a.distinct hf hd, l.tight⟩
    above  := by
      intro h0
      have ⟨q, hq, _, hn⟩ := a.consistent.up d hdir
      have ⟨x, name, hx, hproper, hm⟩ := hn h0
      have hcount := Nat.le_of_eq (a.count_eq_one b hf hd h0)
      have ⟨y, hy, _, hyq⟩ := hq
      refine ⟨q, name, (a.lists_iff hv).mpr ⟨y, hy, hyq⟩, hproper, (a.lists_iff hv).mpr ⟨x, hx, hm⟩, ?_⟩
      intro k n hn hk
      have ⟨z, hz, hzm⟩ := (a.lists_iff hv).mp hk
      exact Graph.eq_of_count_le a.consistent.bounded hcount hz hn hzm hx hproper hm
    climb  := by
      have hb : ∀ k, (graph files).IsDir k → k < inodeCount :=
        fun k ⟨x, hx, _⟩ => a.consistent.bounded k x hx
      have ⟨n, hn, hc⟩ := (a.consistent.ascend id d hdir).climbs_lt hb
      exact ⟨n, hn, a.climb_eq hv hc⟩
  }

end Arranged

theorem Settled.hierarchy (s : Settled strays False files) (hv : v.Holds files) : Hierarchy v := by
  have ⟨owed, a, b⟩ := s
  have ⟨r, hr, hrd⟩ := a.exists_root
  constructor
  case kind =>
    intro h c hh hc
    have ⟨f, hf⟩ := hv.head_iff.mp hh
    have ⟨c', hc', _, hm⟩ := hv.inode hf
    rw [hc, Except.ok.injEq] at hc'
    rw [hc', hm]
    exact (a.legal h f hf).kind
  case directory =>
    intro d hh hd
    have ⟨f, hf⟩ := hv.head_iff.mp hh
    rw [hv.isDir hf, Except.ok.injEq] at hd
    exact a.orderly b hv hf hd
  case root =>
    refine ⟨by rw [hv.isDir hr, hrd], (a.lists_iff hv).mpr ?_⟩
    have ⟨x, hx, _, hm⟩ := a.consistent.root
    exact ⟨x, hx, hm⟩

namespace Tree

variable {steps : List (Volume × Operation)} {op : Operation}

theorem Run.not_hierarchy (r : Run steps v) (ha : op.Admissible v) (hp : op.Plants .directory v) :
    ¬Hierarchy (op.perform v).2 := by
  have ⟨files, hv, s⟩ := r.settled
  have ⟨files', i, f, name, hw, ⟨_, a, _⟩, hf, hd, hproper, hi⟩ := hp.directory s hv ha
  intro tree
  have ⟨es, hes, _, ⟨p, hp⟩, _⟩ :=
    (tree.directory i (hw.head_iff.mpr ⟨f, hf⟩) (by rw [hw.isDir hf, hd])).slots
  rw [hw.slots hf (a.lists hf hd), Except.ok.injEq] at hes
  rw [← hes, hi] at hp
  simp only [Option.some.injEq, Entry.mk.injEq] at hp
  exact hproper.right hp.left

-- A directory that is planted has itself for a place, and all others stay below the root.
theorem Run.hierarchy_iff (r : Run steps v) :
    (∀ u ∈ v :: steps.map (·.1), Hierarchy u) ↔ ∀ s ∈ steps, ¬s.2.Plants .directory s.1 := by
  refine always_iff (p := Hierarchy) (b := fun s => s.2.Plants .directory s.1) ?_ ?_ r
  case refine_1 =>
    intro steps v r h
    have ⟨files, hv, s⟩ := r.settled
    have s : Settled (Planted .regular steps) False files := s.mono id fun ⟨x, hx, hp⟩ => h x hx hp
    exact s.hierarchy hv
  case refine_2 => exact fun steps v op r ha hp => r.not_hierarchy ha hp

theorem hierarchy_stray :
    let op := Operation.mknod 1 "x" 0o040755
    let v := (op.perform .fresh).2
    Run [(.fresh, op)] v ∧
      ((∀ u ∈ [v, .fresh], Hierarchy u) ↔ ∀ s ∈ [(fresh, op)], ¬s.2.Plants .directory s.1) :=
  have r := Run.fresh (Operation.plants_fresh .directory 0o040755 (by decide) (by decide)).left
  ⟨r, r.hierarchy_iff⟩

theorem no_hierarchy_stray :
    let v := ((Operation.mknod 1 "x" 0o040755).perform .fresh).2
    Reachable v ∧ ¬Hierarchy v :=
  not_stray .directory (by decide) (by decide) Run.start_fresh.not_hierarchy

end Tree
end InodeVolume
