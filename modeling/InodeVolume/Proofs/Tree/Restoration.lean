import InodeVolume.Proofs.Tree.Listing
import InodeVolume.Proofs.Tree.Secrecy
import InodeVolume.Proofs.Tree.Strays

namespace InodeVolume

open Volume

variable {first : Option Nat} {files : Nat → Option FileState} {v w : Volume} {f : FileState}
variable {strays crooked : Prop} {owed : Nat → Int} {d h : Nat} {es : List Entry}

theorem Entries.length_of_used {a b : Entry} (h0 : es[0]? = some a) (h1 : es[1]? = some b)
    (ha : ¬a.isFree) (hb : ¬b.isFree) (ht : Tight es) (hu : (used es).length = 2) :
    es.length = 2 := by
  have hone : ∀ {e : Entry}, ¬e.isFree → e.naming.toList.length = 1 := by
    intro e he
    have ⟨p, hp⟩ := Option.ne_none_iff_exists'.mp (mt Entry.isFree_iff.mpr he)
    rw [hp]
    rfl
  match es, h0, h1 with
  | _ :: _ :: rest, h0, h1 =>
    obtain rfl := Option.some.inj h0
    obtain rfl := Option.some.inj h1
    rw [used_cons, used_cons, List.length_append, List.length_append, hone ha, hone hb] at hu
    cases hr : rest.getLast?
    case none        => rw [List.getLast?_eq_none_iff.mp hr]; rfl
    case some last =>
      -- what comes last is in use as well
      have hlast : ¬last.isFree := ht last (by simp [List.getLast?_cons, hr])
      have ⟨before, hbefore⟩ := List.getLast?_eq_some_iff.mp hr
      have := hone hlast
      rw [hbefore, used_append, used_cons, List.length_append, List.length_append] at hu
      omega

namespace Volume

structure Lone (b : Option Nat) (v : Volume) : Prop where
  inodes : ∀ i, v.inodeTaken i ↔ i = rootInode
  blocks : ∀ k, v.blockTaken k ↔ k < reservedBlocks ∨ b = some k

theorem Lone.maps_eq {b : Option Nat} (lv : v.Lone b) (lw : w.Lone b) :
    ∀ a < tableStart, v.byte a = w.byte a := by
  refine Volume.maps_eq (funext fun k => ?_) (funext fun i => ?_)
  case refine_1 => rw [Bool.eq_iff_iff, lv.blocks, lw.blocks]
  case refine_2 => rw [Bool.eq_iff_iff, lv.inodes, lw.inodes]

theorem Holds.exists_lone_chain (hv : v.Holds files) (hs : Sparse 1 files)
    (hf : files rootInode = some f) :
    ∃ chains c, Sound v.link? v.blockTaken chains ∧ (∀ h, chains h ≠ [] ↔ h = rootInode) ∧
      chains rootInode = [(rootInode, c)] ∧ c.size = f.bytes.length := by
  have ⟨chains, sound, hc⟩ := hv.chain_of_sparse hs
  have hne : chains rootInode ≠ [] := sound.head_iff.mp (hv.head_iff.mpr ⟨f, hf⟩)
  have ⟨_, c, hl, _⟩ := hc rootInode hne
  refine ⟨chains, c, sound, fun h => ⟨fun hh => Nat.lt_one_iff.mp (hc h hh).left, ?_⟩, hl, ?_⟩
  case refine_1 => exact fun h0 => h0 ▸ hne
  case refine_2 =>
    have := Except.ok.inj ((fileSize_eq sound hne).symm.trans (hv.fileSize hf))
    rwa [hl, Chain.size_cons, Chain.size_nil] at this

theorem Holds.lone (hv : v.Holds files) (t : v.Tended first) (hs : Sparse 1 files)
    (hf : files rootInode = some f) (hne : f.bytes ≠ []) : v.Lone first := by
  have ⟨chains, c, sound, hheads, hl, hsize⟩ := hv.exists_lone_chain hs hf
  have hpos := List.length_pos_of_ne_nil hne
  have hle := (hs rootInode f hf).right
  have hc : v.link? rootInode = some c := sound.link (hl ▸ List.mem_cons_self)
  have site := t rootInode c hc
  have hfirst := site.root rfl (by omega)
  have hused : c.usedBlocks = 1 := blocksFor_eq_one (by omega) (by omega)
  constructor
  case inodes =>
    intro i
    rw [← isSome_link?, sound.isSome_iff]
    constructor
    case mp =>
      intro ⟨h, hi⟩
      have h0 := (hheads h).mp fun e => by simp [e] at hi
      rw [h0, hl] at hi
      simpa using hi
    case mpr => exact fun hi => ⟨rootInode, by simp [hl, hi]⟩
  case blocks =>
    have hblocks : ∀ k, k ∈ (chains rootInode).blocks ↔ c.slot 0 = some k := by
      intro k
      rw [hl, Chain.blocks_cons, Chain.blocks_nil, List.append_nil, site.wellFormed.mem_owned]
      constructor
      case mpr => exact fun hk => ⟨0, hk⟩
      case mp  =>
        intro ⟨s, hk⟩
        have hlt := (site.wellFormed.filled s).mp (by rw [hk]; rfl)
        have h0 : s = 0 := by omega
        rwa [h0] at hk
    intro k
    rw [sound.taken, ← hfirst, ← hblocks]
    refine or_congr_right ⟨fun ⟨h, hk⟩ => ?_, fun hk => ⟨rootInode, hk⟩⟩
    have h0 := (hheads h).mp fun e => by simp [e] at hk
    rwa [h0] at hk

theorem Holds.usage_lone (hv : v.Holds files) (hs : Sparse 1 files) (hf : files rootInode = some f)
    (hne : f.bytes ≠ []) : v.usage.usedBlocks = 4 ∧ v.usage.usedInodes = 1 := by
  have ⟨chains, c, sound, hheads, hl, hsize⟩ := hv.exists_lone_chain hs hf
  have hpos := List.length_pos_of_ne_nil hne
  have hle := (hs rootInode f hf).right
  have hheads : v.heads = {rootInode} := by
    ext h
    rw [mem_heads, sound.head_iff, hheads, Finset.mem_singleton]
  have hblocks := sound.freeBlocks_add
  have hinodes := sound.freeInodes_add
  rw [hheads, Finset.sum_singleton, hl, Chain.size_cons, Chain.size_nil, Nat.add_zero,
    blocksFor_eq_one (by omega) (by omega)] at hblocks
  rw [hheads, Finset.sum_singleton, hl, Chain.numbers_cons, Chain.numbers_nil,
    List.length_singleton] at hinodes
  simp only [Usage.usedBlocks, Usage.usedInodes, usage]
  lia

theorem lone_fresh : fresh.Lone rootBlock :=
  holds_fresh.lone alike_fresh.tended sparse_rootFiles (Function.update_self ..) (by decide)

end Volume

theorem Arranged.length_root (a : Arranged crooked owed files) (hf : files rootInode = some f)
    (hd : f.isDir) (hu : Entries.used f.entries = [(".", rootInode), ("..", rootInode)]) :
    f.bytes.length = 2 * entrySize := by
  have l := (a.legal rootInode f hf).directory hd
  have ⟨_, hsecond⟩ := l.second fun _ => rfl
  rw [l.lists.length, Entries.length_of_used l.first hsecond (by simp [Entry.isFree])
    (by simp [Entry.isFree]) l.tight (by rw [hu]; rfl)]

namespace Settled

-- Where nothing has been planted, all other files are below names in the root.
theorem sole (s : Settled False False files) (hf : files rootInode = some f)
    (hu : ∀ name t, (name, t) ∈ Entries.used f.entries → ¬Proper name) :
    ∀ h g, files h = some g → h = rootInode := by
  have ⟨owed, a, _⟩ := s
  have hnames : ∀ k, ¬(graph files).Names rootInode k := by
    intro k ⟨x, name, hx, hp, hm⟩
    obtain rfl := Option.some.inj (hx.symm.trans (graph_eq hf))
    rw [FileState.names_node (a.consistent.isDir_of_mem hx hm)] at hm
    exact hu name k hm hp
  have hdir : ∀ d, (graph files).Ascends (fun _ => True) d → d = rootInode := by
    intro d ha
    induction ha
    case root => rfl
    case up d p _ hu _ hi =>
      by_contra h0
      have ⟨x, hx, hd, _⟩ := hu
      have ⟨q, hq, _, hn⟩ := a.consistent.up d ⟨x, hx, hd⟩
      obtain rfl := a.consistent.up_unique hu hq
      exact hnames d (hi ▸ hn h0)
  intro h g hg
  by_contra h0
  have ⟨d, x, name, hx, hp, hm⟩ := s.named hg h0
  have := hdir d (a.consistent.ascend id d ⟨x, hx, a.consistent.isDir_of_mem hx hm⟩)
  exact hnames h ⟨x, name, this ▸ hx, hp, hm⟩

end Settled

namespace Tree

variable {steps : List (Volume × Operation)}

theorem list_fresh : Tree.list .fresh rootInode = .ok [(".", rootInode), ("..", rootInode)] := by
  have ⟨_, a, _⟩ := settled_rootFiles
  rw [a.list_eq holds_fresh (Function.update_self ..) FileState.isDir_root, FileState.entries_root]
  rfl

namespace Operation.Plants

variable {op : Operation} {kind : NodeKind}

theorem exists_update (s : Settled strays crooked files) (hv : v.Holds files) (ha : op.Admissible v)
    (hp : op.Plants kind v) :
    ∃ i g, i ≠ rootInode ∧ (op.perform v).2.Holds (Function.update files i (some g)) := by
  have ⟨i, name, mode, files', _, _, _, _, _, hnone, hm, hw⟩ := made s hv ha hp
  have ⟨_, a, _⟩ := s
  have ⟨_, hroot, _⟩ := a.exists_root
  have h0 : i ≠ rootInode := by
    intro e
    simp [← e, hnone] at hroot
  cases hm
  case file hf _ _ _ _      => simp [hnone] at hf
  case directory hf _ _ _ _ => simp [hnone] at hf
  case strayFile            => exact ⟨i, _, h0, hw⟩
  case strayDirectory       => exact ⟨i, _, h0, hw⟩

theorem list_root (s : Settled strays crooked files) (hv : v.Holds files) (ha : op.Admissible v)
    (hp : op.Plants kind v) :
    Tree.list (op.perform v).2 rootInode = Tree.list v rootInode := by
  have ⟨i, g, h0, hw⟩ := exists_update s hv ha hp
  have ⟨_, a, _⟩ := s
  have ⟨f, hf, hd⟩ := a.exists_root
  have hf' : Function.update files i (some g) rootInode = some f := by
    rw [Function.update_of_ne h0.symm, hf]
  have hl := a.lists hf hd
  rw [Tree.list, Tree.list, hv.isDir hf, hw.isDir hf', listing, listing, hv.slots hf hl,
    hw.slots hf' hl]

theorem not_restored (s : Settled strays crooked files) (hv : v.Holds files) (ha : op.Admissible v)
    (hp : op.Plants kind v) : ¬∀ a < tableStart, (op.perform v).2.byte a = Volume.fresh.byte a := by
  intro hmaps
  have ⟨i, g, h0, hw⟩ := exists_update s hv ha hp
  have hi : (op.perform v).2.inodeTaken i := (hw.head_iff.mpr ⟨g, Function.update_self ..⟩).left
  have ht : (op.perform v).2.inodeTaken = Volume.fresh.inodeTaken :=
    inodeTaken_congr fun a _ ha => hmaps a ha
  exact h0 ((lone_fresh.inodes i).mp (ht ▸ hi))

end Operation.Plants

theorem Run.restores (r : Run steps v)
    (hl : Tree.list v rootInode = .ok [(".", rootInode), ("..", rootInode)]) :
    ((∀ a < tableStart, v.byte a = Volume.fresh.byte a) ↔ ∀ h, v.Head h → h = rootInode) ∧
      ((∀ kind, ¬Planted kind steps) → (∀ a < tableStart, v.byte a = Volume.fresh.byte a) ∧
        v.usage.usedBlocks = 4 ∧ v.usage.usedInodes = 1) := by
  have ⟨files, hv, s⟩ := r.settled
  have ⟨_, a, _⟩ := s
  have ⟨f, hf, hd⟩ := a.exists_root
  have hused : Entries.used f.entries = [(".", rootInode), ("..", rootInode)] :=
    Except.ok.inj ((a.list_eq hv hf hd).symm.trans hl)
  have hlen := a.length_root hf hd hused
  have hne : f.bytes ≠ [] := fun e => by simp [e] at hlen
  have lone : (∀ h g, files h = some g → h = rootInode) →
      (∀ a < tableStart, v.byte a = Volume.fresh.byte a) ∧ v.usage.usedBlocks = 4 ∧
        v.usage.usedInodes = 1 := by
    intro hone
    have hs : Sparse 1 files := by
      intro h g hg
      obtain rfl := hone h g hg
      obtain rfl := Option.some.inj (hf.symm.trans hg)
      exact ⟨Nat.one_pos, by rw [hlen]; decide⟩
    exact ⟨(hv.lone r.reachable.tended hs hf hne).maps_eq lone_fresh, hv.usage_lone hs hf hne⟩
  refine ⟨⟨fun hmaps h hh => ?_, fun hone => ?_⟩, fun hp => ?_⟩
  case refine_1 =>
    have ht : v.inodeTaken = Volume.fresh.inodeTaken := inodeTaken_congr fun a _ ha => hmaps a ha
    exact (lone_fresh.inodes h).mp (ht ▸ hh.left)
  case refine_2 => exact (lone fun h g hg => hone h (hv.head_iff.mpr ⟨g, hg⟩)).left
  case refine_3 =>
    have s : Settled False False files := s.mono (hp .regular) (hp .directory)
    refine lone (s.sole hf fun name t hm hproper => ?_)
    have : name = "." ∨ name = ".." := by
      rw [hused] at hm
      simp only [List.mem_cons, Prod.mk.injEq, List.not_mem_nil, or_false] at hm
      exact hm.imp And.left And.left
    exact this.elim hproper.left hproper.right

theorem restores_reset :
    let op := Operation.mkdirAt "/a" 0o755
    let u := (op.perform .fresh).2
    let v := (Operation.reset.perform u).2
    (Run [(.fresh, op), (u, .reset)] v ∧
      Tree.list v rootInode = .ok [(".", rootInode), ("..", rootInode)]) ∧
      ((∀ a < tableStart, v.byte a = Volume.fresh.byte a) ↔ ∀ h, v.Head h → h = rootInode) ∧
      ((∀ kind, ¬Planted kind [(.fresh, op), (u, .reset)]) →
        (∀ a < tableStart, v.byte a = Volume.fresh.byte a) ∧
          v.usage.usedBlocks = 4 ∧ v.usage.usedInodes = 1) := by
  intro op u v
  have ha : op.Admissible .fresh := show Entry.Plain "/a" by decide
  have hreset : Operation.Admissible u .reset := trivial
  have r : Run [(.fresh, op), (u, .reset)] v := (Run.fresh ha).step hreset
  have hv : v = Volume.fresh := by
    show (Operation.reset.perform u).2 = _
    rw [Operation.perform, VolumeM.bind_apply, reset_eq]
    rfl
  have hl := hv ▸ list_fresh
  exact ⟨⟨r, hl⟩, r.restores hl⟩

theorem not_restored_stray :
    let op := Operation.mknod 1 "x" 0o100644
    let v := (op.perform .fresh).2
    Run [(.fresh, op)] v ∧ Tree.list v rootInode = .ok [(".", rootInode), ("..", rootInode)] ∧
      ¬∀ a < tableStart, v.byte a = Volume.fresh.byte a := by
  have ⟨ha, hp⟩ := Operation.plants_fresh .regular 0o100644 (by decide) (by decide)
  have s := settled_rootFiles
  exact ⟨Run.fresh ha, (hp.list_root s holds_fresh ha).trans list_fresh,
    hp.not_restored s holds_fresh ha⟩

end Tree
end InodeVolume
