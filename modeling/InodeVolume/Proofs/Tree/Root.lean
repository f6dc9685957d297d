import InodeVolume.Proofs.Tree.Settled

namespace InodeVolume

open VolumeM Volume

theorem Graph.consistent_root {owed : Nat → Int} (h : owed rootInode = 1) :
    Graph.Consistent False owed (Function.update (fun _ => none) rootInode
      (some ⟨true, 1, [(".", rootInode), ("..", rootInode)]⟩)) := by
  generalize hb : (⟨true, 1, [(".", rootInode), ("..", rootInode)]⟩ : Node) = b
  let G : Graph := Function.update (fun _ => none) rootInode (some b)
  have hg : ∀ k x, G k = some x ↔ k = rootInode ∧ x = b := by
    intro k x
    by_cases hk : k = rootInode <;> simp [G, hk, eq_comm]
  have hm : ∀ n t, (n, t) ∈ b.names ↔ n = "." ∧ t = rootInode ∨ n = ".." ∧ t = rootInode := by
    simp [← hb]
  have hd : b.isDir := by simp [← hb]
  have hr : b.refs = 1 := by simp [← hb]
  have hup : G.Up rootInode rootInode :=
    ⟨b, (hg _ _).mpr ⟨rfl, rfl⟩, hd, (hm _ _).mpr (.inr ⟨rfl, rfl⟩)⟩
  -- its two entries are no proper names
  have hcount : G.count rootInode = 0 := by
    refine (count_eq_zero fun d a ha => ?_).mpr ?_
    case refine_1 => exact ((hg d a).mp ha).left ▸ (by decide)
    case refine_2 =>
      rintro d ⟨a, n, ha, hp, hn⟩
      obtain ⟨_, rfl⟩ := (hg d a).mp ha
      have := (hm n rootInode).mp hn
      grind [Proper]
  exact {
    bounded  := fun h a ha => ((hg h a).mp ha).left ▸ (by decide)
    leaf     := by grind
    distinct := by
      intro h a ha
      obtain ⟨_, rfl⟩ := (hg h a).mp ha
      simp [← hb]
    named    := by
      intro d a n t ha hn
      obtain ⟨_, rfl⟩ := (hg d a).mp ha
      have : t = rootInode := by grind
      simp [this]
    self     := by grind
    root     := hup
    up       := by
      rintro d ⟨a, ha, _⟩
      obtain ⟨rfl, _⟩ := (hg d a).mp ha
      exact ⟨_, hup, ⟨b, (hg _ _).mpr ⟨rfl, rfl⟩, hd⟩, absurd rfl⟩
    refs     := by
      intro k a ha
      obtain ⟨rfl, rfl⟩ := (hg k a).mp ha
      show (a.refs : Int) = G.count rootInode + _
      rw [hcount, h, hr]
      rfl
    ascend   := by
      rintro _ d ⟨a, ha, _⟩
      rw [((hg d a).mp ha).left]
      exact .root
  }

-- There are so few files that each has a number below this one, and all of them are small.
def Sparse (n : Nat) (files : Nat → Option FileState) : Prop :=
  ∀ h f, files h = some f → h < n ∧ f.bytes.length ≤ blockSize

theorem Sparse.empty {n : Nat} : Sparse n fun _ => none :=
  fun _ _ hf => nomatch hf

theorem Sparse.mono {m n : Nat} {files : Nat → Option FileState} (hs : Sparse m files)
    (hmn : m ≤ n) : Sparse n files :=
  fun h f hf => (hs h f hf).imp_left fun hlt => Nat.lt_of_lt_of_le hlt hmn

theorem Sparse.update {n h : Nat} {f : FileState} {files : Nat → Option FileState}
    (hs : Sparse n files) (hh : h < n) (hf : f.bytes.length ≤ blockSize) :
    Sparse n (Function.update files h (some f)) := by
  intro k g hg
  by_cases hk : k = h
  case pos =>
    subst hk
    rw [Function.update_self, Option.some.injEq] at hg
    exact ⟨hh, hg ▸ hf⟩
  case neg => exact hs k g (by rwa [Function.update_of_ne hk] at hg)

namespace Volume

variable {v : Volume}

theorem link?_zero (i : Nat) : zero.link? i = none := by
  simp [link?, inodeTaken, bit, byte_zero]

theorem blockTaken_zero (b : Nat) : zero.blockTaken b = false := by
  simp [blockTaken, bit, byte_zero]

theorem relinked_reserve (v : Volume) :
    Relinked v v.reserve v.link? fun b => decide (b < reservedBlocks) || v.blockTaken b := by
  have r₀ := relinked_setBlockBit v (b := 0) (by decide) true
  have r₁ := relinked_setBlockBit (v.setBit blockMapStart 0 true) (b := 1) (by decide) true
  have r₂ := relinked_setBlockBit ((v.setBit blockMapStart 0 true).setBit blockMapStart 1 true)
    (b := 2) (by decide) true
  rw [r₀.links, r₀.taken] at r₁
  rw [r₁.links, r₁.taken] at r₂
  have r := (r₀.trans r₁).trans r₂
  have ht : Function.update (Function.update (Function.update v.blockTaken 0 true) 1 true) 2 true =
      fun b => decide (b < reservedBlocks) || v.blockTaken b := by
    funext b
    rcases b with _ | _ | _ | b <;> simp [reservedBlocks]
  exact ht ▸ r

theorem link?_blank : blank.link? = fun _ => none :=
  (relinked_reserve zero).links.trans (funext link?_zero)

theorem blockTaken_blank : blank.blockTaken = fun b => decide (b < reservedBlocks) := by
  refine (relinked_reserve zero).taken.trans (funext fun b => ?_)
  rw [blockTaken_zero, Bool.or_false]

theorem holds_blank : blank.Holds fun _ => none := by
  refine ⟨fun _ => [], ?_, fun _ => rfl⟩
  rw [link?_blank, blockTaken_blank]
  constructor <;> simp [Chain.Formed]

namespace Holds

variable {files : Nat → Option FileState} {n i : Nat}

theorem chain_of_sparse (hv : v.Holds files) (hs : Sparse n files) :
    ∃ chains, Sound v.link? v.blockTaken chains ∧ ∀ h, chains h ≠ [] →
      h < n ∧ ∃ c, chains h = [(h, c)] ∧ c.next = none := by
  obtain ⟨chains, sound, hc⟩ := hv
  refine ⟨chains, sound, fun h hne => ?_⟩
  have hfile : (chains h).file v.byte ≠ none := mt Chain.file_eq_none.mp hne
  obtain ⟨f, hf⟩ := Option.ne_none_iff_exists'.mp hfile
  obtain ⟨hlt, hlen⟩ := hs h f (hc h ▸ hf)
  rw [Chain.file, Option.map_eq_some_iff] at hf
  obtain ⟨_, _, hb⟩ := hf
  rw [← hb, Chain.length_content] at hlen
  exact ⟨hlt, Chain.eq_singleton (sound.leads h hne) (sound.formed h) (by lia)⟩

theorem link?_of_sparse (hv : v.Holds files) (hs : Sparse n files) (hi : n ≤ i) :
    v.link? i = none := by
  have ⟨chains, sound, hc⟩ := hv.chain_of_sparse hs
  by_contra hl
  have ⟨h, hm⟩ := sound.isSome_iff.mp (Option.isSome_iff_ne_none.mpr hl)
  have ⟨hlt, c, hl, _⟩ := hc h (by intro e; simp [e] at hm)
  rw [hl, Chain.numbers_cons, Chain.numbers_nil, List.mem_singleton] at hm
  omega

theorem not_continues_of_sparse (hv : v.Holds files) (hs : Sparse n files) : ¬v.Continues i := by
  intro ⟨k, c, hk, hn⟩
  have ⟨chains, sound, hc⟩ := hv.chain_of_sparse hs
  have ⟨h, hm⟩ := (sound.links k c).mp hk
  have ⟨_, d, hl, hd⟩ := hc h (by intro e; simp [e] at hm)
  rw [hl, List.mem_singleton] at hm
  rw [(Prod.mk.inj hm).right, hd] at hn
  contradiction

theorem trailing_of_sparse (hv : v.Holds files) (hs : Sparse n files) : v.trailing = ∅ := by
  refine Finset.eq_empty_of_forall_notMem fun k hk => ?_
  rw [mem_trailing] at hk
  have ⟨f, hf⟩ := hv.head_iff.mp hk.left
  exact hv.not_trails hf (Nat.lt_of_le_of_lt (hs k f hf).right (by decide)) hk

theorem freeBlocks_of_sparse (hv : v.Holds files) (hs : Sparse n files)
    (hn : n + reservedBlocks < blockCount) : v.freeBlocks ≠ 0 := by
  have hle : tally blocksFor files ≤ n := by
    calc tally blocksFor files
      _ ≤ ∑ h ∈ Finset.range inodeCount, if h < n then 1 else 0 := by
        refine Finset.sum_le_sum fun h _ => ?_
        cases hf : files h
        case none => exact Nat.zero_le _
        case some f =>
          have ⟨hlt, hlen⟩ := hs h f hf
          rw [if_pos hlt, Option.elim_some, blocksFor_le_iff, Nat.one_mul]
          exact hlen
      _ = ((Finset.range inodeCount).filter (· < n)).card := by
        rw [← Finset.sum_filter, ← Finset.card_eq_sum_ones]
      _ ≤ (Finset.range n).card :=
        Finset.card_le_card fun h hh => Finset.mem_range.mpr (Finset.mem_filter.mp hh).right
      _ = n := Finset.card_range n
  have := hv.freeBlocks_add
  omega

end Holds
end Volume

def FileState.root : FileState :=
  ⟨1, Mode.root, Entries.bytes [⟨".", some rootInode⟩, ⟨"..", some rootInode⟩]⟩

def rootFiles : Nat → Option FileState :=
  Function.update (fun _ => none) rootInode (some .root)

namespace FileState

theorem storable_root :
    ∀ e ∈ [⟨".", some rootInode⟩, (⟨"..", some rootInode⟩ : Entry)], e.Storable := by
  simp only [List.mem_cons, List.not_mem_nil, or_false]
  rintro e (rfl | rfl) <;> exact .used (by decide) (by decide) (by decide)

theorem entries_root : root.entries = [⟨".", some rootInode⟩, ⟨"..", some rootInode⟩] :=
  (Lists.mk rfl storable_root : root.Lists _).entries

theorem isDir_root : root.isDir := by
  decide

end FileState

theorem settled_rootFiles : Settled False False rootFiles := by
  refine ⟨fun _ => 1, ⟨?_, fun h f hf => ?_⟩, ⟨fun h f hf _ => ?_, fun h f hf hd => ?_⟩⟩
  case refine_1 =>
    have hnode : FileState.root.node = ⟨true, 1, [(".", rootInode), ("..", rootInode)]⟩ := by
      simp only [FileState.node, FileState.isDir_root, if_true, FileState.entries_root]
      rfl
    rw [rootFiles, graph_update, Option.map_some, hnode]
    exact Graph.consistent_root rfl
  all_goals
    have hh : h = rootInode ∧ f = .root := by
      by_cases h0 : h = rootInode <;> simp_all [rootFiles]
    obtain ⟨rfl, rfl⟩ := hh
  case refine_2 =>
    refine ⟨.inr (by decide), fun _ => ?_⟩
    have hl : FileState.root.Lists FileState.root.entries := by
      rw [FileState.entries_root]
      exact ⟨rfl, FileState.storable_root⟩
    refine ⟨hl, ?_, ?_, fun _ => ⟨rootInode, ?_⟩, rfl⟩ <;> rw [FileState.entries_root]
    case refine_1 => simp [Entries.Tight, Entry.isFree]
    case refine_2 => rfl
    case refine_3 => rfl
  case refine_3 => rfl
  case refine_4 => exact absurd FileState.isDir_root hd

theorem Sparse.lists {n h : Nat} {f : FileState} {files : Nat → Option FileState} {es : List Entry}
    (hs : Sparse n files) (hh : h < n) (hl : f.Lists es) (hlen : es.length ≤ blockSize / entrySize) :
    Sparse n (Function.update files h (some f)) :=
  hs.update hh (by rw [hl.length]; lia)

theorem Directory.add_sparse_ensures {v : Volume} {files : Nat → Option FileState} {n d t : Nat}
    {f : FileState} {es : List Entry} {name : String} (hv : v.Holds files) (hs : Sparse n files)
    (hn : n + reservedBlocks < blockCount) (hf : files d = some f) (hl : f.Lists es)
    (hlen : es.length < blockSize / entrySize) (hfit : Entry.fits name)
    (habsent : ∀ u, (name, u) ∉ Entries.used es) :
    (add d name t).Ensures v (fun _ w => w.Holds (Function.update files d
      (some (f.withEntries (Entries.insert es ⟨name, some t⟩))))) Never := by
  apply (add_ensures hv hf hl).mono
  case ho => exact fun _ w ⟨_, _, hw, _⟩ => hw
  case he =>
    intro e w ⟨_, hr⟩
    have hlen : f.bytes.length < blockSize := by rw [hl.length]; lia
    exact hv.freeBlocks_of_sparse hs hn ((hr.cramped hfit habsent).freeBlocks hv hf (by lia))

namespace Tree

theorem makeRoot_ensures {v : Volume} (hv : v.Holds fun _ => none) :
    makeRoot.Ensures v (fun _ w => w.Holds rootFiles) Never := by
  have hnone : ∀ i, v.link? i = none := fun i => hv.link?_of_sparse .empty (Nat.zero_le i)
  have htaken : v.inodeTaken rootInode = false := by rw [← isSome_link?, hnone, Option.isSome_none]
  rw [makeRoot, ensures_bind, ensures_look, htaken, if_pos (by decide), ensures_bind]
  apply (File.alloc_ensures hv).mono
  case he => exact fun e w ⟨_, _, hall⟩ => by simpa [hnone] using hall 0 (by decide)
  intro i x ⟨hlt, _, _, hx, hleast, _⟩
  have hi : i = rootInode := by
    by_contra hne
    simpa [hnone] using hleast 0 (Nat.pos_of_ne_zero hne)
  subst hi
  have ⟨c, hc, _, _, hput⟩ := File.exists_inode hx (Function.update_self ..)
  rw [ensures_bind, ensures_query_ok hc, ensures_bind]
  apply (hput 1 Mode.root (by decide)).mono_ok
  intro _ y ⟨hy, _⟩
  rw [Function.update_idem] at hy
  have hl : (⟨1, Mode.root, []⟩ : FileState).Lists [] := ⟨rfl, by simp⟩
  have hdot : Entry.Storable ⟨".", some rootInode⟩ := .used (by decide) (by decide) (by decide)
  have hl' := hl.insert hdot
  have hs : Sparse 1 (Function.update (fun _ => none) rootInode (some ⟨1, Mode.root, []⟩)) :=
    Sparse.empty.update Nat.one_pos (Nat.zero_le _)
  rw [ensures_bind, Directory.start, ensures_discard]
  apply (Directory.add_sparse_ensures hy hs (by decide) (Function.update_self ..) hl (by decide)
    (by decide) (by simp)).mono_ok
  intro _ z hz
  have hs' := hs.lists Nat.one_pos hl' (by decide)
  rw [ensures_discard]
  apply (Directory.add_sparse_ensures hz hs' (by decide) (Function.update_self ..) hl' (by decide)
    (by decide) (by simp [Entries.insert, Entries.used, Entry.naming])).mono_ok
  intro _ w hw
  rwa [Function.update_idem, Function.update_idem] at hw

theorem reset_ensures (v : Volume) : reset.Ensures v (fun _ w => w.Holds rootFiles) Never := by
  rw [reset, ensures_bind, ensures_change]
  exact makeRoot_ensures holds_blank

end Tree

theorem sparse_rootFiles : Sparse 1 rootFiles :=
  Sparse.empty.update Nat.one_pos (Nat.le_trans (Nat.le_of_eq (Entries.length_bytes _)) (by decide))

namespace Volume.Holds

variable {v : Volume}

theorem head_root (hv : v.Holds rootFiles) : v.Head rootInode :=
  hv.head_iff.mpr ⟨_, Function.update_self ..⟩

theorem freeBlocks_root (hv : v.Holds rootFiles) : v.freeBlocks = 252 := by
  have := hv.freeBlocks_add
  have hlen : FileState.root.bytes.length = 2 * entrySize := Entries.length_bytes _
  rw [rootFiles, tally_insert _ (by decide) rfl, tally_none, hlen] at this
  have hb : blocksFor (2 * entrySize) = 1 := by decide
  lia

theorem freeInodes_root (hv : v.Holds rootFiles) : v.freeInodes = 255 := by
  have := hv.freeInodes_add
  have hlen : FileState.root.bytes.length = 2 * entrySize := Entries.length_bytes _
  rw [hv.trailing_of_sparse sparse_rootFiles, rootFiles, tally_insert _ (by decide) rfl, tally_none,
    hlen, Finset.card_empty] at this
  have hl : linksFor (2 * entrySize) = 1 := by decide
  lia

end Volume.Holds

theorem recedes_rootFiles {v w : Volume} (hw : w.Holds rootFiles)
    (hroot : (v.link? rootInode).isSome) : v.Recedes w := by
  have ⟨chains, hs, hc⟩ := hw.chain_of_sparse sparse_rootFiles
  have ⟨e, he⟩ := Option.isSome_iff_exists.mp hroot
  intro i c hi
  have ⟨h, hm⟩ := (hs.links i c).mp hi
  have ⟨hlt, d, hd, hnext⟩ := hc h (by intro e; simp [e] at hm)
  rw [hd, List.mem_singleton] at hm
  obtain ⟨rfl, rfl⟩ := Prod.mk.inj hm
  obtain rfl := Nat.lt_one_iff.mp hlt
  exact ⟨e, he, .inl hnext⟩

end InodeVolume
