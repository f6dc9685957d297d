import InodeVolume.Proofs.File.Provision
import InodeVolume.Proofs.Image.Setup

namespace InodeVolume

open VolumeM Volume

namespace Volume

structure Stands (v : Volume) (l : Chain) : Prop where
  formed : l.Formed
  nodup  : l.blocks.Nodup
  held   : ∀ b ∈ l.blocks, reservedBlocks ≤ b ∧ v.blockTaken b

structure Consistent (v : Volume) : Prop where
  reserved : v.Reserved
  stands   : ∀ h, v.Head h → ∃ l, v.chain h = .ok l ∧ v.Stands l
  apart    : ∀ h k (l m : Chain), v.Head h → v.Head k → h ≠ k → v.chain h = .ok l → v.chain k = .ok m →
    l.numbers.Disjoint m.numbers ∧ l.blocks.Disjoint m.blocks

-- The chain `l` of a file has turned into `m` and has got so many bytes, these blocks and these links.
-- Nothing else is another one than before.
structure Gains (v w : Volume) (h : Nat) (l m : Chain) (n : Nat) (bs js : List Nat) : Prop where
  walks    : w.Walks h m
  others   : ∀ i ∉ m.numbers, w.link? i = v.link? i
  formed   : m.Formed
  size     : m.size = l.size + n
  blocks   : m.blocks = l.blocks ++ bs
  numbers  : m.numbers = l.numbers ++ js
  blockMap : Marks v.blockTaken w.blockTaken bs
  inodeMap : Marks v.inodeTaken w.inodeTaken js
  data     : ∀ a, dataStart ≤ a → w.byte a = v.byte a

variable {v w : Volume} {h i last n : Nat} {k l m : Chain} {c : Inode} {bs js : List Nat}

theorem Takes.gains (t : v.Takes w last c m n bs js) (hw : v.Walks h (k ++ [(last, c)]))
    (hf : Chain.Formed (k ++ [(last, c)])) :
    v.Gains w h (k ++ [(last, c)]) (k ++ m) n bs js where
  walks    := t.walks_append hw
  others   := by
    intro i hi
    rw [Chain.numbers_append, List.mem_append, not_or] at hi
    exact t.others i hi.right
  formed   := Chain.formed_append.mpr ⟨(Chain.formed_append.mp hf).left, t.formed⟩
  size     := by simp [t.size, Nat.add_assoc]
  blocks   := by simp [t.owned]
  numbers  := by simp [t.numbers]
  blockMap := t.blockMap
  inodeMap := t.inodeMap
  data     := t.data

theorem Walks.continues_of_mem (hw : v.Walks h l) (hi : i ∈ l.numbers) (hne : i ≠ h) :
    v.Continues i := by
  cases hw.leads.mem_next hi
  case inl he => exact absurd (Option.some.inj he).symm hne
  case inr he =>
    have ⟨j, c, hm, hn⟩ := he
    exact ⟨j, c, hw.links j c hm, hn⟩

theorem Walks.mem_of_next (hw : v.Walks h l) (hi : i ∈ l.numbers) (hc : v.link? i = some c) {j : Nat}
    (hn : c.next = some j) : j ∈ l.numbers ∧ j ≠ h := by
  have ⟨d, hm⟩ := Chain.mem_numbers.mp hi
  obtain rfl := Option.some.inj (hc.symm.trans (hw.links i d hm))
  refine ⟨hw.leads.next_mem hm hn, fun e => ?_⟩
  exact hw.leads.next_ne_head hw.nodup hm (e ▸ hn)

theorem Walks.inodeTaken (hw : v.Walks h l) (hi : i ∈ l.numbers) : v.inodeTaken i := by
  have ⟨_, hm⟩ := Chain.mem_numbers.mp hi
  rw [← isSome_link?, hw.links i _ hm]
  rfl

theorem Walks.congr (hw : v.Walks h l) (hl : ∀ i ∈ l.numbers, w.link? i = v.link? i) : w.Walks h l where
  links := fun i c hm => (hl i (Chain.mem_numbers.mpr ⟨c, hm⟩)).trans (hw.links i c hm)
  leads := hw.leads

namespace Gains

theorem mem_numbers (t : v.Gains w h l m n bs js) : i ∈ m.numbers ↔ i ∈ l.numbers ∨ i ∈ js := by
  rw [t.numbers, List.mem_append]

theorem link?_eq_none (t : v.Gains w h l m n bs js) (hi : i ∈ js) : v.link? i = none := by
  rw [← Option.not_isSome_iff_eq_none, isSome_link?, t.inodeMap.clear i hi]
  decide

theorem continues_iff (t : v.Gains w h l m n bs js) (hw : v.Walks h l) :
    w.Continues i ↔ v.Continues i ∨ i ∈ js := by
  constructor
  case mp =>
    intro ⟨k, c, hc, hn⟩
    by_cases hk : k ∈ m.numbers
    case neg => exact .inl ⟨k, c, t.others k hk ▸ hc, hn⟩
    case pos =>
      have ⟨hi, hne⟩ := t.walks.mem_of_next hk hc hn
      exact (t.mem_numbers.mp hi).imp_left fun hi => hw.continues_of_mem hi hne
  case mpr =>
    intro hi
    cases hi
    case inl hi =>
      have ⟨k, c, hc, hn⟩ := hi
      by_cases hk : k ∈ l.numbers
      case pos =>
        have ⟨hi, hne⟩ := hw.mem_of_next hk hc hn
        exact t.walks.continues_of_mem (t.mem_numbers.mpr (.inl hi)) hne
      case neg =>
        have hkm : k ∉ m.numbers := by
          rw [t.mem_numbers, not_or]
          exact ⟨hk, fun hj => by simp [t.link?_eq_none hj] at hc⟩
        exact ⟨k, c, (t.others k hkm).trans hc, hn⟩
    case inr hi =>
      refine t.walks.continues_of_mem (t.mem_numbers.mpr (.inr hi)) ?_
      rintro rfl
      have := t.inodeMap.clear i hi
      simp [hw.inodeTaken hw.head_mem] at this

theorem head_iff (t : v.Gains w h l m n bs js) (hw : v.Walks h l) : w.Head i ↔ v.Head i := by
  have := t.inodeMap.clear i
  rw [Head, Head, t.inodeMap.set, t.continues_iff hw]
  grind

theorem stands (t : v.Gains w h l m n bs js) (hr : v.Reserved) (hs : v.Stands l) : w.Stands m where
  formed := t.formed
  nodup  := by
    rw [t.blocks]
    refine List.nodup_append.mpr ⟨hs.nodup, t.blockMap.nodup, fun b hb x hx e => ?_⟩
    have := t.blockMap.clear b (e ▸ hx)
    simp [(hs.held b hb).right] at this
  held   := by
    intro b hb
    rw [t.blocks, List.mem_append] at hb
    refine ⟨?_, (t.blockMap.set b).mpr (hb.imp_left fun hb => (hs.held b hb).right)⟩
    cases hb
    case inl hb => exact (hs.held b hb).left
    case inr hb =>
      by_contra hlow
      have := t.blockMap.clear b hb
      simp [hr b (Nat.lt_of_not_le hlow)] at this

theorem chain_congr (t : v.Gains w h l m n bs js) {k : Nat} {x : Chain} (hx : v.Walks k x)
    (hd : l.numbers.Disjoint x.numbers) : w.Walks k x := by
  refine hx.congr fun i hi => t.others i ?_
  rw [t.mem_numbers, not_or]
  refine ⟨fun hl => hd hl hi, fun hj => ?_⟩
  have := t.inodeMap.clear i hj
  simp [hx.inodeTaken hi] at this

theorem apart (t : v.Gains w h l m n bs js) {k : Nat} {x : Chain} (hx : v.Walks k x)
    (hs : v.Stands x) (hd : l.numbers.Disjoint x.numbers ∧ l.blocks.Disjoint x.blocks) :
    m.numbers.Disjoint x.numbers ∧ m.blocks.Disjoint x.blocks := by
  rw [t.numbers, t.blocks, List.disjoint_append_left, List.disjoint_append_left]
  refine ⟨⟨hd.left, fun i hj hi => ?_⟩, hd.right, fun b hj hb => ?_⟩
  case refine_1 =>
    have := t.inodeMap.clear i hj
    simp [hx.inodeTaken hi] at this
  case refine_2 =>
    have := t.blockMap.clear b hj
    simp [(hs.held b hb).right] at this

end Gains

namespace Consistent

theorem exists_chain (c : v.Consistent) (hh : v.Head h) : ∃ l, v.Walks h l ∧ v.Stands l :=
  have ⟨l, hl, hs⟩ := c.stands h hh
  ⟨l, chain_eq_ok_iff.mp hl, hs⟩

theorem rechain (c : v.Consistent) (hr : w.Reserved) (hm : w.Walks h m) (hs : w.Stands m)
    (others : ∀ k, k ≠ h → w.Head k → v.Head k ∧ ∃ x, v.Walks k x ∧ w.Walks k x ∧ w.Stands x ∧
      m.numbers.Disjoint x.numbers ∧ m.blocks.Disjoint x.blocks) : w.Consistent := by
  constructor
  case reserved => exact hr
  case stands =>
    intro k hk
    by_cases hkh : k = h
    case pos => exact ⟨m, hkh ▸ hm.chain_eq, hs⟩
    case neg =>
      have ⟨_, x, _, hx, hxs, _⟩ := others k hkh hk
      exact ⟨x, hx.chain_eq, hxs⟩
  case apart =>
    intro j k x y hj hk hne hx hy
    have hx := chain_eq_ok_iff.mp hx
    have hy := chain_eq_ok_iff.mp hy
    by_cases hjh : j = h
    case pos =>
      subst hjh
      have ⟨_, _, _, hw, _, hd⟩ := others k (Ne.symm hne) hk
      obtain rfl := hw.unique hy
      obtain rfl := hm.unique hx
      exact hd
    case neg =>
      have ⟨hvj, _, hv, hw, _, hd⟩ := others j hjh hj
      obtain rfl := hw.unique hx
      by_cases hkh : k = h
      case pos =>
        subst hkh
        obtain rfl := hm.unique hy
        exact hd.imp List.Disjoint.symm List.Disjoint.symm
      case neg =>
        have ⟨hvk, _, hv', hw', _⟩ := others k hkh hk
        obtain rfl := hw'.unique hy
        exact c.apart j k _ _ hvj hvk hne hv.chain_eq hv'.chain_eq

theorem gains (c : v.Consistent) (hh : v.Head h) (hw : v.Walks h l)
    (t : v.Gains w h l m n bs js) : w.Consistent := by
  have ⟨_, hl, hs⟩ := c.exists_chain hh
  obtain rfl := hw.unique hl
  refine c.rechain (c.reserved.marks t.blockMap) t.walks (t.stands c.reserved hs) ?_
  intro k hk hkh
  have hkh := (t.head_iff hw).mp hkh
  have ⟨x, hx, hxs⟩ := c.exists_chain hkh
  have hd := c.apart h k l x hh hkh (Ne.symm hk) hw.chain_eq hx.chain_eq
  refine ⟨hkh, x, hx, t.chain_congr hx hd.left, ⟨hxs.formed, hxs.nodup, fun b hb => ?_⟩,
    t.apart hx hxs hd⟩
  exact (hxs.held b hb).imp_right fun hb => (t.blockMap.set b).mpr (.inl hb)

end Consistent
end Volume

-- What growth of a file by `n` bytes makes of a consistent volume, where the chain of the file was `l`
-- and is `m` now. It tells exactly when all bytes are there, and what has been taken for them.
structure Growth.Exact (g : Growth) (v w : Volume) (h n : Nat) (l m : Chain) : Prop where
  consistent : w.Consistent
  heads      : ∀ k, w.Head k ↔ v.Head k
  others     : ∀ k ≠ h, v.Head k → w.chain k = v.chain k
  chain      : w.chain h = .ok m
  size       : m.size = l.size + g.grown
  blocks     : m.blocks.length = blocksFor m.size
  whole      : g.cut = none ↔ blocksFor (l.size + n) - blocksFor l.size ≤ v.freeBlocks ∧
    max l.length (linksFor (l.size + n)) - l.length ≤ v.freeInodes
  done       : g.cut = none → g.grown = n ∧ m.length = max l.length (linksFor (l.size + n))
  short      : g.cut ≠ none → g.cut = some .noSpace ∧ g.grown < n
  content    : ∃ bytes, v.readFile h 0 l.size = .ok bytes ∧ w.readFile h 0 l.size = .ok bytes
  data       : ∀ a, dataStart ≤ a → w.byte a = v.byte a
  blockMap   : l.blocks <+: m.blocks ∧
    Marks v.blockTaken w.blockTaken (m.blocks.drop l.blocks.length)
  inodeMap   : l.numbers <+: m.numbers ∧ Marks v.inodeTaken w.inodeTaken (m.numbers.drop l.length)

namespace Volume

variable {v w : Volume} {h n : Nat} {l m : Chain} {bs js : List Nat}

namespace Stands

theorem bounds (s : v.Stands l) : ∀ b ∈ l.blocks, reservedBlocks ≤ b ∧ b < blockCount :=
  fun b hb => (s.held b hb).imp_right lt_of_blockTaken

theorem dataStart_le_address (s : v.Stands l) (hl : l.blocks.length = blocksFor l.size) {p : Nat}
    (hp : p < l.size) : dataStart ≤ l.address p :=
  Chain.dataStart_le_address hl (fun b hb => (s.held b hb).left) hp

theorem content_congr (s : v.Stands l) (hl : l.blocks.length = blocksFor l.size)
    {f g : Nat → UInt8} (hd : ∀ a, dataStart ≤ a → f a = g a) : l.content f = l.content g :=
  Chain.content_congr fun _ hp => hd _ (s.dataStart_le_address hl hp)

end Stands

theorem Gains.take_content (t : v.Gains w h l m n bs js) (hw : v.Walks h l) (hs : v.Stands l) :
    (m.content w.byte).take l.size = l.content v.byte := by
  have hlen := Chain.length_blocks hw.leads hs.formed
  rw [← Chain.content_eq_take (t.blocks ▸ List.prefix_append ..) hlen (t.size ▸ Nat.le_add_right ..)]
  exact hs.content_congr hlen t.data

theorem Gains.content (t : v.Gains w h l m n bs js) (hw : v.Walks h l) (hv : v.Stands l)
    (hs : w.Stands m) :
    ∃ bytes, v.readFile h 0 l.size = .ok bytes ∧ w.readFile h 0 l.size = .ok bytes := by
  refine ⟨l.content v.byte, ?_, ?_⟩
  case refine_1 =>
    rw [hw.readFile_eq hv.formed.laden hv.bounds, List.drop_zero, List.take_of_length_le (by simp)]
  case refine_2 =>
    rw [t.walks.readFile_eq hs.formed.laden hs.bounds, List.drop_zero, t.take_content hw hv]

theorem Holds.consistent {files : Nat → Option FileState} (hv : v.Holds files) : v.Consistent := by
  have ⟨chains, hs, _⟩ := hv
  constructor
  case reserved => exact hs.reserved
  case stands =>
    intro h hh
    refine ⟨chains h, Volume.chain_eq hs (hs.head_iff.mp hh), hs.formed h, hs.blocks h, fun b hb => ?_⟩
    exact ⟨hs.beyond h b hb, hs.taken_of_mem hb⟩
  case apart =>
    intro h k l m hh hk hne hl hm
    rw [Volume.chain_eq hs (hs.head_iff.mp hh), Except.ok.injEq] at hl
    rw [Volume.chain_eq hs (hs.head_iff.mp hk), Except.ok.injEq] at hm
    subst hl hm
    exact ⟨fun i hi hj => hne (hs.apart h k i hi hj), fun b hb hc => hne (hs.alone h k b hb hc)⟩

namespace Holds

theorem walks_root (hv : v.Holds rootFiles) :
    ∃ d, v.Walks rootInode [(rootInode, d)] ∧ v.Stands [(rootInode, d)] ∧ d.usedBlocks = 1 ∧
      Chain.size [(rootInode, d)] = 2 * entrySize := by
  have ⟨l, hw, hs⟩ := hv.consistent.exists_chain hv.head_root
  have hsize : l.size = 2 * entrySize :=
    (Except.ok.inj (hw.fileSize_eq.symm.trans (hv.fileSize (Function.update_self ..)))).trans
      (Entries.length_bytes _)
  have ⟨d, hd, _⟩ := Chain.eq_singleton hw.leads hs.formed (by lia)
  subst hd
  have hd : d.size = 2 * entrySize := hsize
  exact ⟨d, hw, hs, by rw [Inode.usedBlocks, hd]; decide, hsize⟩

theorem grow_root (hv : v.Holds rootFiles) (hn : 2 * entrySize + n ≤ 253 * blockSize) :
    ∃ d w m bs js, v.Walks rootInode [(rootInode, d)] ∧ v.Gains w rootInode [(rootInode, d)] m n bs js ∧
      m.size = 2 * entrySize + n ∧ File.grow rootInode n v = (.ok ⟨n, none⟩, w) := by
  have ⟨d, hw, hs, _, hsize⟩ := hv.walks_root
  have ⟨⟨grown, cut⟩, w, hg, k, last, e, m, bs, js, hk, hr, t, _⟩ :=
    (File.grow_takes (n := n) hv.consistent.reserved hw hs.formed (by lia)).exists_ok
  obtain ⟨rfl, he⟩ := List.append_inj' (show [] ++ [(rootInode, d)] = k ++ [(last, e)] from hk) rfl
  obtain ⟨rfl, rfl⟩ := Prod.mk.inj (List.singleton_inj.mp he)
  have hd : d.size = 2 * entrySize := hsize
  obtain rfl : cut = none := by
    rw [hr.whole, hv.freeBlocks_root, hv.freeInodes_root, hd]
    exact ⟨blocksFor_le_iff.mpr hn, (linksFor_le_iff (by decide)).mpr (by lia)⟩
  have hgrown : grown = n := by
    rcases hr.fits with hf | hf
    case inl => exact hf.right.trans (Nat.zero_add n)
    case inr => exact absurd hf.left nofun
  subst hgrown
  have t := t.gains (k := []) hw hs.formed
  exact ⟨d, w, _, bs, js, hw, t, hsize ▸ t.size, hg⟩

end Holds

-- Growth gets all bytes just if there are enough blocks and inodes for them. Whether it does or
-- not, it leaves the volume consistent and takes nothing but what it hangs onto the file.
theorem Consistent.grow_exact (c : v.Consistent) (hh : v.Head h) (hl : v.chain h = .ok l)
    (hn : l.size + n < wordLimit) :
    ∃ g w m, File.grow h n v = (.ok g, w) ∧ g.Exact v w h n l m := by
  have hw := chain_eq_ok_iff.mp hl
  have ⟨_, hx, hs⟩ := c.exists_chain hh
  obtain rfl := hw.unique hx
  have ⟨g, w, hg, k, last, d, x, bs, js, hk, hr, t, hlinks⟩ :=
    (File.grow_takes c.reserved hw hs.formed hn).exists_ok
  have e : Chain.Ends l k.length d.size := hk ▸ Chain.ends_concat (hk ▸ hw.leads) (hk ▸ hs.formed)
  -- what growth does to the last link is what it does to the file
  have t' : v.Gains w h l (k ++ x) g.grown bs js := hk ▸ t.gains (hk ▸ hw) (hk ▸ hs.formed)
  have hwhole := (hr.provides e hw).whole
  rw [hw.affords_iff] at hwhole
  refine ⟨g, w, k ++ x, hg, ?_⟩
  exact {
    consistent := c.gains hh hw t'
    heads      := fun i => t'.head_iff hw
    others     := by
      intro i hi hih
      have ⟨y, hy, _⟩ := c.exists_chain hih
      have hd := c.apart h i l y hh hih (Ne.symm hi) hl hy.chain_eq
      rw [hy.chain_eq, (t'.chain_congr hy hd.left).chain_eq]
    chain      := t'.walks.chain_eq
    size       := t'.size
    blocks     := Chain.length_blocks t'.walks.leads t'.formed
    whole      := hwhole.trans (by omega)
    done       := by
      intro hcut
      have hgrown : g.grown = n := by
        rcases hr.fits with hf | hf
        case inl => omega
        case inr => simp [hcut] at hf
      refine ⟨hgrown, ?_⟩
      rw [List.length_append, hlinks hcut, e.length, e.size, Nat.add_assoc, max_linksFor_add]
    short      := by
      intro hcut
      rcases hr.fits with hf | hf
      case inl => exact absurd hf.left hcut
      case inr => exact ⟨hf.left, by omega⟩
    content    := t'.content hw hs (t'.stands c.reserved hs)
    data       := t'.data
    blockMap   := ⟨t'.blocks ▸ List.prefix_append .., by rw [t'.blocks, List.drop_left]; exact t'.blockMap⟩
    inodeMap   := by
      have hlen : l.numbers.length = l.length := List.length_map ..
      exact ⟨t'.numbers ▸ List.prefix_append .., by
        rw [t'.numbers, ← hlen, List.drop_left]; exact t'.inodeMap⟩
  }

theorem grow_exact_fresh :
    ∃ l : Chain, (fresh.Consistent ∧ fresh.Head rootInode ∧ fresh.chain rootInode = .ok l ∧
      l.size + 100000 < wordLimit) ∧
      ∃ g w m, File.grow rootInode 100000 fresh = (.ok g, w) ∧
        g.Exact fresh w rootInode 100000 l m := by
  have ⟨d, hw, _, _, hsize⟩ := holds_fresh.walks_root
  have hh := holds_fresh.head_root
  have hn : Chain.size [(rootInode, d)] + 100000 < wordLimit := by
    rw [hsize]
    decide
  exact ⟨_, ⟨holds_fresh.consistent, hh, hw.chain_eq, hn⟩,
    holds_fresh.consistent.grow_exact hh hw.chain_eq hn⟩

end Volume
end InodeVolume
