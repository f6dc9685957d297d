import InodeVolume.Proofs.File.Stages

namespace InodeVolume

open VolumeM Volume

theorem Marks.unique {p q r : Nat → Bool} {l : List Nat} (hp : Marks p r l) (hq : Marks q r l) :
    p = q := by
  funext x
  have := hp.clear x
  have := hq.clear x
  rw [Bool.eq_iff_iff]
  have := hp.set x
  have := hq.set x
  grind

namespace Chain

variable {l m : Chain} {a b : Option Nat}

theorem eq_of_owned {c d : Inode} (hc : c.WellFormed) (hd : d.WellFormed) (ho : c.owned = d.owned)
    (hrefs : d.refs = c.refs) (hmode : d.mode = c.mode) (hs : c.size = d.size) (hn : c.next = d.next) :
    c = d := by
  have hb : c.blocks = d.blocks := by
    apply Vector.ext
    intro s hs
    rw [← Inode.slot_of_lt hs, ← Inode.slot_of_lt hs, ← hc.getElem?_owned, ← hd.getElem?_owned, ho]
  cases c
  cases d
  simp_all

theorem Leads.eq_head? (h : Leads a l none) : a = l.numbers.head? := by
  cases l
  case nil  => exact h
  case cons => exact h.left

theorem eq_of_same (hl : Leads a l none) (hm : Leads a m none) (hlf : l.Formed) (hmf : m.Formed)
    (hn : l.numbers = m.numbers) (hb : l.blocks = m.blocks) (hs : l.size = m.size)
    (hk : ∀ i c d, (i, c) ∈ l → (i, d) ∈ m → d.refs = c.refs ∧ d.mode = c.mode) : l = m := by
  induction l generalizing a m
  case nil =>
    cases m
    case nil => rfl
    case cons => simp [numbers] at hn
  case cons x l hi =>
    cases m
    case nil => simp [numbers] at hn
    case cons y m =>
      obtain ⟨i, c⟩ := x
      obtain ⟨j, d⟩ := y
      rw [numbers_cons, numbers_cons, List.cons.injEq] at hn
      rw [blocks_cons, blocks_cons] at hb
      rw [size_cons, size_cons] at hs
      obtain ⟨rfl, hn⟩ := hn
      obtain ⟨hc, hlf⟩ := formed_cons.mp hlf
      obtain ⟨hd, hmf⟩ := formed_cons.mp hmf
      have hl : Leads c.next l none := hl.right
      have hm : Leads d.next m none := hm.right
      have hnext : c.next = d.next := by rw [hl.eq_head?, hm.eq_head?, hn]
      have hsize : c.size = d.size := by
        cases hx : d.next
        case some k => rw [hc.packed (by rw [hnext, hx]; rfl), hd.packed (by rw [hx]; rfl)]
        case none =>
          rw [hnext, hx] at hl
          rw [hx] at hm
          rwa [hl.eq_nil, hm.eq_nil] at hs
      have hlen : c.owned.length = d.owned.length := by
        rw [Inode.length_owned, Inode.length_owned, Inode.usedBlocks, Inode.usedBlocks, hsize]
      obtain ⟨ho, hb⟩ := List.append_inj hb hlen
      obtain ⟨hrefs, hmode⟩ := hk i c d List.mem_cons_self List.mem_cons_self
      have hcd := eq_of_owned hc hd ho hrefs hmode hsize hnext
      have hlm := hi hl (hnext ▸ hm) hlf hmf hn hb (by omega) fun k x y hx hy =>
        hk k x y (List.mem_cons_of_mem _ hx) (List.mem_cons_of_mem _ hy)
      rw [hcd, hlm]

end Chain

namespace Volume

variable {v w x : Volume} {h n : Nat} {l m k : Chain} {bs cs js is : List Nat} {g : Growth}

-- What is as it was in `v`: both maps, every inode, the chain of the file and all bytes of files. If
-- bytes have come and gone, the record of the last link is written as records are, whatever else may
-- have stood for the same inode; the records of the links before it are the same to the last bit.
structure Restores (v x : Volume) (h grown : Nat) (l : Chain) : Prop where
  consistent : x.Consistent
  maps       : ∀ a < tableStart, x.byte a = v.byte a
  chain      : x.chain h = .ok l
  inodes     : ∀ i, x.inode i = v.inode i
  records    : ∀ i ∈ l.numbers.dropLast, x.record i = v.record i
  last       : ∀ i c, l.getLast? = some (i, c) →
    x.record i = if grown = 0 then v.record i else .ofInode c
  content    : ∃ bytes, v.readFile h 0 l.size = .ok bytes ∧ x.readFile h 0 l.size = .ok bytes
  data       : ∀ a, dataStart ≤ a → x.byte a = v.byte a

theorem Gains.undone (t : v.Gains w h l m n bs js) (t' : w.Loses x h m k n cs is)
    (hw : v.Walks h l) (hf : l.Formed) (hl : ¬l.Trails) (hk : ¬k.Trails)
    (hr : ∀ i, v.inodeTaken i → v.Retains w i) :
    k = l ∧ cs = bs ∧ is = js := by
  have hsize : k.size = l.size := by
    have := t.size
    have := t'.back.size
    omega
  have ⟨_, _, el⟩ := Chain.exists_ends hw.leads hf hw.ne_nil
  have ⟨_, _, ek⟩ := Chain.exists_ends t'.walks.leads t'.formed t'.walks.ne_nil
  have hlen : k.length = l.length := by
    rw [el.length_eq, ek.length_eq, if_neg hl, if_neg hk, hsize]
  have hblocks : k.blocks.length = l.blocks.length := by
    rw [Chain.length_blocks hw.leads hf, Chain.length_blocks t'.walks.leads t'.formed, hsize]
  have ⟨hb, hcs⟩ := List.append_inj (t'.back.blocks.symm.trans t.blocks) hblocks
  have ⟨hnum, his⟩ := List.append_inj (t'.back.numbers.symm.trans t.numbers)
    (by rw [Chain.numbers, Chain.numbers, List.length_map, List.length_map, hlen])
  refine ⟨Chain.eq_of_same t'.walks.leads hw.leads t'.formed hf hnum hb hsize ?_, hcs, his⟩
  intro i c d hc hd
  have hx := t'.walks.links i c hc
  have hv := hw.links i d hd
  have hxt : x.inodeTaken i := by rw [← isSome_link?, hx]; rfl
  obtain ⟨d', c', hd', hc', hrefs, hmode⟩ := (hr i (by rw [← isSome_link?, hv]; rfl)).trans (t'.kept i hxt)
  obtain rfl := Option.some.inj (hv.symm.trans hd')
  obtain rfl := Option.some.inj (hx.symm.trans hc')
  exact ⟨hrefs.symm, hmode.symm⟩

theorem Loses.records (t : w.Loses x h m l n bs js) (hn : n ≠ 0)
    (hg : ∀ i ∈ l.numbers.dropLast, w.record i = v.record i) :
    (∀ i ∈ l.numbers.dropLast, x.record i = v.record i) ∧
      ∀ i c, l.getLast? = some (i, c) → x.record i = .ofInode c := by
  have hsize := t.back.size
  have amends := t.amends
  clear t
  cases amends
  case none => omega
  case last k i e hi hk =>
    have hnum : Chain.numbers (k ++ [(i, e)]) = k.numbers ++ [i] := by simp
    rw [hnum, List.dropLast_concat] at hg ⊢
    refine ⟨fun j hj => ?_, fun j d hj => ?_⟩
    case refine_1 => rw [hk j hj, hg j hj]
    case refine_2 =>
      obtain ⟨rfl, rfl⟩ := Prod.mk.inj (Option.some.inj (List.getLast?_concat .. ▸ hj))
      exact hi

theorem Loses.undoes (t' : w.Loses x h m l n bs js) (t : v.Gains w h l m n bs js) (c : v.Consistent)
    (hh : v.Head h) (hw : v.Walks h l)
    (hr : ∀ i ∈ l.numbers.dropLast, x.record i = v.record i)
    (hlast : ∀ i c, l.getLast? = some (i, c) →
      x.record i = if n = 0 then v.record i else .ofInode c) :
    v.Restores x h n l := by
  have ⟨_, hl, hs⟩ := c.exists_chain hh
  obtain rfl := hw.unique hl
  have hblocks : x.blockTaken = v.blockTaken := t'.back.blockMap.unique t.blockMap
  have hinodes : x.inodeTaken = v.inodeTaken := t'.back.inodeMap.unique t.inodeMap
  have hdata : ∀ a, dataStart ≤ a → x.byte a = v.byte a := fun a ha =>
    (t'.back.data a ha).symm.trans (t.data a ha)
  -- a link is one of the file, or was taken in between, or has not been touched at all
  have hlinks : x.link? = v.link? := by
    funext i
    by_cases hi : i ∈ l.numbers
    case pos =>
      have ⟨d, hm⟩ := Chain.mem_numbers.mp hi
      rw [t'.walks.links i d hm, hw.links i d hm]
    case neg =>
      by_cases hj : i ∈ js
      case pos =>
        rw [t.link?_eq_none hj, ← Option.not_isSome_iff_eq_none, isSome_link?, hinodes,
          t.inodeMap.clear i hj]
        decide
      case neg =>
        have hm : i ∉ m.numbers := by rw [t.mem_numbers, not_or]; exact ⟨hi, hj⟩
        rw [← t'.back.others i hm, t.others i hm]
  have hback : v.Gains x h l l 0 [] [] := {
    walks    := t'.walks
    others   := fun i _ => congrFun hlinks i
    formed   := t'.formed
    size     := rfl
    blocks   := by simp
    numbers  := by simp
    blockMap := hblocks ▸ .refl _
    inodeMap := hinodes ▸ .refl _
    data     := hdata
  }
  constructor
  case consistent => exact c.gains hh hw hback
  case maps       => exact maps_eq hblocks hinodes
  case chain      => exact t'.walks.chain_eq
  case content    => exact hback.content hw hs (hback.stands c.reserved hs)
  case data       => exact hdata
  case records    => exact hr
  case last       => exact hlast
  case inodes =>
    intro i
    cases hi : v.link? i
    case none   => rw [inode_of_not_link? hi, inode_of_not_link? (hlinks ▸ hi)]
    case some c => rw [inode_of_link? hi, inode_of_link? (hlinks ▸ hi)]

-- What growth has brought is taken off again step by step, and no record but that of the last link has
-- been written in between.
theorem Consistent.grow_loses (c : v.Consistent) (hh : v.Head h) (hw : v.Walks h l) (ht : ¬l.Trails)
    (hg : File.grow h n v = (.ok g, w)) :
    (g.cut = none → g.grown = n) ∧
      (g.grown ≠ 0 → ∃ x m bs js, File.shrink h g.grown w = (.ok g.grown, x) ∧
        v.Gains w h l m g.grown bs js ∧ w.Loses x h m l g.grown bs js ∧
        ∀ i ∈ l.numbers.dropLast, w.record i = v.record i) := by
  have ⟨_, hx, hs⟩ := c.exists_chain hh
  obtain rfl := hw.unique hx
  have ⟨k, last, d, hk, hn⟩ := hw.exists_last
  subst hk
  have hd := hw.links last d (by simp)
  have hdf : d.WellFormed := hs.formed (last, d) (by simp)
  rw [File.grow_eq hw] at hg
  have ⟨hreach, y, bs, js, t, _⟩ := (File.takesFrom last d n 0 v c.reserved hd hdf hn).of_ok hg
  have hgrows := File.grows_of_growFrom (lt_of_link? hd) hg
  have t := t.gains hw hs.formed
  rw [Nat.sub_zero] at t
  refine ⟨fun hnone => ?whole, fun hz => ?loses⟩
  case whole =>
    rcases hreach.fits with hf | hf
    case inl => omega
    case inr => simp [hnone] at hf
  case loses =>
    obtain ⟨r, x, hx, hrx, z, cs, is, t', htrails⟩ :=
      (File.shrink_loses t.walks (t.stands c.reserved hs) g.grown).exists_ok
    obtain rfl : r = g.grown := by
      have := t.size
      omega
    obtain ⟨rfl, rfl, rfl⟩ := t.undone t' hw hs.formed ht (fun h => hz (htrails h).left)
      (hgrows.retains hw hn hdf)
    refine ⟨x, _, _, _, hx, t, t', fun i hi => ?_⟩
    have hik : i ∈ Chain.numbers k := by simpa using hi
    refine hgrows.record (hw.inodeTaken ?_) fun e => hw.last_not_mem (e ▸ hik)
    exact (Chain.numbers_append ..).symm ▸ List.mem_append_left _ hik

-- Growth is undone by shrinkage by as many bytes as it has brought, be these all that were asked for
-- or not. If it has brought none, there may be an empty link more.
theorem Consistent.grow_undone (c : v.Consistent) (hh : v.Head h) (hl : v.chain h = .ok l)
    (ht : ¬l.Trails) (hg : File.grow h n v = (.ok g, w)) (hcut : g.cut = none ∨ 0 < g.grown) :
    (g.cut = none → g.grown = n) ∧
      ∃ x, File.shrink h g.grown w = (.ok g.grown, x) ∧ v.Restores x h g.grown l := by
  have hw := chain_eq_ok_iff.mp hl
  have ⟨_, hx, hs⟩ := c.exists_chain hh
  obtain rfl := hw.unique hx
  have ⟨hwhole, hback⟩ := c.grow_loses hh hw ht hg
  refine ⟨hwhole, ?_⟩
  by_cases hz : g.grown = 0
  case pos =>
    -- nothing was asked for
    obtain rfl : n = 0 := by
      have := hcut.resolve_right (by omega)
      exact (hwhole this).symm.trans hz
    rw [File.grow, if_pos rfl] at hg
    obtain ⟨-, rfl⟩ := Prod.mk.inj hg
    rw [hz, File.shrink, if_pos rfl]
    exact ⟨v, rfl, Loses.undoes (.refl hw hs.formed) (.refl hw hs.formed) c hh hw (fun _ _ => rfl)
      fun _ _ _ => rfl⟩
  case neg =>
    obtain ⟨x, m, bs, js, hx, t, t', hrec⟩ := hback hz
    obtain ⟨hr, hlast⟩ := t'.records hz hrec
    exact ⟨x, hx, t'.undoes t c hh hw hr fun i d hd => (hlast i d hd).trans (if_neg hz).symm⟩

theorem grow_undone_fresh :
    ∃ (l : Chain) (g : Growth) (w : Volume), (fresh.Consistent ∧ fresh.Head rootInode ∧
      fresh.chain rootInode = .ok l ∧ ¬l.Trails ∧
      File.grow rootInode 100000 fresh = (.ok g, w) ∧ (g.cut = none ∨ 0 < g.grown)) ∧
      (g.cut = none → g.grown = 100000) ∧
      ∃ x, File.shrink rootInode g.grown w = (.ok g.grown, x) ∧ fresh.Restores x rootInode g.grown l := by
  have c := holds_fresh.consistent
  have hh := holds_fresh.head_root
  have ⟨d, w, _, _, _, hw, _, _, hg⟩ := holds_fresh.grow_root (n := 100000) (by decide)
  have ht : ¬Chain.Trails [(rootInode, d)] := Chain.not_trails_singleton
  exact ⟨_, _, w, ⟨c, hh, hw.chain_eq, ht, hg, .inl rfl⟩,
    c.grow_undone hh hw.chain_eq ht hg (.inl rfl)⟩

end Volume

namespace Record

variable {r : Record}

-- The last slot is empty, but not by the number that is written for that.
def respell (r : Record) : Record :=
  { r with blocks := r.blocks.setIfInBounds 3 (-2) }

theorem inode_respell (h : r.inode.slot 3 = none) : r.respell.inode = r.inode := by
  rw [Inode.slot_of_lt (by decide)] at h
  have hb : (r.blocks.setIfInBounds 3 (-2)).map Reference.ofWord = r.blocks.map Reference.ofWord := by
    apply Vector.ext
    intro s hs
    rw [Vector.getElem_map, Vector.getElem_setIfInBounds hs]
    split
    case isTrue h3  =>
      subst h3
      exact h.symm
    case isFalse h3 => exact (Vector.getElem_map ..).symm
  rw [inode, inode, respell, hb]

theorem respell_ne (h : r.inode.slot 3 = none) : r.respell ≠ .ofInode r.inode := by
  rw [Inode.slot_of_lt (by decide)] at h
  intro he
  have hb : (r.blocks.setIfInBounds 3 (-2))[3] = Reference.word r.inode.blocks[3] := by
    rw [← Vector.getElem_map Reference.word]
    exact congrArg (fun r : Record => r.blocks[3]) he
  rw [Vector.getElem_setIfInBounds_self, h] at hb
  contradiction

end Record

namespace Volume

def freshRespelled : Volume :=
  fresh.write (recordStart rootInode) (fresh.record rootInode).respell.bytes

theorem record_freshRespelled : freshRespelled.record rootInode = (fresh.record rootInode).respell :=
  record_write _ (by decide) _

theorem slot_root : (fresh.record rootInode).inode.slot 3 = none := by
  have ⟨d, hw, hs, hu, _⟩ := holds_fresh.walks_root
  have hd : d.WellFormed := hs.formed (rootInode, d) (by simp)
  rw [inode_record (hw.links rootInode d (by simp)), ← Option.not_isSome_iff_eq_none, hd.filled, hu]
  decide

theorem holds_freshRespelled : freshRespelled.Holds rootFiles := by
  have ⟨chains, hs, hf⟩ := holds_fresh
  have ⟨d, hw, _⟩ := holds_fresh.walks_root
  have hd := hw.links rootInode d (by simp)
  have r := relinked_writeRecord fresh (i := rootInode) (by decide) (fresh.record rootInode).respell
  rw [if_pos (hw.inodeTaken hw.head_mem), Record.inode_respell slot_root, inode_record hd, ← hd,
    Function.update_eq_self] at r
  refine ⟨chains, r.links.symm ▸ r.taken.symm ▸ hs, fun k => (Chain.file_congr fun p hp => ?_).trans (hf k)⟩
  exact r.data _ (hs.dataStart_le_address hp)

-- The tree is the same one, but the record of its root is not.
theorem record_not_restored :
    ∃ (l : Chain) (w x : Volume), freshRespelled.Consistent ∧ freshRespelled.Head rootInode ∧
      freshRespelled.chain rootInode = .ok l ∧ ¬l.Trails ∧ rootInode ∈ l.numbers ∧
      File.grow rootInode entrySize freshRespelled = (.ok ⟨entrySize, none⟩, w) ∧
      File.shrink rootInode entrySize w = (.ok entrySize, x) ∧
      x.record rootInode ≠ freshRespelled.record rootInode := by
  have hv := holds_freshRespelled
  have ⟨d, w, _, _, _, hw, _, _, hg⟩ := hv.grow_root (n := entrySize) (by decide)
  have ht : ¬Chain.Trails [(rootInode, d)] := Chain.not_trails_singleton
  have hn : entrySize ≠ 0 := by decide
  obtain ⟨x, m, bs, js, hx, t, t', hrec⟩ := (hv.consistent.grow_loses hv.head_root hw ht hg).right hn
  have hx0 := (t'.records hn hrec).right rootInode d rfl
  refine ⟨_, w, x, hv.consistent, hv.head_root, hw.chain_eq, ht, hw.head_mem, hg, hx, ?_⟩
  rw [hx0, record_freshRespelled, ← inode_record (hw.links rootInode d (by simp)),
    record_freshRespelled, Record.inode_respell slot_root]
  exact (Record.respell_ne slot_root).symm

end Volume
end InodeVolume
