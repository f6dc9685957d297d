import InodeVolume.Proofs.File.Access

namespace InodeVolume

open VolumeM Volume

namespace Chain

structure Placed (l : Chain) : Prop where
  laden  : l.Laden
  nodup  : l.blocks.Nodup
  bounds : ∀ b ∈ l.blocks, reservedBlocks ≤ b ∧ b < blockCount

def flat (l : Chain) (v : Volume) : List UInt8 :=
  (l.blocks.flatMap fun b => v.read (b * blockSize) blockSize).take l.size

theorem getElem?_flatMap_read (v : Volume) (bs : List Nat) (p : Nat) :
    (bs.flatMap fun b => v.read (b * blockSize) blockSize)[p]? =
      bs[p / blockSize]?.map fun b => v.byte (b * blockSize + p % blockSize) := by
  induction bs generalizing p
  case nil => rfl
  case cons b bs hi =>
    rw [List.flatMap_cons, List.getElem?_append, length_read]
    split
    case isTrue hp =>
      rw [Nat.div_eq_of_lt hp, Nat.mod_eq_of_lt hp]
      simp [Volume.read, hp]
    case isFalse hp =>
      have hle := Nat.le_of_not_lt hp
      rw [hi, ← Nat.mod_eq_sub_mod hle, Nat.div_eq_sub_div (by decide) hle, List.getElem?_cons_succ]

variable {l m : Chain} {v w : Volume} {a : Option Nat}

namespace Placed

theorem length_blocks (hl : l.Placed) (h : l.Leads a none) : l.blocks.length = blocksFor l.size :=
  hl.laden.length_blocks h

theorem flat_eq (hl : l.Placed) (h : l.Leads a none) (v : Volume) : l.flat v = l.content v.byte := by
  have hlen := hl.length_blocks h
  refine List.ext_getElem? fun p => ?_
  by_cases hp : p < l.size
  case pos =>
    have ⟨b, hb, _, ha⟩ := block_of_lt hlen hp
    rw [flat, List.getElem?_take_of_lt hp, getElem?_flatMap_read, hb]
    simp [content, hp, ha]
  case neg =>
    have hle := Nat.le_of_not_lt hp
    have hend : (l.content v.byte)[p]? = none := List.getElem?_eq_none (by simpa using hle)
    rw [flat, List.getElem?_take_eq_none hle, hend]

theorem length_flat (hl : l.Placed) (h : l.Leads a none) (v : Volume) : (l.flat v).length = l.size := by
  rw [hl.flat_eq h, length_content]

theorem readInto_eq {h : Nat} (hl : l.Placed) (hw : v.Walks h l) (offset : Nat) (buffer : List UInt8) :
    ∃ n, n = min buffer.length (l.size - offset) ∧
      v.readInto h offset buffer = .ok (n, ((l.flat v).drop offset).take n ++ buffer.drop n) := by
  generalize hn : min buffer.length (l.size - offset) = n
  have hsize := hl.length_flat hw.leads v
  have hlen : (((l.flat v).drop offset).take n).length = n := by
    rw [List.length_take, List.length_drop, hsize]
    omega
  have hread : v.readFile h offset buffer.length = .ok (((l.flat v).drop offset).take n) := by
    rw [hw.readFile_eq hl.laden hl.bounds, ← hl.flat_eq hw.leads, Except.ok.injEq,
      List.take_eq_take_iff, List.length_drop, hsize]
    omega
  refine ⟨n, rfl, ?_⟩
  rw [readInto, hread]
  simp only [bind, Except.bind, hlen]
  rfl

end Placed
end Chain

namespace Volume

variable {v w : Volume} {h offset : Nat} {l m : Chain} {data : List UInt8}

structure Legible (v : Volume) : Prop where
  placed : ∀ h, v.Head h → ∃ l, v.chain h = .ok l ∧ Chain.Placed l
  apart  : ∀ h k (l m : Chain), v.Head h → v.Head k → h ≠ k → v.chain h = .ok l → v.chain k = .ok m →
    l.numbers.Disjoint m.numbers ∧ l.blocks.Disjoint m.blocks

theorem Consistent.legible (c : v.Consistent) : v.Legible where
  placed := fun h hh => (c.stands h hh).imp fun _ ⟨hl, hs⟩ => ⟨hl, hs.formed.laden, hs.nodup, hs.bounds⟩
  apart  := c.apart

structure Overlays (v w : Volume) (h : Nat) (l : Chain) (offset : Nat) (data : List UInt8) : Prop where
  legible : w.Legible
  heads   : ∀ k, w.Head k ↔ v.Head k
  chain   : w.chain h = .ok l
  content : l.flat w = overwrite (l.flat v) offset data
  bytes   : ∀ a, (∀ p, offset ≤ p → p < offset + data.length → a ≠ l.address p) → w.byte a = v.byte a
  others  : ∀ k (m : Chain), k ≠ h → v.Head k → v.chain k = .ok m → w.chain k = .ok m ∧ m.flat w = m.flat v

namespace Legible

theorem exists_walk (s : v.Legible) (hh : v.Head h) : ∃ l, v.Walks h l ∧ Chain.Placed l :=
  (s.placed h hh).imp fun _ ⟨hl, hp⟩ => ⟨chain_eq_ok_iff.mp hl, hp⟩

theorem rewritten {byte : Nat → UInt8} (s : v.Legible) (r : v.Rewritten w byte) : w.Legible := by
  have walk : ∀ k (m : Chain), w.Head k → w.chain k = .ok m → v.chain k = .ok m := by
    intro k m hk hm
    have ⟨x, hx, _⟩ := s.exists_walk (r.head_iff.mp hk)
    obtain rfl := (r.walks hx).unique (chain_eq_ok_iff.mp hm)
    exact hx.chain_eq
  constructor
  case placed =>
    intro k hk
    have ⟨x, hx, hp⟩ := s.exists_walk (r.head_iff.mp hk)
    exact ⟨x, (r.walks hx).chain_eq, hp⟩
  case apart =>
    intro j k l m hj hk hne hl hm
    exact s.apart j k l m (r.head_iff.mp hj) (r.head_iff.mp hk) hne (walk j l hj hl) (walk k m hk hm)

theorem overlays (s : v.Legible) (hh : v.Head h) (hw : v.Walks h l) (hl : l.Placed)
    (hn : data.length = 0 ∨ offset + data.length ≤ l.size)
    (hb : w.byte = assign v.byte ((List.range' offset data.length).map l.address) data) :
    v.Overlays w h l offset data := by
  have hlen := hl.length_blocks hw.leads
  have r := rewritten_of_assign hlen hl.bounds hn hb
  constructor
  case legible => exact s.rewritten r
  case heads   => exact fun _ => r.head_iff
  case chain   => exact (r.walks hw).chain_eq
  case content =>
    rw [hl.flat_eq hw.leads, hl.flat_eq hw.leads, hb, Chain.content_assign hlen hl.nodup hn]
  case bytes =>
    intro a ha
    rw [hb]
    refine assign_of_not_mem fun hm => ?_
    obtain ⟨p, hp, he⟩ := List.mem_map.mp hm
    have hp := List.mem_range'_1.mp hp
    exact ha p hp.left hp.right he.symm
  case others =>
    intro k m hk hkh hm
    have ⟨x, hx, hp⟩ := s.exists_walk hkh
    obtain rfl := hx.unique (chain_eq_ok_iff.mp hm)
    have hd := s.apart h k l x hh hkh (Ne.symm hk) hw.chain_eq hm
    refine ⟨(r.walks hx).chain_eq, ?_⟩
    rw [hp.flat_eq hx.leads, hp.flat_eq hx.leads, hb,
      Chain.content_assign_of_disjoint hlen (hp.length_blocks hx.leads) hd.right hn]

theorem exists_overlays (s : v.Legible) (hh : v.Head h) (hw : v.Walks h l) (hl : l.Placed) (offset : Nat)
    (data : List UInt8) :
    ∃ n w, n = min data.length (l.size - offset) ∧
      File.write h offset data v = (.ok n, w) ∧ v.Overlays w h l offset (data.take n) := by
  obtain ⟨n, w, hwrite, hn, hb⟩ := (File.write_byte hw hl.laden hl.bounds offset data).exists_ok
  refine ⟨n, w, hn, hwrite, s.overlays hh hw hl ?_ hb⟩
  rw [List.length_take, hn, clip]
  omega

-- A file is one row of bytes: an access at an offset reads or writes as many of them as there are
-- from there, and the pieces that it is cut into follow each other without a gap.
theorem access_exact (s : v.Legible) (hh : v.Head h) :
    ∃ l : Chain, v.chain h = .ok l ∧ v.fileSize h = .ok l.size ∧ (l.flat v).length = l.size ∧
      ∀ offset,
        (∀ buffer, ∃ n, n = min buffer.length (l.size - offset) ∧
          v.readInto h offset buffer = .ok (n, ((l.flat v).drop offset).take n ++ buffer.drop n)) ∧
        (∀ data, ∃ n w, n = min data.length (l.size - offset) ∧
          File.write h offset data v = (.ok n, w) ∧ v.Overlays w h l offset (data.take n)) ∧
        ∀ len, offset + len ≤ l.size →
          ∃ ps, v.pieces h offset len = .ok ps ∧ (ps.map Piece.len).sum = len ∧
            l.Tiles offset ps (offset + len) := by
  obtain ⟨l, hw, hl⟩ := s.exists_walk hh
  refine ⟨l, hw.chain_eq, hw.fileSize_eq, hl.length_flat hw.leads v, fun offset => ⟨?read, ?write, ?pieces⟩⟩
  case read   => exact hl.readInto_eq hw offset
  case write  => exact s.exists_overlays hh hw hl offset
  case pieces =>
    intro len hlen
    obtain ⟨ps, hp, ht⟩ := hw.pieces_tile hl.laden offset len (.inr hlen)
    exact ⟨ps, hp, by have := ht.add_len; omega, ht⟩

end Legible

theorem access_exact_fresh :
    ∃ (v : Volume) (l : Chain), (v.Legible ∧ v.Head rootInode) ∧
      File.grow rootInode 10000 fresh = (.ok ⟨10000, none⟩, v) ∧
      v.chain rootInode = .ok l ∧ l.size = 10128 ∧
      v.readInto rootInode 4000 (.replicate 7000 0xcc) =
        .ok (6128, ((l.flat v).drop 4000).take 6128 ++ .replicate 872 0xcc) ∧
      (∃ w, File.write rootInode 4000 (.replicate 7000 1) v = (.ok 6128, w) ∧
        v.Overlays w rootInode l 4000 (.replicate 6128 1)) ∧
      ∃ ps, v.pieces rootInode 4000 6128 = .ok ps ∧ 2 < ps.length ∧ l.Tiles 4000 ps 10128 := by
  have ⟨d, v, m, _, _, hw, t, hsize, hg⟩ := holds_fresh.grow_root (n := 10000) (by decide)
  have hh : v.Head rootInode := (t.head_iff hw).mpr holds_fresh.head_root
  have hlegible := (holds_fresh.consistent.gains holds_fresh.head_root hw t).legible
  obtain ⟨l, hl, _, _, haccess⟩ := hlegible.access_exact hh
  obtain rfl := t.walks.unique (chain_eq_ok_iff.mp hl)
  have hsize : m.size = 10128 := hsize
  obtain ⟨hread, hwrite, hpieces⟩ := haccess 4000
  obtain ⟨n, hn, hread⟩ := hread (.replicate 7000 0xcc)
  obtain ⟨k, w, hk, hwrite⟩ := hwrite (.replicate 7000 1)
  obtain ⟨ps, hps, _, htiles⟩ := hpieces 6128 (by omega)
  rw [hsize, List.length_replicate] at hn hk
  obtain rfl : n = 6128 := hn
  obtain rfl : k = 6128 := hk
  rw [List.drop_replicate] at hread
  rw [List.take_replicate] at hwrite
  refine ⟨v, m, ⟨hlegible, hh⟩, hg, hl, hsize, hread, ⟨w, hwrite⟩, ps, hps, ?_, htiles⟩
  -- no piece goes beyond the end of its block
  match ps, htiles with
  | [p], ⟨⟨_, hs, _, hp⟩, he⟩                     => simp only [blockSize, Chain.Tiles] at *; omega
  | [p, q], ⟨⟨_, hs, _, hp⟩, ⟨_, hs', _, hq⟩, he⟩ => simp only [blockSize, Chain.Tiles] at *; omega
  | _ :: _ :: _ :: _, _                           => simp

end Volume
end InodeVolume
