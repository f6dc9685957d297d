import InodeVolume.File.Content
import InodeVolume.Proofs.File.State
import InodeVolume.Proofs.Volume.Allocation
import Mathlib.Algebra.Ring.Nat

namespace InodeVolume

namespace Piece

def addresses (p : Piece) : List Nat :=
  List.range' (p.block * blockSize + p.start) p.len

structure Valid (p : Piece) : Prop where
  lower : reservedBlocks ≤ p.block
  upper : p.block < blockCount
  inner : p.start + p.len ≤ blockSize

@[simp]
theorem length_addresses (p : Piece) : p.addresses.length = p.len := by
  simp [addresses]

theorem dataStart_le {ps : List Piece} (hv : ∀ p ∈ ps, p.Valid) {a : Nat}
    (ha : a ∈ ps.flatMap addresses) : Volume.dataStart ≤ a := by
  obtain ⟨p, hp, ha⟩ := List.mem_flatMap.mp ha
  have := (hv p hp).lower
  rw [addresses, List.mem_range'_1] at ha
  lia

end Piece

namespace Chain

-- Pieces that follow each other in a file, from one offset to another. None of them is empty, and each
-- lies in the block that holds its bytes.
def Tiles (l : Chain) : Nat → List Piece → Nat → Prop
  | a, [], b      => a = b
  | a, p :: ps, b =>
    (l.blocks[a / blockSize]? = some p.block ∧ p.start = a % blockSize ∧
      0 < p.len ∧ p.start + p.len ≤ blockSize) ∧
    l.Tiles (a + p.len) ps b

variable {l : Chain} {a b n : Nat} {ps : List Piece}

theorem address_of_block (hb : l.blocks[n / blockSize]? = some b) :
    l.address n = b * blockSize + n % blockSize := by
  rw [address, List.getD_eq_getElem?_getD, hb, Option.getD_some]

namespace Tiles

theorem add_len (t : l.Tiles a ps b) : a + (ps.map Piece.len).sum = b := by
  induction ps generalizing a
  case nil => exact t
  case cons p ps hi => rw [List.map_cons, List.sum_cons, ← Nat.add_assoc, hi t.right]

theorem valid (t : l.Tiles a ps b) (hr : ∀ x ∈ l.blocks, reservedBlocks ≤ x ∧ x < blockCount) :
    ∀ p ∈ ps, p.Valid := by
  induction ps generalizing a
  case nil => exact nofun
  case cons p ps hi =>
    have ⟨⟨hb, _, _, hin⟩, t⟩ := t
    have ⟨hlow, hlt⟩ := hr p.block (List.mem_of_getElem? hb)
    exact List.forall_mem_cons.mpr ⟨⟨hlow, hlt, hin⟩, hi t⟩

theorem addresses (t : l.Tiles a ps (a + n)) :
    ps.flatMap Piece.addresses = (List.range' a n).map l.address := by
  induction ps generalizing a n
  case nil =>
    obtain rfl : n = 0 := by simpa [Tiles] using t
    rfl
  case cons p ps hi =>
    have ⟨⟨hb, hs, _, hin⟩, t⟩ := t
    obtain ⟨m, rfl⟩ : ∃ m, n = p.len + m := ⟨n - p.len, by have := t.add_len; omega⟩
    rw [List.flatMap_cons, hi (Nat.add_assoc .. ▸ t), ← List.range'_append_1, List.map_append]
    congr 1
    refine List.ext_getElem (by simp) fun k hk _ => ?_
    have hk : k < p.len := by simpa using hk
    have hdiv : (a + k) / blockSize = a / blockSize := by
      simp only [blockSize] at hs hin ⊢
      omega
    rw [List.getElem_map, List.getElem_range', Nat.one_mul, address_of_block (hdiv ▸ hb)]
    simp only [Piece.addresses, List.getElem_range', Nat.one_mul]
    simp only [blockSize] at hs hin hdiv ⊢
    omega

end Tiles
end Chain

def assign (byte : Nat → UInt8) : List Nat → List UInt8 → Nat → UInt8
  | a :: as, d :: ds => assign (Function.update byte a d) as ds
  | _, _             => byte

section

variable {byte : Nat → UInt8} {as bs : List Nat} {ds : List UInt8}

theorem assign_append (byte : Nat → UInt8) (as bs : List Nat) (ds : List UInt8) :
    assign byte (as ++ bs) ds = assign (assign byte as (ds.take as.length)) bs (ds.drop as.length) := by
  induction as generalizing byte ds
  case nil => simp [assign]
  case cons a as hi =>
    cases ds
    case nil       => cases bs <;> simp [assign]
    case cons d ds => simp [assign, hi]

theorem assign_take : assign byte as ds = assign byte as (ds.take as.length) := by
  have := assign_append byte as [] ds
  rwa [List.append_nil] at this

theorem assign_of_not_mem {a : Nat} (h : a ∉ as) : assign byte as ds a = byte a := by
  induction as generalizing byte ds
  case nil => rfl
  case cons b as hi =>
    cases ds
    case nil => rfl
    case cons d ds =>
      simp only [List.mem_cons, not_or] at h
      rw [assign, hi h.right, Function.update_of_ne h.left]

theorem assign_getElem (byte : Nat → UInt8) {i : Nat} (hn : as.Nodup) (hi : i < as.length) (hd : i < ds.length) :
    assign byte as ds as[i] = ds[i] := by
  induction as generalizing byte ds i
  case nil => simp at hi
  case cons a as ih =>
    have ⟨ha, hn⟩ := List.nodup_cons.mp hn
    cases ds
    case nil => simp at hd
    case cons d ds =>
      rw [assign]
      cases i
      case zero   => simp [assign_of_not_mem ha]
      case succ i => exact ih _ hn (by simpa using hi) (by simpa using hd)

theorem assign_range' {s a : Nat} :
    assign byte (List.range' s ds.length) ds a =
      if s ≤ a ∧ a < s + ds.length then ds.getD (a - s) 0 else byte a := by
  split
  case isTrue h =>
    have hi : a - s < (List.range' s ds.length).length := by rw [List.length_range']; omega
    have hd : a - s < ds.length := by omega
    have := assign_getElem byte List.nodup_range' hi hd
    rw [List.getElem_range', Nat.one_mul, Nat.add_sub_cancel' h.left] at this
    rw [this, List.getD_eq_getElem?_getD, List.getElem?_eq_getElem hd, Option.getD_some]
  case isFalse h =>
    exact assign_of_not_mem (by simpa [List.mem_range'_1] using h)

end

theorem Volume.byte_write_eq (v : Volume) {a : Nat} {data : List UInt8} (h : a + data.length ≤ volumeSize) :
    (v.write a data).byte = assign v.byte (List.range' a data.length) data := by
  funext k
  rw [byte_write, assign_range']
  by_cases hk : a ≤ k ∧ k < a + data.length
  case pos => rw [if_pos (by omega), if_pos hk]
  case neg => rw [if_neg (by omega), if_neg hk]

theorem Block.write_piece_byte {v : Volume} {p : Piece} (hp : p.Valid) {data : List UInt8}
    (hd : data.length = p.len) :
    (Block.write p.block p.start data).Ensures v
      (fun _ w => w.byte = assign v.byte p.addresses data) VolumeM.Never := by
  have hb := hp.upper
  have hin := hp.inner
  rw [VolumeM.Ensures, Block.write_eq hb (hd ▸ hin), Piece.addresses, ← hd]
  exact v.byte_write_eq (by lia)

namespace Volume

variable {v w : Volume} {chains : Nat → Chain} {h : Nat}

theorem block_bounds (hs : Sound v.link? v.blockTaken chains) {b : Nat}
    (hb : b ∈ (chains h).blocks) : reservedBlocks ≤ b ∧ b < blockCount :=
  ⟨hs.beyond h b hb, lt_of_blockTaken (hs.taken_of_mem hb)⟩

theorem Walks.pieces_tile {l : Chain} (hw : v.Walks h l) (hf : l.Laden) (offset len : Nat)
    (hl : len = 0 ∨ offset + len ≤ l.size) :
    ∃ ps, v.pieces h offset len = .ok ps ∧ l.Tiles offset ps (offset + len) := by
  induction len using Nat.strongRecOn generalizing offset
  case ind len hi =>
    rw [pieces]
    by_cases hz : len = 0
    case pos => exact ⟨[], by simp [hz], by simp [hz, Chain.Tiles]⟩
    have ⟨b, hb, _⟩ := Chain.block_of_lt (p := offset) (hf.length_blocks hw.leads) (by omega)
    have hmod := Nat.mod_lt offset (show blockSize > 0 by decide)
    rw [if_neg hz, hw.fileBlock_of_block hf hb]
    generalize hn : min (blockSize - offset % blockSize) len = n
    have hpos : 0 < n := by omega
    have hin : offset % blockSize + n ≤ blockSize := by omega
    have ⟨ps, he, ht⟩ := hi (len - n) (by omega) (offset + n) (by omega)
    refine ⟨⟨b, offset % blockSize, n⟩ :: ps, ?eq, ⟨hb, rfl, hpos, hin⟩, ?tiles⟩
    case eq =>
      simp only [bind, Except.bind, hn, he]
      rfl
    case tiles => rwa [Nat.add_assoc, Nat.add_sub_cancel' (by omega)] at ht

theorem Walks.pieces_eq {l : Chain} (hw : v.Walks h l) (hf : l.Laden)
    (hr : ∀ b ∈ l.blocks, reservedBlocks ≤ b ∧ b < blockCount) (offset len : Nat)
    (hl : len = 0 ∨ offset + len ≤ l.size) :
    ∃ ps, v.pieces h offset len = .ok ps ∧ (∀ p ∈ ps, p.Valid) ∧
      ps.flatMap Piece.addresses = (List.range' offset len).map l.address :=
  have ⟨ps, hp, ht⟩ := hw.pieces_tile hf offset len hl
  ⟨ps, hp, ht.valid hr, ht.addresses⟩

theorem readPieces_eq {ps : List Piece} (hv : ∀ p ∈ ps, p.Valid) :
    v.readPieces ps = .ok ((ps.flatMap Piece.addresses).map v.byte) := by
  induction ps
  case nil => rfl
  case cons p ps hi =>
    have ⟨hp, hv⟩ := List.forall_mem_cons.mp hv
    rw [readPieces, readBlock, if_pos ⟨hp.upper, hp.inner⟩, hi hv, List.flatMap_cons,
      List.map_append]
    rfl

theorem content_slice (l : Chain) (byte : Nat → UInt8) (offset len : Nat) :
    ((l.content byte).drop offset).take len =
      (List.range' offset (clip l.size offset len)).map (byte ∘ l.address) := by
  apply List.ext_getElem
  case _ => simp [clip]
  intro i _ _
  simp [Chain.content]

theorem Walks.readWithin_eq {l : Chain} (hw : v.Walks h l) (hf : l.Laden)
    (hr : ∀ b ∈ l.blocks, reservedBlocks ≤ b ∧ b < blockCount) (offset len : Nat) :
    v.readWithin h l.size offset len = .ok (((l.content v.byte).drop offset).take len) := by
  have ⟨ps, hp, hvalid, ha⟩ := hw.pieces_eq hf hr offset (clip l.size offset len)
    (by unfold clip; omega)
  rw [Volume.readWithin, hp, content_slice]
  simp only [bind, Except.bind, readPieces_eq hvalid, ha, List.map_map]

theorem Walks.readFile_eq {l : Chain} (hw : v.Walks h l) (hf : l.Laden)
    (hr : ∀ b ∈ l.blocks, reservedBlocks ≤ b ∧ b < blockCount) (offset len : Nat) :
    v.readFile h offset len = .ok (((l.content v.byte).drop offset).take len) := by
  rw [Volume.readFile, hw.fileSize_eq]
  exact hw.readWithin_eq hf hr offset len

theorem Holds.readWithin {files : Nat → Option FileState} {f : FileState} (hv : v.Holds files)
    (hf : files h = some f) (offset len : Nat) :
    v.readWithin h f.bytes.length offset len = .ok ((f.bytes.drop offset).take len) := by
  have ⟨chains, hs, _, c, l, hl, _, _, hb⟩ := hv.exists_chain hf
  rw [← hb, Chain.length_content]
  exact (walks_chain hs (by simp [hl])).readWithin_eq (hs.formed h).laden (fun _ => block_bounds hs) offset len

theorem Holds.readFile {files : Nat → Option FileState} {f : FileState} (hv : v.Holds files)
    (hf : files h = some f) (offset len : Nat) :
    v.readFile h offset len = .ok ((f.bytes.drop offset).take len) := by
  rw [Volume.readFile, hv.fileSize hf]
  exact hv.readWithin hf offset len

end Volume

def overwrite (bytes : List UInt8) (offset : Nat) (data : List UInt8) : List UInt8 :=
  bytes.take offset ++ data ++ bytes.drop (offset + data.length)

theorem overwrite_nil (bytes : List UInt8) (offset : Nat) : overwrite bytes offset [] = bytes := by
  simp [overwrite]

theorem length_overwrite {bytes data : List UInt8} {offset : Nat}
    (h : offset + data.length ≤ bytes.length) :
    (overwrite bytes offset data).length = bytes.length := by
  simp [overwrite]
  omega

theorem getElem_overwrite {bytes data : List UInt8} {offset p : Nat}
    (h : offset + data.length ≤ bytes.length) (hp : p < (overwrite bytes offset data).length)
    (hb : p < bytes.length) :
    (overwrite bytes offset data)[p] =
      if hd : offset ≤ p ∧ p < offset + data.length then data[p - offset] else bytes[p] := by
  have : (bytes.take offset).length = offset := by simp; omega
  simp only [overwrite, List.getElem_append, List.length_append, this, List.getElem_take,
    List.getElem_drop]
  grind

theorem Chain.content_assign {l : Chain} (hl : l.blocks.length = blocksFor l.size) (hn : l.blocks.Nodup)
    {offset : Nat} {data : List UInt8} (hd : data.length = 0 ∨ offset + data.length ≤ l.size)
    (byte : Nat → UInt8) :
    l.content (assign byte ((List.range' offset data.length).map l.address) data) =
      overwrite (l.content byte) offset data := by
  cases hd
  case inl hd => rw [List.length_eq_zero_iff.mp hd, overwrite_nil]; rfl
  case inr hd =>
  have hd' : offset + data.length ≤ (l.content byte).length := by simpa using hd
  have hn' : ((List.range' offset data.length).map l.address).Nodup := by
    refine List.Nodup.map_on (fun p hp q hq e => ?_) List.nodup_range'
    rw [List.mem_range'_1] at hp hq
    exact address_inj hl hn (by omega) (by omega) e
  refine List.ext_getElem (by simp [length_overwrite hd']) fun p hp _ => ?_
  have hp : p < l.size := by simpa using hp
  rw [getElem_overwrite hd' _ (by simpa using hp)]
  simp only [content, List.getElem_map, List.getElem_range]
  split
  case isTrue hin =>
    have hi : p - offset < ((List.range' offset data.length).map l.address).length := by
      rw [List.length_map, List.length_range']
      omega
    have := assign_getElem byte hn' hi (by omega : p - offset < data.length)
    rwa [List.getElem_map, List.getElem_range', Nat.one_mul, Nat.add_sub_cancel' hin.left] at this
  case isFalse hout =>
    apply assign_of_not_mem
    simp only [List.mem_map, List.mem_range'_1, not_exists, not_and]
    exact fun q hq e => hout (address_inj hl hn (by omega) hp e ▸ hq)

theorem Chain.content_assign_of_disjoint {l m : Chain} (hl : l.blocks.length = blocksFor l.size)
    (hm : m.blocks.length = blocksFor m.size) (hd : l.blocks.Disjoint m.blocks) {offset n : Nat}
    (hn : n = 0 ∨ offset + n ≤ l.size) (data : List UInt8) (byte : Nat → UInt8) :
    m.content (assign byte ((List.range' offset n).map l.address) data) = m.content byte := by
  refine content_congr fun p hp => assign_of_not_mem fun ha => ?_
  obtain ⟨q, hq, e⟩ := List.mem_map.mp ha
  have hq := List.mem_range'_1.mp hq
  have ⟨b, hb, hb', _⟩ := block_of_address hl hm (show q < l.size by omega) hp e
  exact hd (List.mem_of_getElem? hb) (List.mem_of_getElem? hb')

namespace Volume

variable {v w : Volume} {chains : Nat → Chain} {files : Nat → Option FileState} {h : Nat}
variable {f : FileState}

theorem rewritten_of_assign {l : Chain} (hl : l.blocks.length = blocksFor l.size)
    (hr : ∀ b ∈ l.blocks, reservedBlocks ≤ b ∧ b < blockCount) {offset n : Nat}
    (hn : n = 0 ∨ offset + n ≤ l.size) {data : List UInt8}
    (hb : w.byte = assign v.byte ((List.range' offset n).map l.address) data) :
    v.Rewritten w (assign v.byte ((List.range' offset n).map l.address) data) := by
  refine rewritten_of_byte hb fun a ha => assign_of_not_mem fun hm => ?_
  obtain ⟨p, hp, rfl⟩ := List.mem_map.mp hm
  have hp := List.mem_range'_1.mp hp
  have := Chain.dataStart_le_address hl (fun b hb => (hr b hb).left) (show p < l.size by omega)
  omega

theorem Rewritten.holds (hs : Sound v.link? v.blockTaken chains)
    (hf : ∀ h, (chains h).file v.byte = files h) (hh : files h = some f) {offset : Nat}
    {data : List UInt8} (hl : data.length = 0 ∨ offset + data.length ≤ f.bytes.length)
    (r : v.Rewritten w
      (assign v.byte ((List.range' offset data.length).map (chains h).address) data)) :
    w.Holds (Function.update files h (some { f with bytes := overwrite f.bytes offset data })) := by
  refine ⟨chains, r.links ▸ r.taken ▸ hs, fun k => ?_⟩
  rw [Chain.file_congr fun p hp => r.data _ (hs.dataStart_le_address hp)]
  have ⟨a, ha, hfa⟩ := Option.map_eq_some_iff.mp ((hf h).trans hh)
  have hn : f.bytes.length = (chains h).size := by simp [← hfa]
  by_cases hk : k = h
  case pos =>
    rw [hk, Function.update_self, Chain.file, ha, Chain.content_assign (hs.length_blocks h) (hs.blocks h) (hn ▸ hl), ← hfa]
    rfl
  case neg =>
    rw [Function.update_of_ne hk, ← hf k]
    refine Chain.file_congr fun p hp => assign_of_not_mem ?_
    simp only [List.mem_map, List.mem_range'_1, not_exists, not_and]
    exact fun q hq e => hk (hs.address_inj (by omega) hp e).left.symm

end Volume

namespace File

open VolumeM Volume

theorem writePieces_byte {v : Volume} {ps : List Piece} (hv : ∀ p ∈ ps, p.Valid)
    {data : List UInt8} (hd : (ps.flatMap Piece.addresses).length ≤ data.length) :
    (writePieces ps data).Ensures v
      (fun _ w => w.byte = assign v.byte (ps.flatMap Piece.addresses) data) Never := by
  induction ps generalizing v data
  case nil => exact rfl
  case cons p ps hi =>
    have ⟨hp, hv⟩ := List.forall_mem_cons.mp hv
    rw [List.flatMap_cons, List.length_append, Piece.length_addresses] at hd
    rw [writePieces, ensures_bind]
    apply (Block.write_piece_byte hp (by rw [List.length_take]; omega)).mono_ok
    intro _ u hu
    apply (hi hv (by rw [List.length_drop]; omega)).mono_ok
    intro _ w hw
    rw [hw, hu, List.flatMap_cons, assign_append, Piece.length_addresses]

theorem writePieces_ensures {v : Volume} {ps : List Piece} (hv : ∀ p ∈ ps, p.Valid)
    {data : List UInt8} (hd : (ps.flatMap Piece.addresses).length ≤ data.length) :
    (writePieces ps data).Ensures v
      (fun _ w => v.Rewritten w (assign v.byte (ps.flatMap Piece.addresses) data)) Never := by
  apply (writePieces_byte hv hd).mono_ok
  intro _ w hw
  refine rewritten_of_byte hw fun a ha => assign_of_not_mem fun hm => ?_
  exact absurd (Piece.dataStart_le hv hm) (Nat.not_le.mpr ha)

section

variable {v : Volume} {h : Nat} {l : Chain}

theorem exists_pieces (hw : v.Walks h l) (hf : l.Laden)
    (hr : ∀ b ∈ l.blocks, reservedBlocks ≤ b ∧ b < blockCount) (offset len : Nat)
    (hl : len = 0 ∨ offset + len ≤ l.size) :
    ∃ ps, v.pieces h offset len = .ok ps ∧ (ps.flatMap Piece.addresses).length = len ∧
      ∀ data, len ≤ data.length → (writePieces ps data).Ensures v
        (fun _ w => w.byte = assign v.byte ((List.range' offset len).map l.address) (data.take len))
        Never := by
  have ⟨ps, hp, hvalid, ha⟩ := hw.pieces_eq hf hr offset len hl
  have hlen : (ps.flatMap Piece.addresses).length = len := by simp [ha]
  refine ⟨ps, hp, hlen, fun data hd => ?_⟩
  apply (writePieces_byte hvalid (hlen ▸ hd)).mono_ok
  intro _ w hb
  rw [hb, assign_take, hlen, ha]

theorem write_byte (hw : v.Walks h l) (hf : l.Laden)
    (hr : ∀ b ∈ l.blocks, reservedBlocks ≤ b ∧ b < blockCount) (offset : Nat) (data : List UInt8) :
    (write h offset data).Ensures v
      (fun n w => n = clip l.size offset data.length ∧
        w.byte = assign v.byte ((List.range' offset (data.take n).length).map l.address) (data.take n))
      Never := by
  have hle : clip l.size offset data.length ≤ data.length := Nat.min_le_left ..
  have ⟨ps, hp, _, hwrite⟩ := exists_pieces hw hf hr offset (clip l.size offset data.length)
    (by unfold clip; omega)
  rw [write, ensures_bind, ensures_query_ok hw.fileSize_eq, ensures_bind, ensures_query_ok hp,
    ensures_bind]
  apply (hwrite data hle).mono_ok
  intro _ w hb
  exact ⟨rfl, by rw [hb, List.length_take, Nat.min_eq_left hle]⟩

theorem write_rewrites (hw : v.Walks h l) (hf : l.Laden)
    (hr : ∀ b ∈ l.blocks, reservedBlocks ≤ b ∧ b < blockCount) (offset : Nat) (data : List UInt8) :
    (write h offset data).Ensures v
      (fun n w => n = clip l.size offset data.length ∧
        ((data.take n).length = 0 ∨ offset + (data.take n).length ≤ l.size) ∧
        v.Rewritten w
          (assign v.byte ((List.range' offset (data.take n).length).map l.address) (data.take n)))
      Never := by
  apply (write_byte hw hf hr offset data).mono_ok
  rintro n w ⟨hn, hb⟩
  have hin : (data.take n).length = 0 ∨ offset + (data.take n).length ≤ l.size := by
    rw [List.length_take, hn, clip]
    omega
  exact ⟨hn, hin, rewritten_of_assign (hf.length_blocks hw.leads) hr hin hb⟩

end

variable {v : Volume} {files : Nat → Option FileState} {h offset : Nat} {f : FileState}

theorem write_ensures (hv : v.Holds files) (hf : files h = some f) (data : List UInt8) :
    (write h offset data).Ensures v
      (fun n w => n = clip f.bytes.length offset data.length ∧
        w.Holds (Function.update files h
          (some { f with bytes := overwrite f.bytes offset (data.take n) })) ∧ v.SameChains w)
      Never := by
  have ⟨chains, hs, hc, c, l, hl, _, _, hb⟩ := hv.exists_chain hf
  have hsize : f.bytes.length = (chains h).size := by rw [← hb, Chain.length_content]
  apply (write_rewrites (walks_chain hs (h := h) (by simp [hl])) (hs.formed h).laden
    (fun _ => block_bounds hs) offset data).mono_ok
  rintro n w ⟨hn, hin, r⟩
  exact ⟨hsize ▸ hn, Rewritten.holds hs hc hf (hsize ▸ hin) r, r.links, r.taken⟩

theorem zeroPieces_eq (ps : List Piece) {n : Nat} (h : (ps.flatMap Piece.addresses).length ≤ n) :
    zeroPieces ps = writePieces ps (.replicate n 0) := by
  induction ps generalizing n
  case nil => rfl
  case cons p ps hi =>
    rw [List.flatMap_cons, List.length_append, Piece.length_addresses] at h
    rw [zeroPieces, writePieces, hi (n := n - p.len) (by omega), List.take_replicate,
      List.drop_replicate, Nat.min_eq_left (by omega)]

theorem zero_ensures (hv : v.Holds files) (hf : files h = some f) {len : Nat}
    (hl : len = 0 ∨ offset + len ≤ f.bytes.length) :
    (zero h offset len).Ensures v
      (fun _ w => w.Holds (Function.update files h
        (some { f with bytes := overwrite f.bytes offset (.replicate len 0) })) ∧ v.SameChains w)
      Never := by
  have ⟨chains, hs, hc, c, l, hcl, _, _, hb⟩ := hv.exists_chain hf
  have hsize : f.bytes.length = (chains h).size := by rw [← hb, Chain.length_content]
  have hw := walks_chain hs (h := h) (by simp [hcl])
  have hr : ∀ b ∈ (chains h).blocks, reservedBlocks ≤ b ∧ b < blockCount := fun _ => block_bounds hs
  have ⟨ps, hp, hn, hwrite⟩ := exists_pieces hw (hs.formed h).laden hr offset len (hsize ▸ hl)
  rw [zero, ensures_bind, ensures_query_ok hp, zeroPieces_eq ps (Nat.le_of_eq hn)]
  apply (hwrite (.replicate len 0) (by simp)).mono_ok
  intro _ w hb
  rw [List.take_of_length_le (by simp)] at hb
  have r := rewritten_of_assign (hs.length_blocks h) hr (hsize ▸ hl) hb
  refine ⟨Rewritten.holds hs hc hf (by simpa using hl) ?_, r.links, r.taken⟩
  rwa [List.length_replicate]

end File
end InodeVolume
