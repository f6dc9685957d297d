import InodeVolume.Proofs.File.Access

namespace InodeVolume

open VolumeM Volume

namespace Volume

structure Lodges (v : Volume) (h : Nat) (c : Inode) (bytes : List UInt8) : Prop where
  walks   : v.Walks h [(h, c)]
  stands  : v.Stands [(h, c)]
  content : Chain.content [(h, c)] v.byte = bytes

-- One file has changed, and these blocks have been taken for that. Neither another link nor the rest of
-- the block map is another one than before.
structure Alters (v w : Volume) (h : Nat) (bs : List Nat) : Prop where
  others   : ∀ i ≠ h, w.link? i = v.link? i
  blockMap : Marks v.blockTaken w.blockTaken bs
  range    : ∀ b ∈ bs, reservedBlocks ≤ b

variable {v w x : Volume} {h i n : Nat} {c d : Inode} {bs cs : List Nat} {bytes : List UInt8}

namespace Alters

theorem trans (a : v.Alters w h bs) (b : w.Alters x h cs) : v.Alters x h (bs ++ cs) where
  others   := fun i hi => (b.others i hi).trans (a.others i hi)
  blockMap := a.blockMap.trans b.blockMap
  range    := fun k hk => (List.mem_append.mp hk).elim (a.range k) (b.range k)

theorem crowded_iff (a : v.Alters w h []) : w.Crowded ↔ v.Crowded := by
  simp only [Crowded, a.blockMap.set, List.not_mem_nil, or_false]

theorem not_crowded (a : v.Alters w h bs) (hne : bs ≠ []) : ¬v.Crowded := by
  intro hall
  have ⟨b, hb⟩ := List.exists_mem_of_ne_nil bs hne
  have hlt := lt_of_blockTaken ((a.blockMap.set b).mpr (.inr hb))
  have := a.blockMap.clear b hb
  simp [hall b (a.range b hb) hlt] at this

theorem of_relinked {taken : Nat → Bool}
    (r : Relinked v w (Function.update v.link? h (some c)) taken) (hb : Marks v.blockTaken taken bs)
    (hr : ∀ b ∈ bs, reservedBlocks ≤ b) : v.Alters w h bs where
  others   := fun i hi => by rw [r.links, Function.update_of_ne hi]
  blockMap := r.taken ▸ hb
  range    := hr

end Alters

namespace Lodges

theorem of_empty (hc : v.link? h = some c) (hf : c.WellFormed) (hn : c.next = none)
    (hs : c.size = 0) : v.Lodges h c [] where
  walks   := ⟨by simpa using hc, rfl, hn⟩
  stands  := by
    have ho : c.owned = [] := by
      rw [← List.length_eq_zero_iff, Inode.length_owned, Inode.usedBlocks, hs, blocksFor_zero]
    exact ⟨Chain.formed_cons.mpr ⟨hf, Chain.formed_nil⟩, by simp [ho], by simp [ho]⟩
  content := by simp [Chain.content, hs]

theorem link (l : v.Lodges h c bytes) : v.link? h = some c :=
  l.walks.links h c List.mem_cons_self

theorem next (l : v.Lodges h c bytes) : c.next = none :=
  l.walks.leads.right

theorem formed (l : v.Lodges h c bytes) : c.WellFormed :=
  (Chain.formed_cons.mp l.stands.formed).left

theorem length (l : v.Lodges h c bytes) : bytes.length = c.size := by
  rw [← l.content, Chain.length_content, Chain.size_cons, Chain.size_nil, Nat.add_zero]

theorem fileSize (l : v.Lodges h c bytes) : v.fileSize h = .ok bytes.length := by
  rw [l.walks.fileSize_eq, ← l.content, Chain.length_content]

theorem readWithin (l : v.Lodges h c bytes) (offset len : Nat) :
    v.readWithin h bytes.length offset len = .ok ((bytes.drop offset).take len) := by
  have := l.walks.readWithin_eq l.stands.formed.laden l.stands.bounds offset len
  rwa [l.content, ← Chain.length_content [(h, c)] v.byte, l.content] at this

theorem gain (l : v.Lodges h c bytes) (r : Relinked v w (Function.update v.link? h (some d)) w.blockTaken)
    (a : v.Alters w h bs) (hf : d.WellFormed) (hn : d.next = none) (hs : d.size = c.size + n)
    (ho : d.owned = c.owned ++ bs) :
    ∃ new : List UInt8, new.length = n ∧ w.Lodges h d (bytes ++ new) := by
  have hlen := Chain.length_blocks l.walks.leads l.stands.formed
  have hsize : Chain.size [(h, d)] = Chain.size [(h, c)] + n := by simp [hs]
  have hblocks : Chain.blocks [(h, d)] = Chain.blocks [(h, c)] ++ bs := by simp [ho]
  have hfront : (Chain.content [(h, d)] w.byte).take (Chain.size [(h, c)]) = bytes := by
    rw [← Chain.content_eq_take (hblocks ▸ List.prefix_append ..) hlen (hsize ▸ Nat.le_add_right ..),
      ← l.content]
    exact l.stands.content_congr hlen r.data
  refine ⟨(Chain.content [(h, d)] w.byte).drop (Chain.size [(h, c)]), ?_, ?walks, ?stands, ?_⟩
  case refine_1 => rw [List.length_drop, Chain.length_content, hsize, Nat.add_sub_cancel_left]
  case refine_2 => rw [← hfront, List.take_append_drop]
  case walks    => exact ⟨by simp [r.links], rfl, hn⟩
  case stands =>
    refine ⟨Chain.formed_cons.mpr ⟨hf, Chain.formed_nil⟩, ?_, fun b hb => ?_⟩
    case refine_1 =>
      rw [hblocks]
      refine List.nodup_append.mpr ⟨l.stands.nodup, a.blockMap.nodup, fun b hb x hx e => ?_⟩
      have := a.blockMap.clear b (e ▸ hx)
      simp [(l.stands.held b hb).right] at this
    case refine_2 =>
      rw [hblocks, List.mem_append] at hb
      refine ⟨?_, (a.blockMap.set b).mpr (hb.imp_left fun hb => (l.stands.held b hb).right)⟩
      exact hb.elim (fun hb => (l.stands.held b hb).left) (a.range b)

end Lodges
end Volume

namespace File

variable {v : Volume} {h n offset : Nat} {c : Inode} {bytes data : List UInt8}

theorem write_lodges (l : v.Lodges h c bytes) (hd : offset + data.length ≤ bytes.length) :
    (write h offset data).Ensures v
      (fun k w => k = data.length ∧ w.Lodges h c (overwrite bytes offset data) ∧ v.Alters w h [])
      Never := by
  have hsize : Chain.size [(h, c)] = bytes.length := by rw [← l.content, Chain.length_content]
  have hblocks := Chain.length_blocks l.walks.leads l.stands.formed
  apply (write_rewrites l.walks l.stands.formed.laden l.stands.bounds offset data).mono_ok
  rintro n w ⟨hn, hin, r⟩
  obtain rfl : n = data.length := by rw [hn, hsize, clip]; omega
  rw [List.take_length] at hin r
  refine ⟨rfl, ⟨r.walks l.walks, ?_, ?_⟩, ⟨fun i _ => congrFun r.links i, r.taken ▸ .refl _, by simp⟩⟩
  case refine_1 => exact ⟨l.stands.formed, l.stands.nodup, fun b hb => r.taken ▸ l.stands.held b hb⟩
  case refine_2 =>
    rw [l.stands.content_congr hblocks r.data, Chain.content_assign hblocks l.stands.nodup hin,
      l.content]

theorem grow_lodges (l : v.Lodges h c bytes) (hz : 0 < n) (hn : n ≤ blockSize)
    (hcap : bytes.length + n ≤ inodeCapacity) :
    (grow h n).Ensures v
      (fun g w =>
        (g = ⟨n, none⟩ ∧ ∃ d new bs, new.length = n ∧ d.refs = c.refs ∧ d.mode = c.mode ∧
          w.Lodges h d (bytes ++ new) ∧ v.Alters w h bs ∧
          bs.length = blocksFor (bytes.length + n) - blocksFor bytes.length) ∨
        (g = ⟨0, some .noSpace⟩ ∧ w = v ∧ v.Crowded ∧
          blocksFor (bytes.length + n) ≠ blocksFor bytes.length)) Never := by
  have hused : blocksFor bytes.length = c.usedBlocks := by rw [l.length, Inode.usedBlocks]
  have hcl := l.link
  have hisSome : (v.link? h).isSome := by rw [hcl]; rfl
  rw [hused, l.length] at *
  rw [grow, if_neg (Nat.pos_iff_ne_zero.mp hz), ensures_bind, ensures_attempt,
    ensures_query_ok (Walks.lastLink_eq (l := []) l.walks)]
  dsimp only
  rw [growFrom, if_neg (Nat.pos_iff_ne_zero.mp hz), if_neg (by lia)]
  by_cases hroom : blocksFor (c.size + n) = c.usedBlocks
  case pos =>
    rw [if_pos hroom, ensures_bind]
    apply (Inode.put_ensures hisSome ((storable_of_link? hcl).resize hcap)).mono_never
    intro _ w r
    have a : v.Alters w h [] := .of_relinked r (.refl _) (by simp)
    obtain ⟨new, hnew, hl⟩ := l.gain (r.taken ▸ r) a (l.formed.resize hcap hroom l.next) l.next rfl
      (by rw [Inode.owned_resize hroom, List.append_nil])
    exact .inl ⟨by rw [Nat.zero_add], { c with size := c.size + n }, new, [], hnew, rfl, rfl, hl, a,
      by simp [hroom]⟩
  case neg =>
    -- so few bytes reach into the next block only
    have hone : blocksFor (c.size + n) = c.usedBlocks + 1 := by
      simp only [Inode.usedBlocks, blocksFor, blockSize] at *
      omega
    have hslot : c.usedBlocks < slotsPerInode := by
      have := blocksFor_le_iff.mpr (show c.size + n ≤ slotsPerInode * blockSize from hcap)
      omega
    rw [if_neg hroom, if_pos hslot, ensures_bind, ensures_attempt]
    apply (Block.alloc_ensures v).mono
    case he =>
      rintro _ _ ⟨rfl, rfl, hall⟩
      exact .inr ⟨rfl, rfl, hall, hroom⟩
    rintro b u ⟨hb, hlt, hfree, _, ru⟩
    have hu : (c.hold b n).usedBlocks = c.usedBlocks + 1 := hone
    have hmin : min blockSize n = n := Nat.min_eq_right hn
    dsimp only
    rw [hmin, ensures_bind]
    apply (Inode.put_ensures (by rw [ru.links, hcl]; rfl)
      ((storable_of_link? hcl).hold hslot hlt hcap)).mono_never
    intro _ w ry
    have r := ru.trans (ru.links ▸ ru.taken ▸ ry)
    have a : v.Alters w h [b] := .of_relinked r (.single hfree) (by simpa using hb)
    obtain ⟨new, hnew, hl⟩ := l.gain (r.taken ▸ r) a (l.formed.hold hslot hu l.next) l.next rfl
      (Inode.owned_hold l.formed hslot hu l.next)
    rw [Nat.sub_self, growFrom, if_pos rfl]
    exact .inl ⟨by rw [Nat.zero_add], c.hold b n, new, [b], hnew, rfl, rfl, hl, a, by simp [hone]⟩

end File
end InodeVolume
