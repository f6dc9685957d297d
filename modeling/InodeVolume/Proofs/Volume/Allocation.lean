import InodeVolume.Proofs.Volume.Layout

namespace InodeVolume

open VolumeM Volume

namespace Volume

theorem clearBit?_eq_some {v : Volume} {a lo hi k : Nat} (h : v.clearBit? a lo hi = some k) :
    lo ≤ k ∧ k < hi ∧ v.bit a k = false ∧ ∀ j, lo ≤ j → j < k → v.bit a j = true := by
  have ⟨hk, hm, hall⟩ := List.find?_range'_eq_some.mp h
  have ⟨hlo, hhi⟩ := List.mem_range'_1.mp hm
  exact ⟨hlo, by omega, by simpa using hk, fun j hj hjk => by simpa using hall j hj hjk⟩

theorem clearBit?_eq_none {v : Volume} {a lo hi : Nat} (h : v.clearBit? a lo hi = none) :
    ∀ j, lo ≤ j → j < hi → v.bit a j = true := by
  intro j hlo hhi
  simpa using List.find?_range'_eq_none.mp h j hlo (by omega)

end Volume

namespace Block

theorem alloc_ensures (v : Volume) :
    alloc.Ensures v
      (fun b w => reservedBlocks ≤ b ∧ b < blockCount ∧ v.blockTaken b = false ∧
        (∀ c, reservedBlocks ≤ c → c < b → v.blockTaken c) ∧
        Relinked v w v.link? (Function.update v.blockTaken b true))
      (fun e w => e = .errno .noSpace ∧ w = v ∧
        ∀ c, reservedBlocks ≤ c → c < blockCount → v.blockTaken c) := by
  rw [alloc, ensures_bind, ensures_look]
  cases h : v.clearBit? blockMapStart reservedBlocks blockCount
  case none =>
    have hall := clearBit?_eq_none h
    refine ⟨rfl, rfl, fun c hc hn => ?_⟩
    simp [blockTaken, hn, hall c hc hn]
  case some b =>
    obtain ⟨hlo, hhi, hb, hall⟩ := clearBit?_eq_some h
    refine ⟨hlo, hhi, by simp [blockTaken, hb], fun c hc hn => ?_, relinked_setBlockBit v hhi true⟩
    simp [blockTaken, Nat.lt_trans hn hhi, hall c hc hn]

theorem free_ensures {v : Volume} {b : Nat} (hb : reservedBlocks ≤ b) (ht : v.blockTaken b) :
    (free b).Ensures v
      (fun _ w => Relinked v w v.link? (Function.update v.blockTaken b false)) Never := by
  rw [free, ensures_bind, ensures_look, if_pos ⟨hb, ht⟩]
  exact relinked_setBlockBit v (lt_of_blockTaken ht) false

end Block

namespace Inode

theorem put_record_ensures {v : Volume} {i : Nat} (h : (v.link? i).isSome) (c : Inode) :
    (put i c).Ensures v
      (fun _ w => Relinked v w (Function.update v.link? i (some (Record.ofInode c).inode))
        v.blockTaken) Never := by
  have ⟨old, ho⟩ := Option.isSome_iff_exists.mp h
  have hi := lt_of_link? ho
  have := relinked_writeRecord v hi (.ofInode c)
  rw [isSome_link?] at h
  rw [if_pos h] at this
  rw [put, if_pos hi]
  exact this

theorem put_ensures {v : Volume} {i : Nat} {c : Inode} (h : (v.link? i).isSome)
    (hc : c.Storable) :
    (put i c).Ensures v
      (fun _ w => Relinked v w (Function.update v.link? i (some c)) v.blockTaken) Never := by
  have := put_record_ensures h c
  rwa [Record.inode_ofInode hc] at this

theorem alloc_ensures (v : Volume) :
    alloc.Ensures v
      (fun i w => i < inodeCount ∧ v.link? i = none ∧ (∀ j < i, (v.link? j).isSome) ∧
        Relinked v w (Function.update v.link? i (some {})) v.blockTaken)
      (fun e w => e = .errno .noSpace ∧ w = v ∧ ∀ j < inodeCount, (v.link? j).isSome) := by
  rw [alloc, ensures_bind, ensures_look]
  cases h : v.clearBit? inodeMapStart 0 inodeCount
  case none =>
    have hall := clearBit?_eq_none h
    refine ⟨rfl, rfl, fun j hj => ?_⟩
    simp [isSome_link?, inodeTaken, hj, hall j]
  case some i =>
    obtain ⟨_, hi, hc, hall⟩ := clearBit?_eq_some h
    have ht : v.inodeTaken i = false := by simp [inodeTaken, hc]
    have hw := relinked_writeRecord v hi (.ofInode {})
    have hb := relinked_setInodeBit (v.write (recordStart i) (Record.ofInode {}).bytes) hi true
    simp only [ht, Bool.false_eq_true, if_false] at hw
    simp only [if_true, record_write v hi, Record.inode_ofInode Storable.default, hw.links,
      hw.taken] at hb
    simp only [put, if_pos hi]
    refine ⟨hi, by simp [link?, ht], fun j hj => ?_, hw.trans hb⟩
    simp [isSome_link?, inodeTaken, Nat.lt_trans hj hi, hall j (Nat.zero_le j) hj]

theorem free_ensures {v : Volume} {i : Nat} {c : Inode} (h : v.link? i = some c)
    (hc : c.isEmpty) :
    (free i).Ensures v
      (fun _ w => Relinked v w (Function.update v.link? i none) v.blockTaken) Never := by
  rw [free, ensures_bind, ensures_query_ok (inode_of_link? h), if_pos hc]
  exact relinked_setInodeBit v (lt_of_link? h) false

end Inode

namespace Volume

structure Rewritten (v w : Volume) (byte : Nat → UInt8) : Prop where
  links : w.link? = v.link?
  taken : w.blockTaken = v.blockTaken
  data  : ∀ a, dataStart ≤ a → w.byte a = byte a

theorem rewritten_of_byte {v w : Volume} {byte : Nat → UInt8} (hb : w.byte = byte)
    (hlow : ∀ a < dataStart, byte a = v.byte a) : v.Rewritten w byte := by
  have hsame : ∀ a < dataStart, w.byte a = v.byte a :=
    fun a ha => (congrFun hb a).trans (hlow a ha)
  constructor
  case taken => exact blockTaken_congr fun a ha => hsame a (by lia)
  case data  => exact fun a _ => congrFun hb a
  case links =>
    apply link?_congr
    case ht => exact inodeTaken_congr fun a _ ha => hsame a (by lia)
    case hr => exact fun i hi => record_congr fun k hk => hsame _ (by unfold recordStart; lia)

end Volume

theorem Block.write_eq {b s : Nat} {data : List UInt8} (hn : b < blockCount)
    (hs : s + data.length ≤ blockSize) (v : Volume) :
    write b s data v = (.ok (), v.write (b * blockSize + s) data) := by
  rw [write, if_pos ⟨hn, hs⟩]
  rfl

end InodeVolume
