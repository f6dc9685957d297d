import InodeVolume.Block
import InodeVolume.Inode.Table
import InodeVolume.Proofs.Inode.Record
import InodeVolume.Proofs.VolumeM
import Mathlib.Logic.Function.Basic

namespace InodeVolume

open VolumeM

namespace Volume

abbrev dataStart : Nat := reservedBlocks * blockSize

-- The inodes that are taken. All that is known of the maps and the table is `link?` and
-- `blockTaken`.
def link? (v : Volume) (i : Nat) : Option Inode :=
  if v.inodeTaken i then some (v.record i).inode else none

theorem inode_eq_ok_iff {v : Volume} {i : Nat} {c : Inode} :
    v.inode i = .ok c ↔ v.link? i = some c := by
  simp only [inode, link?]
  split <;> simp

theorem inode_of_link? {v : Volume} {i : Nat} {c : Inode} (h : v.link? i = some c) :
    v.inode i = .ok c :=
  inode_eq_ok_iff.mpr h

theorem inode_of_not_link? {v : Volume} {i : Nat} (h : v.link? i = none) :
    v.inode i = .error (.errno .notFound) := by
  simp only [inode, link?] at *
  split at h <;> simp_all

theorem isSome_link? {v : Volume} {i : Nat} : (v.link? i).isSome = v.inodeTaken i := by
  simp only [link?]
  split <;> simp_all

theorem lt_of_inodeTaken {v : Volume} {i : Nat} (h : v.inodeTaken i) : i < inodeCount := by
  rw [inodeTaken, Bool.and_eq_true, decide_eq_true_iff] at h
  exact h.left

theorem lt_of_link? {v : Volume} {i : Nat} {c : Inode} (h : v.link? i = some c) :
    i < inodeCount :=
  lt_of_inodeTaken (isSome_link? ▸ Option.isSome_of_eq_some h)

theorem link?_of_le (v : Volume) {i : Nat} (h : inodeCount ≤ i) : v.link? i = none := by
  simp [link?, inodeTaken, Nat.not_lt.mpr h]

theorem inode_record {v : Volume} {i : Nat} {c : Inode} (h : v.link? i = some c) :
    (v.record i).inode = c := by
  rw [link?] at h
  split at h
  case isTrue  => exact Option.some.inj h
  case isFalse => contradiction

theorem storable_of_link? {v : Volume} {i : Nat} {c : Inode} (h : v.link? i = some c) :
    c.Storable :=
  inode_record h ▸ Record.storable_inode _

theorem lt_of_blockTaken {v : Volume} {b : Nat} (h : v.blockTaken b) : b < blockCount := by
  rw [blockTaken, Bool.and_eq_true, decide_eq_true_iff] at h
  exact h.left

theorem blockTaken_congr {v w : Volume} (h : ∀ a < inodeMapStart, v.byte a = w.byte a) :
    v.blockTaken = w.blockTaken := by
  funext b
  by_cases hb : b < blockCount
  case neg => simp [blockTaken, hb]
  case pos => simp only [blockTaken, bit, h (blockMapStart + b / 8) (by lia)]

theorem inodeTaken_congr {v w : Volume}
    (h : ∀ a, inodeMapStart ≤ a → a < tableStart → v.byte a = w.byte a) :
    v.inodeTaken = w.inodeTaken := by
  funext i
  by_cases hi : i < inodeCount
  case neg => simp [inodeTaken, hi]
  case pos => simp only [inodeTaken, bit, h (inodeMapStart + i / 8) (by lia) (by lia)]

theorem byte_eq_of_bits {v w : Volume} {base a : Nat}
    (hb : ∀ j < 8, v.bit base (8 * a + j) = w.bit base (8 * a + j)) :
    v.byte (base + a) = w.byte (base + a) := by
  refine UInt8.toNat_inj.mp (Nat.eq_of_testBit_eq fun j => ?_)
  by_cases hj : j < 8
  case pos =>
    have := hb j hj
    rwa [bit, bit, show (8 * a + j) / 8 = a by omega, show (8 * a + j) % 8 = j by omega] at this
  case neg =>
    have hbig : ∀ b : UInt8, b.toNat.testBit j = false := fun b =>
      Nat.testBit_lt_two_pow (Nat.lt_of_lt_of_le b.toNat_lt (Nat.pow_le_pow_right (by decide) (by omega)))
    rw [hbig, hbig]

theorem maps_eq {v w : Volume} (hb : v.blockTaken = w.blockTaken) (hi : v.inodeTaken = w.inodeTaken) :
    ∀ a < tableStart, v.byte a = w.byte a := by
  intro a ha
  by_cases hlt : a < inodeMapStart
  case pos =>
    rw [← Nat.zero_add a]
    refine byte_eq_of_bits fun j hj => ?_
    have hk : 8 * a + j < blockCount := by lia
    simpa only [blockTaken, hk, decide_true, Bool.true_and] using congrFun hb (8 * a + j)
  case neg =>
    rw [← Nat.add_sub_cancel' (Nat.le_of_not_lt hlt)]
    refine byte_eq_of_bits fun j hj => ?_
    have hk : 8 * (a - inodeMapStart) + j < inodeCount := by lia
    simpa only [inodeTaken, hk, decide_true, Bool.true_and] using
      congrFun hi (8 * (a - inodeMapStart) + j)

theorem record_of_words {v : Volume} {i : Nat} {r : Record}
    (h : ∀ k < 8, v.word (recordStart i + 4 * k) = r.words.getD k 0) : v.record i = r :=
  (Record.ofWords_congr h).trans r.ofWords_words

theorem record_congr {v w : Volume} {i : Nat}
    (h : ∀ k < recordSize, v.byte (recordStart i + k) = w.byte (recordStart i + k)) :
    v.record i = w.record i := by
  have hw : ∀ k < 8, v.word (recordStart i + 4 * k) = w.word (recordStart i + 4 * k) := by
    intro k hk
    simp only [word, LittleEndian.wordAt, Nat.add_assoc]
    rw [h (4 * k) (by lia), h (4 * k + 1) (by lia), h (4 * k + 2) (by lia), h (4 * k + 3) (by lia)]
  exact Record.ofWords_congr hw

theorem byte_setBit_of_ne {v : Volume} {a i k : Nat} {b : Bool} (h : k ≠ a + i / 8) :
    (v.setBit a i b).byte k = v.byte k := by
  simp [setBit, byte_setByte, h]

theorem byte_write_of_not {v : Volume} {a k : Nat} {bs : List UInt8}
    (h : k < a ∨ a + bs.length ≤ k) : (v.write a bs).byte k = v.byte k := by
  rw [byte_write, if_neg (by omega)]

theorem record_write (v : Volume) {i : Nat} (h : i < inodeCount) (r : Record) :
    (v.write (recordStart i) r.bytes).record i = r := by
  have hb : ∀ k < recordSize,
      (v.write (recordStart i) r.bytes).byte (recordStart i + k) = r.bytes.getD k 0 := by
    intro k hk
    rw [byte_write, Record.length_bytes, if_pos (by unfold recordStart; lia), Nat.add_sub_cancel_left]
  apply record_of_words
  intro k hk
  rw [← LittleEndian.wordAt_flatMap r.words [] hk, List.append_nil]
  simp only [word, LittleEndian.wordAt, Nat.add_assoc]
  rw [hb (4 * k) (by lia), hb (4 * k + 1) (by lia), hb (4 * k + 2) (by lia),
    hb (4 * k + 3) (by lia)]
  rfl

structure Relinked (v w : Volume) (links : Nat → Option Inode) (taken : Nat → Bool) : Prop where
  links : w.link? = links
  taken : w.blockTaken = taken
  data  : ∀ a, dataStart ≤ a → w.byte a = v.byte a

theorem Relinked.trans {v w x : Volume} {l₁ l₂ : Nat → Option Inode} {t₁ t₂ : Nat → Bool}
    (h₁ : Relinked v w l₁ t₁) (h₂ : Relinked w x l₂ t₂) : Relinked v x l₂ t₂ where
  links := h₂.links
  taken := h₂.taken
  data  := fun a ha => (h₂.data a ha).trans (h₁.data a ha)

theorem link?_congr {v w : Volume} (ht : v.inodeTaken = w.inodeTaken)
    (hr : ∀ i < inodeCount, v.record i = w.record i) : v.link? = w.link? := by
  funext i
  rcases Nat.lt_or_ge i inodeCount with hi | hi
  case inl => simp only [link?, ht, hr i hi]
  case inr => rw [link?_of_le _ hi, link?_of_le _ hi]

theorem relinked_setBlockBit (v : Volume) {b : Nat} (h : b < blockCount) (x : Bool) :
    Relinked v (v.setBit blockMapStart b x) v.link? (Function.update v.blockTaken b x) where
  links := by
    apply link?_congr
    case ht => exact inodeTaken_congr fun a _ _ => byte_setBit_of_ne (by lia)
    case hr =>
      intro i hi
      exact record_congr fun k hk => byte_setBit_of_ne (by unfold recordStart; lia)
  taken := by
    funext c
    have := bit_setBit v (a := blockMapStart) (i := b) (by lia) x c
    simp only [blockTaken, this, Function.update_apply]
    split <;> simp_all
  data a ha := byte_setBit_of_ne (by lia)

theorem inodeTaken_setInodeBit (v : Volume) {i : Nat} (h : i < inodeCount) (x : Bool) :
    (v.setBit inodeMapStart i x).inodeTaken = Function.update v.inodeTaken i x := by
  funext j
  have := bit_setBit v (a := inodeMapStart) (i := i) (by lia) x j
  simp only [inodeTaken, this, Function.update_apply]
  split <;> simp_all

theorem relinked_setInodeBit (v : Volume) {i : Nat} (h : i < inodeCount) (x : Bool) :
    Relinked v (v.setBit inodeMapStart i x)
      (Function.update v.link? i (if x then some (v.record i).inode else none))
      v.blockTaken where
  links := by
    have hr : ∀ j < inodeCount, (v.setBit inodeMapStart i x).record j = v.record j := by
      intro j _
      exact record_congr fun k hk => byte_setBit_of_ne (by unfold recordStart; lia)
    funext j
    by_cases hj : j = i
    case pos => simp [hj, link?, inodeTaken_setInodeBit v h, hr i h]
    case neg =>
      rcases Nat.lt_or_ge j inodeCount with hn | hn
      case inl => simp [link?, inodeTaken_setInodeBit v h, hr j hn, hj]
      case inr => simp [link?_of_le _ hn, hj]
  taken := blockTaken_congr fun a ha => byte_setBit_of_ne (by lia)
  data a ha := byte_setBit_of_ne (by lia)

theorem relinked_writeRecord (v : Volume) {i : Nat} (h : i < inodeCount) (r : Record) :
    Relinked v (v.write (recordStart i) r.bytes)
      (if v.inodeTaken i then Function.update v.link? i (some r.inode) else v.link?)
      v.blockTaken where
  links := by
    have ht : (v.write (recordStart i) r.bytes).inodeTaken = v.inodeTaken := by
      refine inodeTaken_congr fun a _ _ => byte_write_of_not ?_
      unfold recordStart
      lia
    have hr : ∀ j < inodeCount, j ≠ i →
        (v.write (recordStart i) r.bytes).record j = v.record j := by
      intro j _ _
      refine record_congr fun k hk => byte_write_of_not ?_
      rw [Record.length_bytes]
      unfold recordStart
      lia
    funext j
    by_cases hj : j = i
    case pos =>
      simp only [hj, link?, ht, record_write v h]
      by_cases hi : v.inodeTaken i <;> simp [hi, link?]
    case neg =>
      rcases Nat.lt_or_ge j inodeCount with hn | hn
      case inl => by_cases hi : v.inodeTaken i <;> simp [link?, ht, hr j hn hj, hi, hj]
      case inr => by_cases hi : v.inodeTaken i <;> simp [link?_of_le _ hn, hi, hj]
  taken := blockTaken_congr fun a ha => byte_write_of_not (by unfold recordStart; lia)
  data a ha := byte_write_of_not (by rw [Record.length_bytes]; unfold recordStart; lia)

end Volume
end InodeVolume
