import InodeVolume.File.Shrinkage
import InodeVolume.Proofs.Volume.Allocation
import Mathlib.Data.List.Find

namespace InodeVolume

open VolumeM Volume

namespace Volume

def store (v : Volume) (i : Nat) (c : Inode) : Volume :=
  v.write (recordStart i) (Record.ofInode c).bytes

variable {v : Volume} {i j a n : Nat} {c d : Inode}

theorem byte_store (v : Volume) (i : Nat) (c : Inode) (a : Nat) :
    (v.store i c).byte a =
      if recordStart i ≤ a ∧ a < recordStart i + recordSize ∧ a < volumeSize
      then (Record.ofInode c).bytes.getD (a - recordStart i) 0 else v.byte a :=
  byte_write ..

theorem byte_store_of_lt (h : a < tableStart) : (v.store i c).byte a = v.byte a := by
  rw [byte_store, if_neg (by unfold recordStart; lia)]

@[simp]
theorem store_store (v : Volume) (i : Nat) (c d : Inode) : (v.store i c).store i d = v.store i d := by
  refine Volume.ext fun a _ => ?_
  rw [byte_store, byte_store, byte_store]
  split <;> rfl

theorem setBit_store (h : a + n / 8 < tableStart) (x : Bool) :
    (v.store i c).setBit a n x = (v.setBit a n x).store i c := by
  refine Volume.ext fun k _ => ?_
  have hne : ¬(recordStart i ≤ a + n / 8) := by unfold recordStart; lia
  rw [setBit, byte_setByte, byte_store_of_lt h, byte_store, byte_store, setBit, byte_setByte]
  split
  case isTrue hk  => rw [if_neg (by omega)]
  case isFalse hk => rfl

theorem bit_store (h : a + n / 8 < tableStart) : (v.store i c).bit a n = v.bit a n := by
  rw [bit, bit, byte_store_of_lt h]

theorem blockTaken_store (v : Volume) (i : Nat) (c : Inode) :
    (v.store i c).blockTaken = v.blockTaken :=
  blockTaken_congr fun _ h => byte_store_of_lt (by lia)

theorem clearBit?_store : (v.store i c).clearBit? blockMapStart reservedBlocks blockCount =
    v.clearBit? blockMapStart reservedBlocks blockCount := by
  refine List.find?_congr fun n hn => ?_
  have := (List.mem_range'_1.mp hn).right
  rw [bit_store (by lia)]

theorem record_store_of_ne (h : j ≠ i) : (v.store i c).record j = v.record j := by
  refine record_congr fun k hk => ?_
  rw [byte_store, if_neg (by unfold recordStart; lia)]

theorem record_store (h : i < inodeCount) :
    (v.store i c).record = Function.update v.record i (.ofInode c) := by
  funext j
  by_cases hj : j = i
  case pos => rw [hj, Function.update_self, store, record_write v h]
  case neg => rw [Function.update_of_ne hj, record_store_of_ne hj]

theorem record_setBit (h : a + n / 8 < tableStart) (x : Bool) :
    (v.setBit a n x).record j = v.record j :=
  record_congr fun k _ => byte_setBit_of_ne (by unfold recordStart; omega)

theorem inodeTaken_store (v : Volume) (i : Nat) (c : Inode) :
    (v.store i c).inodeTaken = v.inodeTaken :=
  inodeTaken_congr fun _ _ h => byte_store_of_lt h

-- The inode `i` has its references and its mode still.
def Retains (v w : Volume) (i : Nat) : Prop :=
  ∃ c d, v.link? i = some c ∧ w.link? i = some d ∧ d.refs = c.refs ∧ d.mode = c.mode

namespace Retains

variable {u w : Volume}

theorem of_link? (hi : v.inodeTaken i) (h : w.link? i = v.link? i) : v.Retains w i := by
  rw [← isSome_link?] at hi
  have ⟨c, hc⟩ := Option.isSome_iff_exists.mp hi
  exact ⟨c, c, hc, h.trans hc, rfl, rfl⟩

theorem refl (hi : v.inodeTaken i) : v.Retains v i :=
  .of_link? hi rfl

theorem trans (h₁ : v.Retains u i) (h₂ : u.Retains w i) : v.Retains w i := by
  obtain ⟨c, d, hc, hd, hrefs, hmode⟩ := h₁
  obtain ⟨d', e, hd', he, hrefs', hmode'⟩ := h₂
  obtain rfl := Option.some.inj (hd.symm.trans hd')
  exact ⟨c, e, hc, he, hrefs'.trans hrefs, hmode'.trans hmode⟩

theorem taken (h : v.Retains w i) : v.inodeTaken i := by
  obtain ⟨_, _, hc, _⟩ := h
  rw [← isSome_link?, hc]
  rfl

theorem taken_after (h : v.Retains w i) : w.inodeTaken i := by
  obtain ⟨_, _, _, hd, _⟩ := h
  rw [← isSome_link?, hd]
  rfl

theorem update (hc : v.link? i = some c) (hw : w.link? = Function.update v.link? i (some d))
    (hrefs : d.refs = c.refs) (hmode : d.mode = c.mode) (hj : v.inodeTaken j) : v.Retains w j := by
  by_cases hji : j = i
  case pos => exact hji ▸ ⟨c, d, hc, by rw [hw, Function.update_self], hrefs, hmode⟩
  case neg => exact .of_link? hj (by rw [hw, Function.update_of_ne hji])

end Retains

end Volume

theorem Inode.put_eq {i : Nat} (h : i < inodeCount) (c : Inode) (v : Volume) :
    put i c v = (.ok (), v.store i c) := by
  rw [put, if_pos h]
  rfl

variable {v : Volume} {i : Nat} {c : Inode}

theorem Inode.put_record (h : i < inodeCount) (c : Inode) (v : Volume) :
    (put i c).Ensures v (fun _ w => w.record = Function.update v.record i (.ofInode c)) Never := by
  rw [Ensures, put_eq h]
  exact record_store h

theorem Volume.relinked_store (h : (v.link? i).isSome) (hc : c.Storable) :
    Relinked v (v.store i c) (Function.update v.link? i (some c)) v.blockTaken :=
  have ⟨_, ho⟩ := Option.isSome_iff_exists.mp h
  (Inode.put_ensures h hc).of_ok (Inode.put_eq (lt_of_link? ho) c v)

theorem Block.alloc_store (v : Volume) (i : Nat) (c : Inode) :
    alloc (v.store i c) = ((alloc v).1, (alloc v).2.store i c) := by
  simp only [alloc, bind_apply, query, clearBit?_store]
  cases h : v.clearBit? blockMapStart reservedBlocks blockCount
  case none   => rfl
  case some b =>
    have hb := (clearBit?_eq_some h).right.left
    exact congrArg _ (setBit_store (by lia) true)

theorem Block.free_store (v : Volume) (i : Nat) (c : Inode) (b : Nat) :
    free b (v.store i c) = ((free b v).1, (free b v).2.store i c) := by
  simp only [free, bind_apply, query, blockTaken_store]
  by_cases hb : reservedBlocks ≤ b ∧ v.blockTaken b
  case neg => simp [hb, crash]
  case pos =>
    have := lt_of_blockTaken hb.right
    rw [if_pos hb]
    exact congrArg _ (setBit_store (by lia) false)

theorem File.freeSlot_store (v : Volume) (i : Nat) (c : Inode) (slot : Option Nat) :
    freeSlot slot (v.store i c) = ((freeSlot slot v).1, (freeSlot slot v).2.store i c) := by
  cases slot
  case none   => rfl
  case some b => exact Block.free_store v i c b

theorem Block.alloc_record (v : Volume) :
    alloc.Ensures v (fun _ w => w.record = v.record) fun _ w => w = v := by
  rw [alloc, ensures_bind, ensures_look]
  cases h : v.clearBit? blockMapStart reservedBlocks blockCount
  case none   => exact rfl
  case some b =>
    have hb := (clearBit?_eq_some h).right.left
    exact funext fun i => record_setBit (by lia) true

theorem File.freeSlot_record (v : Volume) (slot : Option Nat) :
    (freeSlot slot).Ensures v (fun _ w => w.record = v.record) fun _ w => w = v := by
  cases slot
  case none   => exact rfl
  case some b =>
    rw [freeSlot, Block.free, ensures_bind, ensures_look]
    by_cases hb : reservedBlocks ≤ b ∧ v.blockTaken b
    case neg =>
      rw [if_neg hb]
      exact rfl
    case pos =>
      have hlt := lt_of_blockTaken hb.right
      rw [if_pos hb]
      exact funext fun i => record_setBit (by lia) false

theorem Inode.alloc_record (v : Volume) :
    alloc.Ensures v (fun j w => ∀ i ≠ j, w.record i = v.record i) fun _ w => w = v := by
  rw [alloc, ensures_bind, ensures_look]
  cases h : v.clearBit? inodeMapStart 0 inodeCount
  case none   => exact rfl
  case some j =>
    have hj := (clearBit?_eq_some h).right.left
    simp only [put, if_pos hj]
    exact fun i hi => (record_setBit (by lia) true).trans (record_store_of_ne hi)

theorem Inode.free_record (v : Volume) (i : Nat) :
    (free i).Ensures v (fun _ w => w.record = v.record) fun _ w => w = v := by
  rw [free, ensures_bind]
  cases hc : v.inode i
  case error e => exact (ensures_query_error hc).mpr rfl
  case ok c =>
    rw [ensures_query_ok hc]
    split
    case isFalse => exact rfl
    case isTrue  =>
      have hi := lt_of_link? (inode_eq_ok_iff.mp hc)
      exact funext fun j => record_setBit (by lia) false

end InodeVolume
