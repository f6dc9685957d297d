import InodeVolume.Proofs.Volume.Allocation
import Mathlib.Data.List.Find

namespace InodeVolume

namespace VolumeM

variable {α β : Type} {act : VolumeM α} {v w : Volume}
variable {ok ok' : α → Volume → Volume → Prop} {error error' : Fault → Volume → Volume → Prop}

inductive Agrees (act : VolumeM α) (v w : Volume) (ok : α → Volume → Volume → Prop)
    (error : Fault → Volume → Volume → Prop) : Prop
  | ok {a : α} {x y : Volume} : act v = (.ok a, x) → act w = (.ok a, y) → ok a x y →
    Agrees act v w ok error
  | error {e : Fault} {x y : Volume} : act v = (.error e, x) → act w = (.error e, y) →
    error e x y → Agrees act v w ok error

namespace Agrees

theorem mono (h : act.Agrees v w ok error) (ho : ∀ a x y, ok a x y → ok' a x y)
    (he : ∀ e x y, error e x y → error' e x y) : act.Agrees v w ok' error' := by
  cases h
  case ok hv hw h    => exact .ok hv hw (ho _ _ _ h)
  case error hv hw h => exact .error hv hw (he _ _ _ h)

theorem and_ensures (h : act.Agrees v w ok error) {p : α → Volume → Prop}
    {q : Fault → Volume → Prop} (e : act.Ensures v p q) :
    act.Agrees v w (fun a x y => ok a x y ∧ p a x) (fun e x y => error e x y ∧ q e x) := by
  cases h
  case ok hv hw h    => exact .ok hv hw ⟨h, e.of_ok hv⟩
  case error hv hw h => exact .error hv hw ⟨h, e.of_error hv⟩

theorem result (h : act.Agrees v w ok error) : (act v).1 = (act w).1 := by
  cases h
  case ok hv hw _    => rw [hv, hw]
  case error hv hw _ => rw [hv, hw]

theorem volumes {p : Volume → Volume → Prop} (h : act.Agrees v w ok error)
    (ho : ∀ a x y, ok a x y → p x y) (he : ∀ e x y, error e x y → p x y) :
    p (act v).2 (act w).2 := by
  cases h
  case ok hv hw h    => rw [hv, hw]; exact ho _ _ _ h
  case error hv hw h => rw [hv, hw]; exact he _ _ _ h

theorem bind {f : α → VolumeM β} {ok : β → Volume → Volume → Prop}
    (h : act.Agrees v w (fun a x y => (f a).Agrees x y ok error) error) :
    (act >>= f).Agrees v w ok error := by
  cases h
  case error hv hw h => exact .error (bind_of_error hv f) (bind_of_error hw f) h
  case ok hv hw h    =>
    cases h
    case ok hx hy h =>
      exact .ok ((bind_of_ok hv f).trans hx) ((bind_of_ok hw f).trans hy) h
    case error hx hy h =>
      exact .error ((bind_of_ok hv f).trans hx) ((bind_of_ok hw f).trans hy) h

theorem map {f : α → β} {ok : β → Volume → Volume → Prop}
    (h : act.Agrees v w (fun a => ok (f a)) error) : (f <$> act).Agrees v w ok error := by
  rw [← bind_pure_comp]
  exact bind (h.mono (fun _ _ _ h => .ok rfl rfl h) fun _ _ _ => id)

theorem attempt {ok : Except Errno α → Volume → Volume → Prop}
    (h : act.Agrees v w (fun a => ok (.ok a)) fun e x y =>
      match e with
      | .errno e => ok (.error e) x y
      | .crash   => error .crash x y) :
    (VolumeM.attempt act).Agrees v w ok error := by
  cases h
  case ok hv hw h => exact .ok (by rw [VolumeM.attempt, hv]) (by rw [VolumeM.attempt, hw]) h
  case error e _ _ hv hw h =>
    cases e
    case errno => exact .ok (by rw [VolumeM.attempt, hv]) (by rw [VolumeM.attempt, hw]) h
    case crash => exact .error (by rw [VolumeM.attempt, hv]) (by rw [VolumeM.attempt, hw]) h

theorem query {look : Volume → Except Fault α} (h : look v = look w)
    (ho : ∀ a, look v = .ok a → ok a v w) (he : ∀ e, look v = .error e → error e v w) :
    (VolumeM.query look).Agrees v w ok error := by
  cases hl : look v
  case ok a    => exact .ok (by rw [VolumeM.query, hl]) (by rw [VolumeM.query, ← h, hl]) (ho a hl)
  case error e => exact .error (by rw [VolumeM.query, hl]) (by rw [VolumeM.query, ← h, hl]) (he e hl)

end Agrees

end VolumeM

open VolumeM

namespace Volume

-- Two volumes have the same maps, the same records of taken inodes, and the same bytes in the places
-- that are known.
structure Matches (known : Nat → Prop) (v w : Volume) : Prop where
  maps    : ∀ a < tableStart, v.byte a = w.byte a
  records : ∀ i, v.inodeTaken i → ∀ k < recordSize,
    v.byte (recordStart i + k) = w.byte (recordStart i + k)
  bytes   : ∀ a, known a → v.byte a = w.byte a

variable {known known' : Nat → Prop} {v w : Volume}

namespace Matches

theorem refl (known : Nat → Prop) (v : Volume) : v.Matches known v :=
  ⟨fun _ _ => rfl, fun _ _ _ _ => rfl, fun _ _ => rfl⟩

theorem mono (m : v.Matches known w) (h : ∀ a, known' a → known a) : v.Matches known' w :=
  { m with bytes := fun a ha => m.bytes a (h a ha) }

theorem inodeTaken (m : v.Matches known w) : v.inodeTaken = w.inodeTaken :=
  inodeTaken_congr fun a _ ha => m.maps a ha

theorem blockTaken (m : v.Matches known w) : v.blockTaken = w.blockTaken :=
  blockTaken_congr fun a ha => m.maps a (by lia)

theorem inode (m : v.Matches known w) : v.inode = w.inode := by
  funext i
  have ht := congrFun m.inodeTaken i
  rw [Volume.inode, Volume.inode, ← ht]
  split
  case isTrue h  => rw [record_congr (m.records i h)]
  case isFalse h => rfl

theorem bit (m : v.Matches known w) {a i : Nat} (h : a + i / 8 < tableStart) :
    v.bit a i = w.bit a i := by
  rw [Volume.bit, Volume.bit, m.maps _ h]

theorem clearBit? (m : v.Matches known w) {a lo hi : Nat} (h : a + hi / 8 ≤ tableStart)
    (h8 : hi % 8 = 0) : v.clearBit? a lo hi = w.clearBit? a lo hi := by
  have hbit : ∀ i ∈ List.range' lo (hi - lo), (!v.bit a i) = !w.bit a i := by
    intro i hi
    have := List.mem_range'_1.mp hi
    rw [m.bit (by omega)]
  rw [Volume.clearBit?, Volume.clearBit?]
  exact List.find?_congr hbit

theorem usage (m : v.Matches known w) : v.usage = w.usage := by
  have hbits : ∀ a n, a + n / 8 ≤ tableStart → n % 8 = 0 → v.clearBits a n = w.clearBits a n := by
    intro a n h h8
    rw [clearBits, clearBits]
    refine List.countP_congr fun i hi => ?_
    have := List.mem_range.mp hi
    rw [m.bit (by omega)]
  rw [Volume.usage, Volume.usage, freeBlocks, freeBlocks, freeInodes, freeInodes,
    hbits _ _ (by decide) (by decide), hbits _ _ (by decide) (by decide)]

theorem edit {v' w' : Volume} (m : v.Matches known w)
    (h : ∀ a, v.byte a = w.byte a → v'.byte a = w'.byte a) (ht : v'.inodeTaken = v.inodeTaken) :
    v'.Matches known w' where
  maps    := fun a ha => h a (m.maps a ha)
  records := fun i hi k hk => h _ (m.records i (ht ▸ hi) k hk)
  bytes   := fun a ha => h a (m.bytes a ha)

theorem setBlockBit (m : v.Matches known w) {b : Nat} (hb : b < blockCount) (x : Bool) :
    (v.setBit blockMapStart b x).Matches known (w.setBit blockMapStart b x) := by
  refine m.edit (fun a ha => ?_) (inodeTaken_congr fun a _ _ => byte_setBit_of_ne (by lia))
  rw [setBit, setBit, byte_setByte, byte_setByte, ha, m.maps (blockMapStart + b / 8) (by lia)]

theorem writeRecord (m : v.Matches known w) {i : Nat} (c : Inode) :
    (v.write (recordStart i) (Record.ofInode c).bytes).Matches known
      (w.write (recordStart i) (Record.ofInode c).bytes) := by
  refine m.edit (fun a ha => ?_)
    (inodeTaken_congr fun a _ _ => byte_write_of_not (by unfold recordStart; lia))
  rw [byte_write, byte_write, ha]

theorem setInodeBit (m : v.Matches known w) {i : Nat} (hi : i < inodeCount) {x : Bool}
    (hr : x = true → ∀ k < recordSize, v.byte (recordStart i + k) = w.byte (recordStart i + k)) :
    (v.setBit inodeMapStart i x).Matches known (w.setBit inodeMapStart i x) := by
  have h : ∀ a, v.byte a = w.byte a →
      (v.setBit inodeMapStart i x).byte a = (w.setBit inodeMapStart i x).byte a := by
    intro a ha
    rw [setBit, setBit, byte_setByte, byte_setByte, ha, m.maps (inodeMapStart + i / 8) (by lia)]
  refine ⟨fun a ha => h a (m.maps a ha), fun j hj k hk => h _ ?_, fun a ha => h a (m.bytes a ha)⟩
  rw [inodeTaken_setInodeBit v hi, Function.update_apply] at hj
  split at hj
  case isTrue e  => exact e ▸ hr hj k hk
  case isFalse   => exact m.records j hj k hk

end Matches
end Volume

namespace VolumeM

variable {α β : Type} {act : VolumeM α}

-- An action depends on maps and records alone, and brings two volumes nowhere further apart.
def Concurs (act : VolumeM α) : Prop :=
  ∀ (known : Nat → Prop) (v w : Volume), v.Matches known w →
    act.Agrees v w (fun _ x y => x.Matches known y) fun _ x y => x.Matches known y

namespace Concurs

theorem pure (a : α) : Concurs (pure a) :=
  fun _ _ _ m => .ok rfl rfl m

theorem bind {f : α → VolumeM β} (h : act.Concurs) (hf : ∀ a, (f a).Concurs) :
    (act >>= f).Concurs :=
  fun known v w m => .bind ((h known v w m).mono (fun a x y => hf a known x y) fun _ _ _ => id)

theorem attempt (h : act.Concurs) : Concurs (attempt act) := by
  intro known v w m
  refine .attempt ((h known v w m).mono (fun _ _ _ => id) fun e _ _ h => ?_)
  cases e <;> exact h

theorem query {look : Volume → Except Fault α}
    (h : ∀ known v w, v.Matches known w → look v = look w) : Concurs (query look) :=
  fun known v w m => .query (h known v w m) (fun _ _ => m) fun _ _ => m

theorem refuse (e : Errno) : Concurs (refuse e : VolumeM α) :=
  fun _ _ _ m => .error rfl rfl m

theorem crash : Concurs (crash : VolumeM α) :=
  fun _ _ _ m => .error rfl rfl m

theorem change {f : Volume → Volume}
    (h : ∀ known v w, v.Matches known w → (f v).Matches known (f w)) : Concurs (change f) :=
  fun known v w m => .ok rfl rfl (h known v w m)

end Concurs
end VolumeM

open Volume Concurs

namespace Block

theorem alloc_concurs : alloc.Concurs := by
  intro known v w m
  refine .bind (.query (by rw [m.clearBit? (by decide) (by decide)]) ?_ nofun)
  intro found h
  cases found
  case none => exact .error rfl rfl m
  case some b =>
    have ⟨_, hb, _⟩ := clearBit?_eq_some (Except.ok.inj h)
    exact .ok rfl rfl (m.setBlockBit hb true)

theorem free_concurs (block : Nat) : (free block).Concurs := by
  intro known v w m
  refine .bind (.query (by rw [m.blockTaken]) ?_ nofun)
  intro taken h
  split
  case isTrue ht =>
    have hb : block < blockCount := lt_of_blockTaken ((Except.ok.inj h).trans ht.right)
    exact .ok rfl rfl (m.setBlockBit hb false)
  case isFalse => exact .error rfl rfl m

end Block

namespace Inode

theorem put_concurs (i : Nat) (c : Inode) : (put i c).Concurs := by
  rw [put]
  split
  case isTrue  => exact .change fun _ _ _ m => m.writeRecord c
  case isFalse => exact .refuse _

theorem alloc_concurs : alloc.Concurs := by
  intro known v w m
  refine .bind (.query (by rw [m.clearBit? (by decide) (by decide)]) ?_ nofun)
  intro found h
  cases found
  case none => exact .error rfl rfl m
  case some i =>
    have ⟨_, hi, _⟩ := clearBit?_eq_some (Except.ok.inj h)
    simp only [put, if_pos hi]
    -- both records have just been reset
    refine .ok rfl rfl ((m.writeRecord {}).setInodeBit hi fun _ k hk => ?_)
    have hin : recordStart i + k < volumeSize := by unfold recordStart; lia
    rw [byte_write, byte_write, Record.length_bytes, if_pos (by omega), if_pos (by omega)]

theorem free_concurs (i : Nat) : (free i).Concurs := by
  intro known v w m
  refine .bind (.query (by rw [m.inode]) ?_ fun _ _ => m)
  intro c h
  split
  case isTrue =>
    exact .ok rfl rfl (m.setInodeBit (lt_of_link? (inode_eq_ok_iff.mp h)) nofun)
  case isFalse => exact .error rfl rfl m

end Inode

theorem Block.write_agrees {known : Nat → Prop} {v w : Volume} (m : v.Matches known w) {b s : Nat}
    {data : List UInt8} (hb : reservedBlocks ≤ b) (hn : b < blockCount)
    (hs : s + data.length ≤ blockSize) :
    (write b s data).Agrees v w
      (fun _ x y => x.Matches (fun a => known a ∨
        b * blockSize + s ≤ a ∧ a < b * blockSize + s + data.length) y)
      fun _ _ _ => False := by
  have h : ∀ a, v.byte a = w.byte a ∨
        b * blockSize + s ≤ a ∧ a < b * blockSize + s + data.length →
      (v.write (b * blockSize + s) data).byte a = (w.write (b * blockSize + s) data).byte a := by
    intro a ha
    rw [byte_write, byte_write]
    split
    case isTrue  => rfl
    case isFalse => exact ha.resolve_right (by lia)
  rw [write, if_pos ⟨hn, hs⟩]
  refine .ok rfl rfl ⟨fun a ha => h a (.inl (m.maps a ha)), fun i hi k hk => h _ (.inl ?_),
    fun a ha => h a (ha.imp_left (m.bytes a))⟩
  have ht : (v.write (b * blockSize + s) data).inodeTaken = v.inodeTaken :=
    inodeTaken_congr fun a _ _ => byte_write_of_not (by lia)
  exact m.records i (ht ▸ hi) k hk

end InodeVolume
