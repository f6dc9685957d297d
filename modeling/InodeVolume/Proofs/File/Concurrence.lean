import InodeVolume.File.Content
import InodeVolume.File.Shrinkage
import InodeVolume.Proofs.Volume.Agreement

namespace InodeVolume

open VolumeM Volume

namespace Volume.Matches

variable {known : Nat → Prop} {v w : Volume}

theorem isDir (m : v.Matches known w) : v.isDir = w.isDir := by
  funext i
  rw [Volume.isDir, Volume.isDir, m.inode]

theorem chainFrom (m : v.Matches known w) (limit link : Nat) :
    v.chainFrom limit link = w.chainFrom limit link := by
  induction limit generalizing link
  case zero          => rfl
  case succ limit hi => simp only [Volume.chainFrom, m.inode, hi]

theorem chain (m : v.Matches known w) : v.chain = w.chain :=
  funext (m.chainFrom inodeCount)

theorem fileSize (m : v.Matches known w) : v.fileSize = w.fileSize := by
  funext h
  rw [Volume.fileSize, Volume.fileSize, m.chain]

theorem lastLink (m : v.Matches known w) : v.lastLink = w.lastLink := by
  funext h
  rw [Volume.lastLink, Volume.lastLink, m.chain]

theorem blockFrom (m : v.Matches known w) (slot : Fin slotsPerInode) (limit skip link : Nat) :
    v.blockFrom slot limit skip link = w.blockFrom slot limit skip link := by
  induction limit generalizing skip link
  case zero          => rfl
  case succ limit hi => simp only [Volume.blockFrom, m.inode, hi]

theorem pieces (m : v.Matches known w) (head offset len : Nat) :
    v.pieces head offset len = w.pieces head offset len := by
  have hblock : ∀ h n, v.fileBlock h n = w.fileBlock h n := fun h n => m.blockFrom _ _ _ h
  induction len using Nat.strongRecOn generalizing offset
  case ind len hi =>
    rw [Volume.pieces, Volume.pieces, hblock]
    by_cases hz : len = 0
    case pos => rw [if_pos hz, if_pos hz]
    case neg =>
      have hlt : len - min (blockSize - offset % blockSize) len < len := by
        have := Nat.mod_lt offset (show blockSize > 0 by decide)
        omega
      simp only [if_neg hz, hi _ hlt]

end Volume.Matches

namespace File

open Concurs

theorem growFrom_concurs (last : Nat) (inode : Inode) (remaining done : Nat) :
    (growFrom last inode remaining done).Concurs := by
  induction last, inode, remaining, done using growFrom.induct
  case case1 =>
    rw [growFrom, if_pos rfl]
    exact .pure _
  case case2 hz hlim =>
    rw [growFrom, if_neg hz, if_pos hlim]
    exact .crash
  case case3 hz hlim hroom =>
    rw [growFrom, if_neg hz, if_neg hlim, if_pos hroom]
    exact .bind (Inode.put_concurs _ _) fun _ => .pure _
  case case4 hz hlim hroom hslot hi =>
    rw [growFrom, if_neg hz, if_neg hlim, if_neg hroom, if_pos hslot]
    refine .bind Block.alloc_concurs.attempt fun found => ?_
    cases found
    case error e => exact .pure _
    case ok b    => exact .bind (Inode.put_concurs _ _) fun _ => hi b
  case case5 hz hlim hroom hslot hover =>
    rw [growFrom, if_neg hz, if_neg hlim, if_neg hroom, if_neg hslot, if_pos hover]
    exact .crash
  case case6 hz hlim hroom hslot hover _ hi =>
    rw [growFrom, if_neg hz, if_neg hlim, if_neg hroom, if_neg hslot, if_neg hover]
    refine .bind (Inode.put_concurs _ _) fun _ => .bind Inode.alloc_concurs.attempt fun found => ?_
    cases found
    case error e => exact .pure _
    case ok n    => exact .bind (Inode.put_concurs _ _) fun _ => hi n

theorem grow_concurs (h n : Nat) : (grow h n).Concurs := by
  rw [grow]
  split
  case isTrue  => exact .pure _
  case isFalse =>
    refine .bind (Concurs.query fun _ _ _ m => congrFun m.lastLink h).attempt fun found => ?_
    cases found
    case error e => exact .pure _
    case ok x    => exact growFrom_concurs _ _ _ _

theorem freeSlot_concurs (slot : Option Nat) : (freeSlot slot).Concurs := by
  cases slot
  case none   => exact .pure _
  case some b => exact Block.free_concurs b

theorem cutLink_concurs (before : Link) (last : Nat) : (cutLink before last).Concurs :=
  .bind (Inode.put_concurs _ _) fun _ => Inode.free_concurs last

theorem shrinkFrom_concurs (before : List Link) (last : Nat) (inode : Inode) (remaining : Nat) :
    (shrinkFrom before last inode remaining).Concurs := by
  induction before, last, inode, remaining using shrinkFrom.induct
  case case1 =>
    rw [shrinkFrom.eq_def, if_pos rfl]
    exact .pure _
  case case2 hr hz =>
    rw [shrinkFrom.eq_def, if_neg hr, if_pos hz]
    exact .pure _
  case case3 hr hz link before hi =>
    rw [shrinkFrom, if_neg hr, if_pos hz]
    exact .bind (cutLink_concurs _ _) fun _ => hi
  case case4 hr hz hroom =>
    rw [shrinkFrom.eq_def, if_neg hr, if_neg hz, if_pos hroom]
    exact .bind (Inode.put_concurs _ _) fun _ => .pure _
  case case5 before last inode remaining hr hz hroom hslot hi =>
    rw [shrinkFrom.eq_def, if_neg hr, if_neg hz, if_neg hroom, dif_pos hslot]
    refine .bind (freeSlot_concurs _) fun _ => .bind (Inode.put_concurs _ _) fun _ => ?_
    cases before
    case nil => exact hi
    case cons link before =>
      dsimp only
      split
      case isTrue  => exact .bind (cutLink_concurs _ _) fun _ => hi.left
      case isFalse => exact hi.right
  case case6 hr hz hroom hslot =>
    rw [shrinkFrom.eq_def, if_neg hr, if_neg hz, if_neg hroom, dif_neg hslot]
    exact .crash

theorem shrink_concurs (h n : Nat) : (shrink h n).Concurs := by
  rw [shrink]
  split
  case isTrue  => exact .pure _
  case isFalse =>
    exact .bind (.query fun _ _ _ m => congrFun m.lastLink h) fun _ =>
      .bind (shrinkFrom_concurs _ _ _ _) fun _ => .pure _

end File
end InodeVolume
