import InodeVolume.Image.Workspace
import InodeVolume.Proofs.Tree.Root

namespace InodeVolume

open VolumeM

namespace Volume

def fresh : Volume :=
  (Tree.makeRoot .blank).2

variable {v : Volume}

theorem makeRoot_blank : Tree.makeRoot .blank = (.ok (), fresh) := by
  have ⟨_, _, h, _⟩ := (Tree.makeRoot_ensures holds_blank).exists_ok
  rw [fresh, h]

theorem holds_fresh : fresh.Holds rootFiles :=
  (Tree.makeRoot_ensures holds_blank).of_ok makeRoot_blank

theorem setByte_byte (v : Volume) (a : Nat) : v.setByte a (v.byte a) = v := by
  ext i _
  rw [byte_setByte]
  split
  case isTrue h => rw [h.left]
  case isFalse  => rfl

theorem setBit_of_bit {a i : Nat} {on : Bool} (h : v.bit a i = on) : v.setBit a i on = v := by
  rw [bit] at h
  rw [setBit, withBit, if_pos h, setByte_byte]

theorem reserve_of_taken (h : ∀ b < reservedBlocks, v.blockTaken b) : v.reserve = v := by
  have hbit : ∀ b < reservedBlocks, v.bit blockMapStart b = true := by
    intro b hb
    have := h b hb
    rw [blockTaken, Bool.and_eq_true] at this
    exact this.right
  rw [Volume.reserve]
  show ((v.setBit blockMapStart 0 true).setBit blockMapStart 1 true).setBit blockMapStart 2 true = _
  rw [setBit_of_bit (hbit 0 (by decide)), setBit_of_bit (hbit 1 (by decide)),
    setBit_of_bit (hbit 2 (by decide))]

theorem Holds.reserve {files : Nat → Option FileState} (hv : v.Holds files) : v.reserve = v :=
  have ⟨_, hs, _⟩ := hv
  reserve_of_taken fun b hb => (hs.taken b).mpr (.inl hb)

theorem makeRoot_of_taken (h : v.inodeTaken rootInode) : Tree.makeRoot v = (.ok (), v) := by
  simp only [Tree.makeRoot, bind_apply, query, h]
  rfl

theorem Holds.makeRoot {files : Nat → Option FileState} {f : FileState} (hv : v.Holds files)
    (hf : files rootInode = some f) : Tree.makeRoot v = (.ok (), v) := by
  refine makeRoot_of_taken ?_
  rw [← isSome_link?]
  exact hv.link?_isSome hf

theorem reserve_fresh : fresh.reserve = fresh :=
  holds_fresh.reserve

theorem makeRoot_fresh : Tree.makeRoot fresh = (.ok (), fresh) :=
  holds_fresh.makeRoot (Function.update_self ..)

end Volume

namespace Image

theorem Files.get_set (files : Files) (n : FileId) (c : Content) :
    (files.set n c n.isLt).get n = c :=
  Vector.getElem_set_self n.isLt

structure Workspace.Serves (w : Workspace) (n : FileId) (v : Volume) : Prop where
  place : w.place = .file n
  tree  : w.tree = some { file := n }
  holds : w.files.get n = { front := v }

namespace Workspace

variable {v : Volume} {w : Workspace} {n : FileId}

def treeVolume? (w : Workspace) : Option Volume :=
  w.tree.map (·.volume w.files)

theorem Serves.treeVolume? (s : w.Serves n v) : w.treeVolume? = some v := by
  rw [Workspace.treeVolume?, s.tree, Option.map_some, Handle.volume, s.holds]

theorem withRoot_blank : withRoot .blank = (.ok (.ok ()), .fresh) := by
  rw [withRoot, Volume.makeRoot_blank]

theorem treeVolume?_openAnonymousTree (w : Workspace) :
    w.openAnonymousTree.2.treeVolume? = some .fresh := by
  rw [openAnonymousTree, withRoot_blank]
  simp [treeVolume?, Handle.volume, Files.get_set]

theorem openTree_serves {u : Volume} (hu : w.found.openVolume = .ok u)
    (hr : withRoot u = (.ok (.ok ()), v)) : ∃ n, w.openTree.2.Serves n v := by
  rw [openTree, hu]
  simp only [hr]
  exact ⟨_, rfl, rfl, Files.get_set ..⟩

theorem openTree_serves_fresh (hw : w.place = .vacant) : ∃ n, w.openTree.2.Serves n .fresh := by
  refine openTree_serves (u := .blank) ?_ withRoot_blank
  rw [found, hw]
  rfl

theorem format_serves_fresh (hw : w.place = .vacant) :
    ∃ n, w.format.2.openTree.2.Serves n .fresh := by
  have hfound : w.found.createVolume = .ok .blank := by
    rw [found, hw]
    rfl
  have hformat : w.format.2 = w.put { front := .fresh } := by
    rw [format, hfound]
    simp only [withRoot_blank]
  refine openTree_serves (u := .fresh) ?_ ?_
  case refine_1 =>
    rw [hformat]
    simp [found, put, Place.map, Place.openVolume, Files.get_set, Volume.reserve_fresh]
  case refine_2 => rw [withRoot, Volume.makeRoot_fresh]

end Workspace
end Image

-- The volume of a tree in its own right, of one in a file that was missing, or of one in an image
-- that was formatted before.
def Volume.Fresh (v : Volume) : Prop :=
  ∃ w : Image.Workspace, w.openAnonymousTree.2.treeVolume? = some v ∨
    w.place = .vacant ∧
      (w.openTree.2.treeVolume? = some v ∨ w.format.2.openTree.2.treeVolume? = some v)

open Image.Workspace in
theorem Volume.fresh_iff {v : Volume} : v.Fresh ↔ v = .fresh := by
  constructor
  case mp =>
    intro ⟨w, h⟩
    rcases h with h | ⟨hw, h | h⟩
    case inl     => exact (Option.some.inj ((treeVolume?_openAnonymousTree w).symm.trans h)).symm
    case inr.inl =>
      have ⟨_, s⟩ := openTree_serves_fresh hw
      exact (Option.some.inj (s.treeVolume?.symm.trans h)).symm
    case inr.inr =>
      have ⟨_, s⟩ := format_serves_fresh hw
      exact (Option.some.inj (s.treeVolume?.symm.trans h)).symm
  case mpr =>
    intro h
    exact ⟨{}, .inl (h ▸ treeVolume?_openAnonymousTree {})⟩

end InodeVolume
