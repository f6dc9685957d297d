import InodeVolume.Proofs.Tree.Creation
import InodeVolume.Proofs.Tree.Direct
import InodeVolume.Proofs.Tree.Removal
import InodeVolume.Proofs.Tree.Renaming
import InodeVolume.Proofs.Tree.Resizing
import InodeVolume.Proofs.Tree.Root

namespace InodeVolume

open VolumeM Volume

namespace Tree

variable {strays crooked : Prop} {files : Nat → Option FileState} {v : Volume}

theorem reset_evolves (s : Settled strays crooked files) (hv : v.Holds files) :
    reset.Ensures v (fun _ w => Evolves strays crooked files v w) Never := by
  have ⟨_, a, _⟩ := s
  have ⟨r, hr, _⟩ := a.exists_root
  apply (reset_ensures v).mono_ok
  intro _ w hw
  exact ⟨rootFiles, hw, settled_rootFiles.mono False.elim False.elim,
    .inr (recedes_rootFiles hw (hv.link?_isSome hr))⟩

-- Whether an operation succeeds or not, what it leaves behind is as settled as what it has found,
-- unless it plants something.
theorem Operation.Direct.perform_evolves (s : Settled strays crooked files) (hv : v.Holds files)
    {op : Operation} (hd : op.Direct) (ha : op.Admissible v) :
    Evolves (strays ∨ op.Plants .regular v) (crooked ∨ op.Plants .directory v) files v
      (op.perform v).2 := by
  have same : ∀ w, w = v → Evolves strays crooked files v w := fun w hw => s.evolves (hw ▸ hv)
  have refused : ∀ e w, Directory.Refuses files e w → Evolves strays crooked files v w :=
    fun e w ⟨_, hw⟩ => s.evolves hw
  have kept : ∀ (e : Fault) w, w.Holds files → Evolves strays crooked files v w :=
    fun _ _ => s.evolves
  -- all operations but one plant nothing
  have plain : op.perform.Ensures v (fun _ w => Evolves strays crooked files v w)
      (fun _ w => Evolves strays crooked files v w) → Evolves (strays ∨ op.Plants .regular v)
        (crooked ∨ op.Plants .directory v) files v (op.perform v).2 := by
    intro h
    exact (h.volume (fun _ _ => id) fun _ _ => id).mono .inl .inl
  cases op
  case mknodAt | mkdirAt | linkAt | unlinkAt | rmdirAt | renameAt => exact hd.elim
  case mknod parent name mode =>
    have hp := hv.addresses ha.left
    have h : (perform (.mknod parent name mode)).Ensures v
        (fun r w => (∃ i, r = .inode i) ∧
          Evolves (strays ∨ files parent = none ∧ NodeKind.ofMode mode = .regular)
            (crooked ∨ files parent = none ∧ NodeKind.ofMode mode = .directory) files v w)
        (Directory.Refuses files) := by
      rw [perform, ensures_bind]
      exact (mknod_evolves s hv hp ha.right).mono_ok fun i w h => ⟨⟨i, rfl⟩, h⟩
    apply h.with_result.volume
    case he => exact fun e w he => (s.evolves he.right.right).mono .inl .inl
    rintro r w ⟨hr, ⟨i, hi⟩, hw⟩
    have plants : ∀ kind, files parent = none ∧ NodeKind.ofMode mode = kind →
        Operation.Plants (.mknod parent name mode) kind v := by
      rintro kind ⟨hn, hk⟩
      have hfree := hp.resolve_left (by simp [hn])
      refine ⟨parent, name, mode, i, rfl, hk, ?_, by rw [hr, hi]⟩
      rw [← isSome_link?, hfree, Option.isSome_none]
    exact hw.mono (Or.imp_right (plants _)) (Or.imp_right (plants _))
  all_goals
    apply plain
    rw [perform]
  case access | stat | read | list =>
    obtain ⟨n, rfl⟩ := hd
    rw [Node.find, pure_bind, ensures_bind]
    exact (query_ensures _ _).mono (fun _ => same) fun _ => same
  case lookup | usage =>
    rw [ensures_bind]
    exact (query_ensures _ _).mono (fun _ => same) fun _ => same
  case sync => exact same v rfl
  case reset =>
    rw [ensures_bind]
    exact (reset_evolves s hv).mono_never fun _ _ h => h
  case link =>
    rw [ensures_bind]
    exact (link_evolves s hv (hv.addresses ha.left) (hv.addresses ha.right.left) ha.right.right).mono
      (fun _ _ h => h) refused
  case unlink =>
    rw [ensures_bind]
    exact (unlink_evolves s hv (hv.addresses ha.left)).mono (fun _ _ h => h) refused
  case rmdir =>
    rw [ensures_bind]
    exact (rmdir_evolves s hv (hv.addresses ha.left)).mono (fun _ _ h => h) kept
  case rename =>
    rw [ensures_bind]
    exact (rename_evolves s hv (hv.addresses ha.left) (hv.addresses ha.right.right.left)
      ha.right.right.right).mono (fun _ _ h => h) kept
  case truncate =>
    obtain ⟨n, rfl⟩ := hd
    rw [Node.find, pure_bind, ensures_bind]
    exact (truncate_evolves s hv (hv.addresses ha)).mono (fun _ _ h => h) kept
  case write =>
    obtain ⟨n, rfl⟩ := hd
    rw [Node.find, pure_bind, ensures_bind]
    exact (write_evolves s hv (hv.addresses ha) _).mono (fun _ _ h => h) refused
  case chmod =>
    obtain ⟨n, rfl⟩ := hd
    rw [Node.find, pure_bind, ensures_bind]
    exact (chmod_evolves s hv (hv.addresses ha)).mono (fun _ _ h => h) refused

theorem Operation.perform_evolves (s : Settled strays crooked files) (hv : v.Holds files)
    {op : Operation} (ha : op.Admissible v) :
    Evolves (strays ∨ op.Plants .regular v) (crooked ∨ op.Plants .directory v) files v
      (op.perform v).2 := by
  have ⟨_, a, _⟩ := s
  cases op.means_cases a hv ha
  case inl h =>
    have ⟨e, he, _⟩ := h
    rw [he]
    exact (s.evolves hv).mono .inl .inl
  case inr h =>
    have ⟨op', hm, hl⟩ := h
    rw [hm.perform_eq]
    exact (hl.direct.perform_evolves s hv hl.admissible).mono (.imp_right (hl.plants _))
      (.imp_right (hl.plants _))

end Tree
end InodeVolume
