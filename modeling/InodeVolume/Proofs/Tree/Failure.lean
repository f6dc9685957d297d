import InodeVolume.Proofs.Tree.Hierarchy
import InodeVolume.Proofs.Tree.View

namespace InodeVolume

open VolumeM Volume

variable {strays crooked : Prop} {owed : Nat → Int} {files : Nat → Option FileState}
variable {v w : Volume} {i d q t : Nat} {name newName : String}

namespace Tree

theorem look_free_ensures {α : Type} {look : Volume → Except Fault α}
    (h : look v = .error (.errno .notFound)) :
    (query look).Ensures v (fun _ _ => True) (Refused v) := by
  rw [ensures_query_error h]
  exact ⟨by decide, rfl⟩

theorem access_ensures (hv : v.Holds files) (hi : Addresses v files i) :
    (query (access · i)).Ensures v (fun _ _ => True) (Refused v) := by
  cases hi
  case inl hi =>
    have ⟨f, hf⟩ := hi
    have ⟨c, hc, _⟩ := hv.inode hf
    have hok : access v i = .ok () := by rw [access, hc]; rfl
    rw [ensures_query_ok hok]
    trivial
  case inr hi => exact look_free_ensures (by rw [access, inode_of_not_link? hi]; rfl)

theorem stat_ensures (hv : v.Holds files) (hi : Addresses v files i) :
    (query (stat · i)).Ensures v (fun _ _ => True) (Refused v) := by
  cases hi
  case inl hi =>
    have ⟨f, hf⟩ := hi
    rw [ensures_query_ok (hv.stat hf)]
    trivial
  case inr hi => exact look_free_ensures (by rw [stat, inode_of_not_link? hi]; rfl)

theorem read_eq {f : FileState} (hv : v.Holds files) (hf : files i = some f) (hd : ¬f.isDir)
    (offset len : Nat) :
    read v i offset len = .ok ((f.bytes.drop offset).take len) := by
  rw [read, hv.isDir hf, Bool.eq_false_iff.mpr hd, hv.readFile hf]
  rfl

theorem read_ensures (hv : v.Holds files) (hi : Addresses v files i) (offset len : Nat) :
    (query (read · i offset len)).Ensures v (fun _ _ => True) (Refused v) := by
  cases hi
  case inl hi =>
    have ⟨f, hf⟩ := hi
    by_cases hd : f.isDir
    case pos =>
      have herr : read v i offset len = .error (.errno .isDirectory) := by
        rw [read, hv.isDir hf, hd]
        rfl
      rw [ensures_query_error herr]
      exact ⟨by decide, rfl⟩
    case neg =>
      rw [ensures_query_ok (read_eq hv hf hd offset len)]
      trivial
  case inr hi => exact look_free_ensures (by rw [read, isDir_of_free hi]; rfl)

theorem list_ensures (a : Arranged crooked owed files) (hv : v.Holds files)
    (hi : Addresses v files i) :
    (query (list · i)).Ensures v (fun _ _ => True) (Refused v) := by
  cases hi
  case inl hi =>
    have ⟨f, hf⟩ := hi
    by_cases hd : f.isDir
    case pos =>
      rw [ensures_query_ok (a.list_eq hv hf hd)]
      trivial
    case neg =>
      rw [ensures_query_error (Arranged.list_error hv hf hd)]
      exact ⟨by decide, rfl⟩
  case inr hi => exact look_free_ensures (by rw [list, isDir_of_free hi]; rfl)

namespace Operation

inductive Faults (v : Volume) (files : Nat → Option FileState) : Operation → Fault → Prop
  | ordinary {op : Operation} {e : Fault} : e.Ordinary → Faults v files op e
  | snared {d q t : Nat} {name newName : String} : Snared v files d name q newName t →
    Faults v files (.rename d name q newName) (.errno .io)
  | peopled {d : Nat} {name : String} : Peopled v files d name →
    Faults v files (.rmdir d name) (.errno .notEmpty)
  | excess {node : Node} {size : Nat} {e : Fault} : wordLimit ≤ size →
    Faults v files (.truncate node size) e

-- If it is for want of space that an operation on inodes fails, this file is left with an empty link.
def Strands (v : Volume) (k : Nat) : Operation → Prop
  | .mknod parent _ mode => k = parent ∧ v.Strands parent (firstBlocks mode) 1
  | .link _ parent _ | .rename _ _ parent _ => k = parent ∧ v.Strands parent 0 0
  | .truncate (.inode n) _ | .write (.inode n) _ _ => k = n ∧ v.Strands n 0 0
  | _ => False

def Reclaims (v : Volume) (k : Nat) : Operation → Prop
  | .truncate (.inode n) _ | .write (.inode n) _ _ => k = n ∧ v.freeBlocks ≠ 0
  | _ => False

def Litters (op : Operation) (v : Volume) (e : Fault) (w : Volume) : Prop :=
  ∀ k, w.Trails k ↔ v.Trails k ∧ ¬(e = .errno .noSpace ∧ op.Reclaims v k) ∨
    e = .errno .noSpace ∧ op.Strands v k

theorem Litters.refl {op : Operation} {e : Fault} (he : e ≠ .errno .noSpace) : op.Litters v e v :=
  fun k => by simp [he]

theorem Litters.of_foiled {op : Operation} {e : Fault} {n : Nat} (h : Foiled v n e w)
    (hs : ∀ k, op.Strands v k ↔ k = n ∧ v.Strands n 0 0)
    (hr : ∀ k, op.Reclaims v k ↔ k = n ∧ v.freeBlocks ≠ 0) : op.Litters v e w := by
  rcases h with ⟨he, rfl⟩ | ⟨rfl, hw⟩
  case inl => exact .refl he
  case inr => exact fun k => by simp only [hw k, hs, hr, true_and]

theorem Direct.perform_ensures (s : Settled strays crooked files) (hv : v.Holds files)
    {op : Operation} (hd : op.Direct) (ha : op.Admissible v) :
    op.perform.Ensures v (fun _ _ => True)
      (fun e w => Faults v files op e ∧ w.Holds files ∧ op.Litters v e w) := by
  have ⟨_, a, _⟩ := s
  -- what is refused before anything is written leaves no trace at all
  have refused : ∀ e w, Refused v e w →
      Faults v files op e ∧ w.Holds files ∧ op.Litters v e w := by
    rintro e w ⟨he, rfl⟩
    exact ⟨.ordinary he.ordinary, hv, .refl he.right⟩
  cases op
  case mknodAt | mkdirAt | linkAt | unlinkAt | rmdirAt | renameAt => exact hd.elim
  case usage | sync => trivial
  all_goals rw [perform]
  case access =>
    obtain ⟨n, rfl⟩ := hd
    rw [Node.find, pure_bind, ensures_bind]
    exact (access_ensures hv (hv.addresses ha)).mono (fun _ _ _ => trivial) refused
  case stat =>
    obtain ⟨n, rfl⟩ := hd
    rw [Node.find, pure_bind, ensures_bind]
    exact (stat_ensures hv (hv.addresses ha)).mono (fun _ _ _ => trivial) refused
  case read =>
    obtain ⟨n, rfl⟩ := hd
    rw [Node.find, pure_bind, ensures_bind]
    exact (read_ensures hv (hv.addresses ha) _ _).mono (fun _ _ _ => trivial) refused
  case list =>
    obtain ⟨n, rfl⟩ := hd
    rw [Node.find, pure_bind, ensures_bind]
    exact (list_ensures a hv (hv.addresses ha)).mono (fun _ _ _ => trivial) refused
  case lookup =>
    rw [ensures_bind]
    exact (a.lookup_ensures hv (hv.addresses ha.left) _).mono (fun _ _ _ => trivial) refused
  case reset =>
    rw [ensures_bind]
    exact (reset_ensures v).mono_never fun _ _ _ => trivial
  case mknod =>
    rw [ensures_bind]
    apply (mknod_ensures a hv (hv.addresses ha.left) ha.right).mono (fun _ _ _ => trivial)
    rintro e w ⟨⟨he, hw⟩, ht⟩
    exact ⟨.ordinary he, hw, fun k => by simp [ht, Strands, Reclaims]⟩
  case link =>
    rw [ensures_bind]
    apply (link_ensures s hv (hv.addresses ha.left) (hv.addresses ha.right.left)).mono
      (fun _ _ _ => trivial)
    intro e w h
    refine h.elim (refused e w) fun h => ?_
    obtain ⟨⟨he, hw⟩, f, hr⟩ := h.rejects a hv
    exact ⟨.ordinary he, hw, fun k => by simp [hr.trails_iff, Strands, Reclaims]⟩
  case unlink =>
    rw [ensures_bind]
    exact (unlink_ensures s hv (hv.addresses ha.left)).mono (fun _ _ _ => trivial) refused
  case rmdir =>
    rw [ensures_bind]
    apply (rmdir_ensures s hv (hv.addresses ha.left)).mono (fun _ _ _ => trivial)
    rintro e w ⟨he | ⟨rfl, hp⟩, rfl⟩
    case inl => exact refused _ _ ⟨he, rfl⟩
    case inr => exact ⟨.peopled hp, hv, .refl (by decide)⟩
  case rename =>
    rw [ensures_bind]
    apply (rename_ensures a hv (hv.addresses ha.left) (hv.addresses ha.right.right.left)
      ha.right.right.right).mono (fun _ _ _ => trivial)
    rintro e w (⟨he | ⟨rfl, t, hs⟩, rfl⟩ | ⟨t, h⟩)
    case inl.inl => exact refused _ _ ⟨he, rfl⟩
    case inl.inr => exact ⟨.snared hs, hv, .refl (by decide)⟩
    case inr =>
      obtain ⟨⟨he, hw⟩, f, hr⟩ := h.rejects a hv
      exact ⟨.ordinary he, hw, fun k => by simp [hr.trails_iff, Strands, Reclaims]⟩
  case truncate node size =>
    obtain ⟨n, rfl⟩ := hd
    rw [Node.find, pure_bind, ensures_bind]
    apply (truncate_ensures hv (hv.addresses ha)).mono (fun _ _ _ => trivial)
    rintro e w ⟨he, hw, hf, _⟩
    exact ⟨he.elim .ordinary .excess, hw, .of_foiled hf (fun _ => .rfl) fun _ => .rfl⟩
  case write node offset data =>
    obtain ⟨n, rfl⟩ := hd
    rw [Node.find, pure_bind, ensures_bind]
    apply (write_ensures hv (hv.addresses ha) _).mono (fun _ _ _ => trivial)
    rintro e w ⟨⟨he, hw⟩, hf⟩
    exact ⟨.ordinary he, hw, .of_foiled hf (fun _ => .rfl) fun _ => .rfl⟩
  case chmod =>
    obtain ⟨n, rfl⟩ := hd
    rw [Node.find, pure_bind, ensures_bind]
    exact (chmod_ensures s hv (hv.addresses ha)).mono (fun _ _ _ => trivial) refused

theorem perform_fails (s : Settled strays crooked files) (hv : v.Holds files) {op : Operation}
    (ha : op.Admissible v) {e : Fault} (h : op.perform v = (.error e, w)) :
    w.Holds files ∧
      (e.Ordinary ∨ ∃ op', op.Means v op' ∧ op.Leads v op' ∧ Faults v files op' e) := by
  have ⟨_, a, _⟩ := s
  cases op.means_cases a hv ha
  case inl hm =>
    have ⟨e', he', ho, _⟩ := hm
    obtain ⟨he, rfl⟩ := Prod.mk.inj (h.symm.trans he')
    obtain rfl := Except.error.inj he
    exact ⟨hv, .inl ho⟩
  case inr hm =>
    have ⟨op', hm, hl⟩ := hm
    rw [hm.perform_eq] at h
    have ⟨hf, hw, _⟩ := (hl.direct.perform_ensures s hv hl.admissible).of_error h
    exact ⟨hw, .inr ⟨op', hm, hl, hf⟩⟩

end Operation

-- Nobody can see afterwards that an operation has been tried in vain.
theorem Reachable.unseen_failure (r : Reachable v) {op : Operation} (ha : op.Admissible v)
    {e : Fault} (h : op.perform v = (.error e, w)) :
    (∀ h, w.Head h ↔ v.Head h) ∧ ∀ h, v.Head h → ∃ x, v.view h = .ok x ∧ w.view h = .ok x := by
  have ⟨_, r⟩ := r
  have ⟨files, hv, s⟩ := r.settled
  have ⟨hw, _⟩ := op.perform_fails s hv ha h
  have ⟨_, a, _⟩ := s
  exact a.view_congr hv hw

theorem unseen_failure_long_name :
    let op := Operation.mknod rootInode ("".pushn 'a' 60) 0o100644
    ∃ e w, op.perform fresh = (.error e, w) ∧ (∀ h, w.Head h ↔ fresh.Head h) ∧
      ∀ h, fresh.Head h → ∃ x, fresh.view h = .ok x ∧ w.view h = .ok x := by
  intro op
  have ha : op.Admissible fresh :=
    Operation.admissible_fresh (by decide)
  -- an inode has been taken before the name turns out to be too long
  have hlong : op.perform.Ensures fresh (fun _ _ => False) fun _ _ => True := by
    have ⟨_, a, _⟩ := settled_rootFiles
    rw [Operation.perform, ensures_bind]
    apply (mknod_ensures a holds_fresh (holds_fresh.addresses ha.left) ha.right).mono
    case ho => exact fun _ _ h => absurd h.right.left (by decide)
    case he => exact fun _ _ _ => trivial
  rcases hr : op.perform fresh with ⟨e | _, w⟩
  case ok    => exact (hlong.of_ok hr).elim
  case error => exact ⟨e, w, rfl, Run.start_fresh.reachable.unseen_failure ha hr⟩

end Tree
end InodeVolume
