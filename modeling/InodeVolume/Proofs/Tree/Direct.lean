import InodeVolume.Proofs.Tree.Lookup
import InodeVolume.Tree.Operation

namespace InodeVolume

open VolumeM Volume

namespace Tree

def Node.Admissible (v : Volume) : Node → Prop
  | .inode n => ¬v.Continues n
  | .path p  => Entry.Plain p

def Operation.Admissible (v : Volume) : Operation → Prop
  | .access node | .stat node | .read node _ _ | .list node
  | .truncate node _ | .write node _ _ | .chmod node _ => node.Admissible v
  | .lookup parent name | .mknod parent name _
  | .unlink parent name | .rmdir parent name => ¬v.Continues parent ∧ Entry.Plain name
  | .mknodAt path _ | .mkdirAt path _ | .unlinkAt path | .rmdirAt path => Entry.Plain path
  | .link inode newParent newName =>
    ¬v.Continues inode ∧ ¬v.Continues newParent ∧ Entry.Plain newName
  | .rename parent name newParent newName =>
    ¬v.Continues parent ∧ Entry.Plain name ∧ ¬v.Continues newParent ∧ Entry.Plain newName
  | .linkAt path newPath | .renameAt path newPath => Entry.Plain path ∧ Entry.Plain newPath
  | .usage | .sync | .reset => True

-- A file of this kind is made successfully where there is no parent.
def Operation.Plants (op : Operation) (kind : NodeKind) (v : Volume) : Prop :=
  ∃ parent name mode i, op = .mknod parent name mode ∧ NodeKind.ofMode mode = kind ∧
    v.inodeTaken parent = false ∧ (op.perform v).1 = .ok (.inode i)

def Operation.Sized : Operation → Prop
  | .truncate _ size => size < wordLimit
  | _                => True

namespace Operation

def direct : Operation → VolumeM Operation
  | access node => do return access (.inode (← node.find))
  | stat node => do return stat (.inode (← node.find))
  | read node offset len => do return read (.inode (← node.find)) offset len
  | list node => do return list (.inode (← node.find))
  | mknodAt path mode => makeAt path mode
  | mkdirAt path mode => makeAt path (Mode.directory ||| Mode.permissions mode)
  | linkAt path newPath => do
    let inode ← resolve path
    expectAbsent (·.resolve rootInode newPath)
    let (parent, leaf) ← locate newPath
    return link inode parent leaf
  | unlinkAt path => do
    let (parent, leaf) ← locate path
    return unlink parent leaf
  | rmdirAt path => do
    let (parent, leaf) ← locate path
    return rmdir parent leaf
  | renameAt path newPath => do
    let (parent, leaf) ← locate path
    let (newParent, newLeaf) ← locate newPath
    return rename parent leaf newParent newLeaf
  | truncate node size => do return truncate (.inode (← node.find)) size
  | write node offset data => do return write (.inode (← node.find)) offset data
  | chmod node mode => do return chmod (.inode (← node.find)) mode
  | op => return op
where
  makeAt (path : String) (mode : UInt32) : VolumeM Operation := do
    expectAbsent (·.resolve rootInode path)
    let (parent, leaf) ← locate path
    return mknod parent leaf mode

def Direct : Operation → Prop
  | access node | stat node | read node _ _ | list node
  | truncate node _ | write node _ _ | chmod node _ => ∃ n, node = .inode n
  | mknodAt _ _ | mkdirAt _ _ | linkAt _ _ | unlinkAt _ | rmdirAt _ | renameAt _ _ => False
  | _ => True

theorem perform_eq (op : Operation) : op.perform = op.direct >>= perform := by
  cases op
  case access | stat | read | list | truncate | write | chmod =>
    simp only [perform, direct, bind_assoc, pure_bind]
    rfl
  case mknodAt  => simp only [perform, direct, direct.makeAt, Tree.mknodAt, bind_assoc, pure_bind]
  case mkdirAt  =>
    simp only [perform, direct, direct.makeAt, Tree.mkdirAt, Tree.mknodAt, bind_assoc, pure_bind]
  case linkAt   => simp only [perform, direct, Tree.linkAt, bind_assoc, pure_bind]
  case unlinkAt => simp only [perform, direct, Tree.unlinkAt, bind_assoc, pure_bind]
  case rmdirAt  => simp only [perform, direct, Tree.rmdirAt, bind_assoc, pure_bind]
  case renameAt => simp only [perform, direct, Tree.renameAt, bind_assoc, pure_bind]
  all_goals rfl

def Means (op : Operation) (v : Volume) (op' : Operation) : Prop :=
  op.direct v = (.ok op', v)

variable {crooked : Prop} {owed : Nat → Int} {files : Nat → Option FileState}
variable {v : Volume} {op op' : Operation}

theorem Means.perform_eq (h : op.Means v op') : op.perform v = op'.perform v := by
  rw [Operation.perform_eq op, bind_apply, h]

theorem Means.iff_eq (h : op.Means v op') (op'' : Operation) : op.Means v op'' ↔ op'' = op' := by
  rw [Means, h]
  simp [eq_comm]

theorem Direct.means (h : op.Direct) : op.Means v op := by
  cases op
  case access | stat | read | list | truncate | write | chmod =>
    have ⟨n, hn⟩ := h
    subst hn
    rfl
  case mknodAt | mkdirAt | linkAt | unlinkAt | rmdirAt | renameAt => exact h.elim
  all_goals rfl

-- A number is taken as it is, and paths lead to files only.
theorem find_any_ensures (a : Arranged crooked owed files) (hv : v.Holds files) (node : Node) :
    node.find.Ensures v (fun i w => w = v ∧ (node = .inode i ∨ v.Head i)) (Refused v) := by
  cases node
  case inode n => exact ⟨rfl, .inl rfl⟩
  case path p  => exact (a.resolve_ensures hv p).mono_ok fun i w ⟨hw, hi⟩ => ⟨hw, .inr (hv.head_iff.mpr hi)⟩

theorem find_ensures (a : Arranged crooked owed files) (hv : v.Holds files) {node : Node}
    (ha : node.Admissible v) :
    node.find.Ensures v (fun i w => w = v ∧ ¬v.Continues i) (Refused v) := by
  apply (find_any_ensures a hv node).mono_ok
  rintro i w ⟨hw, rfl | hi⟩
  case inl => exact ⟨hw, ha⟩
  case inr => exact ⟨hw, hi.right⟩

-- Paths lead to files only, so nothing can be planted by following them. Nor is anything started over.
structure Leads (op : Operation) (v : Volume) (op' : Operation) : Prop where
  direct     : op'.Direct
  admissible : op'.Admissible v
  plants     : ∀ kind, op'.Plants kind v → op.Plants kind v
  reset      : op' = .reset → op = .reset
  sized      : op.Sized → op'.Sized

theorem Leads.of_ne (hd : op'.Direct) (ha : op'.Admissible v)
    (hn : ∀ parent name mode, op' ≠ .mknod parent name mode) (hr : op' ≠ .reset)
    (hs : op.Sized → op'.Sized) : op.Leads v op' :=
  ⟨hd, ha, fun _ ⟨_, _, _, _, h, _⟩ => absurd h (hn _ _ _), fun h => absurd h hr, hs⟩

theorem makeAt_ensures (a : Arranged crooked owed files) (hv : v.Holds files) {path : String}
    (hp : Entry.Plain path) (mode : UInt32) :
    (direct.makeAt path mode).Ensures v (fun op' w => w = v ∧ op.Leads v op') (Refused v) := by
  rw [direct.makeAt, ensures_bind]
  apply (a.unresolved_ensures hv path).mono_ok
  intro _ u hu
  subst hu
  rw [ensures_bind]
  apply (a.locate_ensures hv hp).mono_ok
  intro (parent, leaf) w ⟨hw, hleaf, f, hf, _⟩
  have hh := hv.head_iff.mpr ⟨f, hf⟩
  refine ⟨hw, trivial, ⟨hh.right, hleaf⟩, fun _ ⟨_, _, _, _, h, _, ht, _⟩ => ?_, nofun, fun _ => trivial⟩
  obtain ⟨rfl, _⟩ := Operation.mknod.inj h
  simp [hh.left] at ht

theorem direct_ensures (a : Arranged crooked owed files) (hv : v.Holds files)
    (ha : op.Admissible v) :
    op.direct.Ensures v (fun op' w => w = v ∧ op.Leads v op') (Refused v) := by
  cases op
  case access | stat | read | list | truncate | write | chmod =>
    rw [direct, ensures_bind]
    apply (find_ensures a hv ha).mono_ok
    exact fun i w ⟨hw, hi⟩ => ⟨hw, .of_ne ⟨i, rfl⟩ hi nofun nofun id⟩
  case mknodAt => exact makeAt_ensures a hv ha _
  case mkdirAt => exact makeAt_ensures a hv ha _
  case linkAt path newPath =>
    rw [direct, ensures_bind]
    apply (a.resolve_ensures hv path).mono_ok
    intro i u ⟨hu, hi⟩
    subst hu
    rw [ensures_bind]
    apply (a.unresolved_ensures hv newPath).mono_ok
    intro _ u' hu
    subst hu
    rw [ensures_bind]
    apply (a.locate_ensures hv ha.right).mono_ok
    intro (parent, leaf) w ⟨hw, hleaf, f, hf, _⟩
    have hi := (hv.head_iff.mpr hi).right
    have hp := (hv.head_iff.mpr ⟨f, hf⟩).right
    exact ⟨hw, .of_ne trivial ⟨hi, hp, hleaf⟩ nofun nofun id⟩
  case unlinkAt | rmdirAt =>
    rw [direct, ensures_bind]
    apply (a.locate_ensures hv ha).mono_ok
    intro (parent, leaf) w ⟨hw, hleaf, f, hf, _⟩
    have hp := (hv.head_iff.mpr ⟨f, hf⟩).right
    exact ⟨hw, .of_ne trivial ⟨hp, hleaf⟩ nofun nofun id⟩
  case renameAt path newPath =>
    rw [direct, ensures_bind]
    apply (a.locate_ensures hv ha.left).mono_ok
    intro (parent, leaf) u ⟨hu, hleaf, f, hf, _⟩
    subst hu
    dsimp only
    rw [ensures_bind]
    apply (a.locate_ensures hv ha.right).mono_ok
    intro (newParent, newLeaf) w ⟨hw, hnew, g, hg, _⟩
    have hp := (hv.head_iff.mpr ⟨f, hf⟩).right
    have hq := (hv.head_iff.mpr ⟨g, hg⟩).right
    exact ⟨hw, .of_ne trivial ⟨hp, hleaf, hq, hnew⟩ nofun nofun id⟩
  -- no path is to be followed
  all_goals exact ⟨rfl, trivial, ha, fun _ => id, id, id⟩

theorem means_cases (a : Arranged crooked owed files) (hv : v.Holds files) (ha : op.Admissible v) :
    (∃ e, op.perform v = (.error e, v) ∧ e.Ordinary ∧ ∀ op', ¬op.Means v op') ∨
      ∃ op', op.Means v op' ∧ op.Leads v op' := by
  have h := direct_ensures a hv ha
  rcases hr : op.direct v with ⟨e | op', w⟩
  case error =>
    have ⟨he, hw⟩ := h.of_error hr
    subst hw
    refine .inl ⟨e, ?_, he.ordinary, fun op' h => by simp [Means, hr] at h⟩
    rw [perform_eq op, bind_apply, hr]
  case ok =>
    have ⟨hw, hl⟩ := h.of_ok hr
    subst hw
    exact .inr ⟨op', hr, hl⟩

end Operation
end Tree
end InodeVolume
