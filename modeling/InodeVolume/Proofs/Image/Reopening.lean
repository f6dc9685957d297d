import InodeVolume.Proofs.Tree.History

namespace InodeVolume.Image

open VolumeM Volume InodeVolume.Tree

variable {w : Workspace} {n : FileId} {v : Volume} {files : Nat → Option FileState} {f : FileState}

theorem Files.alter_eq {α : Type} (files : Files) (n : FileId) (f : Content → α × Content) :
    files.alter n f = ((f (files.get n)).1, files.set n (f (files.get n)).2 n.isLt) := by
  have hswap : files.swapAt n .empty n.isLt = (files.get n, files.set n .empty n.isLt) := rfl
  have hset : ∀ c d : Content, (files.set n c n.isLt).set n d n.isLt = files.set n d n.isLt := by
    intro c d
    simp
  rw [alter, hswap]
  simp only [hset]

theorem Files.set_get (files : Files) : files.set n (files.get n) n.isLt = files := by
  apply Vector.ext
  intro i hi
  rw [Vector.getElem_set]
  split
  case isTrue h  => subst h; rfl
  case isFalse h => rfl

inductive Step where
  | perform (op : Operation)
  | reopen
  deriving DecidableEq, Repr

def Step.operation? : Step → Option Operation
  | perform op => some op
  | reopen     => none

namespace Workspace

def reopen (w : Workspace) : Outcome Unit × Workspace :=
  w.close.openTree

def session : List Step → Workspace → List (Except Fault Answer) × Workspace
  | [], w                   => ([], w)
  | .reopen :: steps, w     => session steps w.reopen.2
  | .perform op :: steps, w =>
    let (answer, w)  := w.onTree op.perform
    let (answers, w) := session steps w
    (answer :: answers, w)

-- A tree on a file that was missing, or was formatted before, after whatever has been done with it.
inductive Filed : Workspace → Prop
  | missing {w : Workspace} : w.place = .vacant → Filed w.openTree.2
  | formatted {w : Workspace} : w.place = .vacant → Filed w.format.2.openTree.2
  | perform {w : Workspace} {v : Volume} {op : Operation} : Filed w → w.treeVolume? = some v →
    op.Admissible v → Filed (w.onTree op.perform).2
  | reopen {w : Workspace} : Filed w → Filed w.reopen.2

namespace Serves

theorem found (s : w.Serves n v) : w.found = .file { front := v } := by
  rw [Workspace.found, s.place, Place.map, s.holds]

theorem content (s : w.Serves n v) : w.content = v.toArray := by
  rw [Workspace.content, s.found]
  exact Content.bytes_ofVolume v

theorem onTree {α : Type} (s : w.Serves n v) (act : VolumeM α) :
    (w.onTree act).1 = (act v).1 ∧ (w.onTree act).2.Serves n (act v).2 := by
  obtain ⟨files, place, volume, tree⟩ := w
  obtain ⟨rfl, rfl, hc⟩ := s
  simp only at hc
  simp only [Workspace.onTree, Handle.run, Files.alter_eq, hc]
  exact ⟨trivial, rfl, rfl, Files.get_set ..⟩

theorem reopen (s : w.Serves n v) (r : Reachable v) :
    w.reopen.1 = Outcome.done ∧ w.reopen.2.Serves n v := by
  have ⟨_, run⟩ := r
  have ⟨_, hv, _, a, _⟩ := run.settled
  have ⟨_, hf, _⟩ := a.exists_root
  have hroot : withRoot v = (.ok (.ok ()), v) := by rw [withRoot, hv.makeRoot hf]
  have hopen : w.close.found.openVolume = .ok v := by
    rw [show w.close.found = w.found from rfl, s.found, Place.openVolume, hv.reserve]
  have hput : w.close.put { front := v } = w.close := by
    simp [put, close, s.place, Place.file?, ← s.holds, Files.set_get]
  rw [Workspace.reopen, openTree, hopen]
  simp only [hroot, hput]
  refine ⟨rfl, s.place, ?_, s.holds⟩
  rw [handle?, show w.close.place = w.place from rfl, s.place]
  rfl

theorem session (s : w.Serves n v) (r : Reachable v) (steps : List Step)
    (ha : Operation.AllAdmissible (steps.filterMap Step.operation?) v) :
    (session steps w).1 = (Operation.performAll (steps.filterMap Step.operation?) v).1 ∧
      (session steps w).2.Serves n
        (Operation.performAll (steps.filterMap Step.operation?) v).2 := by
  induction steps generalizing w v
  case nil => exact ⟨rfl, s⟩
  case cons step steps hi =>
    cases step
    case reopen => exact hi (s.reopen r).right r ha
    case perform op =>
      have ⟨hanswer, hs⟩ := s.onTree op.perform
      have ⟨hanswers, hend⟩ := hi hs (r.perform ha.left) ha.right
      exact ⟨congrArg₂ List.cons hanswer hanswers, hend⟩

theorem openPrivate (s : w.Serves n v) : w.openPrivate.1 = .ok (.ok v.usage) := by
  rw [Workspace.openPrivate, s.found]
  rfl

end Serves

theorem Filed.serves (f : Filed w) : ∃ n v, w.Serves n v ∧ Reachable v := by
  induction f
  case missing hw =>
    have ⟨n, s⟩ := openTree_serves_fresh hw
    exact ⟨n, _, s, Run.start_fresh.reachable⟩
  case formatted hw =>
    have ⟨n, s⟩ := format_serves_fresh hw
    exact ⟨n, _, s, Run.start_fresh.reachable⟩
  case perform hv ha hi =>
    have ⟨n, v, s, r⟩ := hi
    obtain rfl := Option.some.inj (s.treeVolume?.symm.trans hv)
    exact ⟨n, _, (s.onTree _).right, r.perform ha⟩
  case reopen hi =>
    have ⟨n, v, s, r⟩ := hi
    exact ⟨n, v, (s.reopen r).right, r⟩

-- A tree on a file can be closed and opened again at any time. That leaves every byte of the file
-- as it is, and an operation has the answer that it has if the tree just stays open, however often
-- and wherever it is done. The usage of the volume in the file is that of the tree.
theorem Filed.reopening (f : Filed w) :
    w.reopen.1 = Outcome.done ∧ w.reopen.2.content = w.content ∧
      (∃ u, (w.onTree Operation.usage.perform).1 = .ok (.usage u) ∧
        w.openPrivate.1 = .ok (.ok u)) ∧
      ∀ (ops : List Operation) (steps : List Step),
        (∀ v, w.treeVolume? = some v → Operation.AllAdmissible ops v) →
        steps.filterMap Step.operation? = ops →
        (session steps w).1 = (session (ops.map .perform) w).1 ∧
          (session steps w).2.content = (session (ops.map .perform) w).2.content := by
  have ⟨n, v, s, r⟩ := f.serves
  have ⟨hdone, hs⟩ := s.reopen r
  refine ⟨hdone, hs.content.trans s.content.symm, ⟨v.usage, (s.onTree _).left, s.openPrivate⟩, ?_⟩
  intro ops steps ha hops
  have hv := ha v s.treeVolume?
  have hplain : (ops.map Step.perform).filterMap Step.operation? = ops := by
    rw [List.filterMap_map]
    exact List.filterMap_some
  have ⟨hanswers, hend⟩ := s.session r steps (by rwa [hops])
  have ⟨hanswers', hend'⟩ := s.session r (ops.map .perform) (by rwa [hplain])
  rw [hops] at hanswers hend
  rw [hplain] at hanswers' hend'
  exact ⟨hanswers.trans hanswers'.symm, hend.content.trans hend'.content.symm⟩

theorem reopening_vacant :
    let w := (openTree {}).2
    Filed w ∧ w.reopen.1 = Outcome.done ∧ w.reopen.2.content = w.content ∧
      (∃ u, (w.onTree Operation.usage.perform).1 = .ok (.usage u) ∧
        w.openPrivate.1 = .ok (.ok u)) ∧
      (∀ v, w.treeVolume? = some v → Operation.AllAdmissible [.mkdirAt "/a" 0o755, .list (.path "/")] v) ∧
      (session [.perform (.mkdirAt "/a" 0o755), .reopen, .perform (.list (.path "/"))] w).1 =
        (session [.perform (.mkdirAt "/a" 0o755), .perform (.list (.path "/"))] w).1 := by
  intro w
  have f : Filed w := .missing rfl
  have ha : ∀ v, w.treeVolume? = some v →
      Operation.AllAdmissible [.mkdirAt "/a" 0o755, .list (.path "/")] v := by
    intro v _
    exact ⟨(by decide : Entry.Plain "/a"), (by decide : Entry.Plain "/"), trivial⟩
  have ⟨hdone, hcontent, husage, hsession⟩ := f.reopening
  exact ⟨f, hdone, hcontent, husage, ha, (hsession _ [.perform _, .reopen, .perform _] ha rfl).left⟩

end Workspace
end InodeVolume.Image
