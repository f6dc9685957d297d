import InodeVolume.Proofs.File.Heads
import InodeVolume.Proofs.Tree.Discretion
import InodeVolume.Proofs.Tree.History

namespace InodeVolume

open Volume

namespace Volume

def Places (v : Volume) (h p a : Nat) : Prop :=
  ∃ n b, v.fileSize h = .ok n ∧ p < n ∧ v.fileBlock h (p / blockSize) = .ok (some b) ∧
    a = b * blockSize + p % blockSize

-- The volumes have the same maps, the same records of all inodes that are taken, and the same bytes in
-- all their files.
structure Indistinct (v w : Volume) : Prop where
  maps    : ∀ a < tableStart, v.byte a = w.byte a
  records : ∀ i, v.inodeTaken i → ∀ k < recordSize,
    v.byte (recordStart i + k) = w.byte (recordStart i + k)
  content : ∀ h p a, v.Head h → v.Places h p a → v.byte a = w.byte a

variable {v w : Volume} {files : Nat → Option FileState} {a : Nat}

theorem Holds.live_iff (hv : v.Holds files) : v.Live a ↔ ∃ h p, v.Head h ∧ v.Places h p a := by
  have ⟨chains, hs, _⟩ := hv
  constructor
  case mp =>
    intro ⟨i, c, q, hc, hq, he⟩
    have ⟨h, hm⟩ := (hs.links i c).mp hc
    have hne : chains h ≠ [] := List.ne_nil_of_mem hm
    have ⟨p, hp, hpa⟩ := Chain.exists_address (hs.leads h hne) (hs.formed h) hm hq
    have ⟨b, hb, _, ha⟩ := hs.block_of_lt hp
    refine ⟨h, p, hs.head_iff.mpr hne, _, b, fileSize_eq hs hne, hp, ?_, ?_⟩
    case refine_1 => rw [fileBlock_eq hs hne, hb]
    case refine_2 => rw [← he, ← hpa, ha]
  case mpr =>
    intro ⟨h, p, hh, n, b, hn, hp, hb, ha⟩
    have hne := hs.head_iff.mp hh
    rw [fileSize_eq hs hne] at hn
    rw [fileBlock_eq hs hne] at hb
    have hp : p < (chains h).size := Except.ok.inj hn ▸ hp
    have ⟨i, c, q, hm, hq, he⟩ := Chain.exists_link (hs.leads h hne) (hs.formed h) hp
    have ⟨b', hb', _, ha'⟩ := hs.block_of_lt hp
    obtain rfl := Option.some.inj (hb'.symm.trans (Except.ok.inj hb))
    exact ⟨i, c, q, hs.link hm, hq, by rw [he, ha', ha]⟩

end Volume

namespace Tree

variable {v w : Volume} {op : Operation}

theorem Reachable.rooted (r : Reachable v) : v.Rooted := by
  have ⟨_, run⟩ := r
  have ⟨_, hv, _, a, _⟩ := run.settled
  have ⟨f, hf, hd⟩ := a.exists_root
  refine hv.rooted hf fun hb => ?_
  have hlen := (a.lists hf hd).length
  have hfirst := ((a.legal rootInode f hf).directory hd).first
  rw [hb, List.length_nil] at hlen
  have hnil : f.entries = [] := List.length_eq_zero_iff.mp (by lia)
  simp [hnil] at hfirst

theorem Reachable.tended (r : Reachable v) : v.Tended rootBlock := by
  have ⟨_, run⟩ := r
  induction run
  case start hv =>
    obtain rfl := fresh_iff.mp hv
    exact alike_fresh.tended
  case step v op run ha hi =>
    have a : v.Alike rootBlock v := .refl (hi run.reachable)
    have h := op.perform_discreet v v a fun _ => run.reachable.rooted
    exact (h.volumes (fun _ _ _ h => h.left) fun _ _ _ h => h).tended

theorem Reachable.indistinct_iff (r : Reachable v) : v.Indistinct w ↔ v.Alike rootBlock w := by
  have ⟨_, run⟩ := r
  have ⟨_, hv, _⟩ := run.settled
  constructor
  case mp =>
    intro i
    refine ⟨⟨i.maps, i.records, fun a ha => ?_⟩, r.tended⟩
    have ⟨h, p, hh, hp⟩ := hv.live_iff.mp ha
    exact i.content h p a hh hp
  case mpr =>
    intro a
    exact ⟨a.same.maps, a.same.records,
      fun h p b hh hp => a.same.bytes b (hv.live_iff.mpr ⟨h, p, hh, hp⟩)⟩

theorem Reachable.perform_indistinct (r : Reachable v) (i : v.Indistinct w) (ha : op.Admissible v) :
    (op.perform v).1 = (op.perform w).1 ∧ (op.perform v).2.Indistinct (op.perform w).2 := by
  have h := op.perform_discreet v w (r.indistinct_iff.mp i) fun _ => r.rooted
  exact ⟨h.result, (r.perform ha).indistinct_iff.mpr (h.volumes (fun _ _ _ h => h.left) fun _ _ _ h => h)⟩

-- All along a run the answers are the same, and so is all that there is to be seen at its end.
theorem Reachable.secrecy {ops : List Operation} (r : Reachable v) (i : v.Indistinct w)
    (ha : Operation.AllAdmissible ops v) :
    (Operation.performAll ops v).1 = (Operation.performAll ops w).1 ∧
      (Operation.performAll ops v).2.Indistinct (Operation.performAll ops w).2 := by
  induction ops generalizing v w
  case nil => exact ⟨rfl, i⟩
  case cons op ops hi =>
    have ⟨ha, hall⟩ := ha
    have ⟨hanswer, hstep⟩ := r.perform_indistinct i ha
    have ⟨hanswers, hend⟩ := hi (r.perform ha) hstep hall
    simp only [Operation.performAll]
    exact ⟨by rw [hanswer, hanswers], hend⟩

theorem secrecy_spare_byte :
    let v := fresh
    let w := v.setByte metadataSize (v.byte metadataSize + 1)
    let ops : List Operation := [.mkdirAt "/a" 0o755, .mknodAt "/b" 0o644,
      .write (.path "/b") 0 [1, 2, 3], .truncate (.path "/b") 5000, .read (.path "/b") 0 5000,
      .unlinkAt "/b", .list (.path "/"), .usage]
    (v.byte metadataSize ≠ w.byte metadataSize ∧ Reachable v ∧ v.Indistinct w ∧
      Operation.AllAdmissible ops v) ∧
      (Operation.performAll ops v).1 = (Operation.performAll ops w).1 ∧
        (Operation.performAll ops v).2.Indistinct (Operation.performAll ops w).2 := by
  intro v w ops
  have hbyte : ∀ a, a ≠ metadataSize → v.byte a = w.byte a := by
    intro a ha
    rw [byte_setByte, if_neg (by simp [ha])]
  have hne : v.byte metadataSize ≠ w.byte metadataSize := by
    rw [byte_setByte, if_pos (by decide)]
    simp
  have r : Reachable v := Run.start_fresh.reachable
  have hi : v.Indistinct w := by
    refine ⟨fun a ha => hbyte a (by lia), fun i hi k hk => hbyte _ ?_, fun h p a hh hp => hbyte a ?_⟩
    case refine_1 =>
      rw [inodeTaken, Bool.and_eq_true, decide_eq_true_eq] at hi
      unfold recordStart
      lia
    case refine_2 =>
      have := (holds_fresh.live_iff.mpr ⟨h, p, hh, hp⟩).dataStart_le r.tended
      lia
  have hb : Entry.Plain "/b" := by decide
  have ha : Operation.AllAdmissible ops v :=
    ⟨show Entry.Plain "/a" by decide, hb, hb, hb, hb, hb, show Entry.Plain "/" by decide, trivial,
      trivial⟩
  exact ⟨⟨hne, r, hi, ha⟩, r.secrecy hi ha⟩

end Tree
end InodeVolume
