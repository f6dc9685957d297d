import InodeVolume.Kernel.Request
import InodeVolume.Proofs.Tree.Addressing
import InodeVolume.Proofs.Tree.Faults
import InodeVolume.Proofs.Tree.Space

namespace InodeVolume

open VolumeM Volume

namespace Kernel

open InodeVolume.Tree

variable {v : Volume} {files : Nat → Option FileState} {i n : Nat} {r : Request}

namespace Request

def addressee? : Request → Option Nat
  | access id | getattr id | setattr id _ _ | read id _ _ | write id _ _ | link id _ _ => some id
  | _                                                                                 => none

def Malformed : Request → Prop
  | read _ offset _ | write _ offset _ => offset < 0
  | link _ _ newName                   =>
    ∀ name, Utf8.decode? newName = some name → name = "" ∨ ¬Proper name
  | _                                  => False

def Refused (r : Request) (v : Volume) : Prop :=
  r.serve v = (.error (.errno .notFound), v) ∨
    r.Malformed ∧ r.serve v = (.error (.errno .invalid), v)

theorem refused_of_inodeOf (ha : r.addressee? = some n) (hn : inodeOf n = refuse .notFound) :
    r.Refused v := by
  cases r
  case access | getattr | setattr | read | write | link =>
    obtain rfl := Option.some.inj ha
    refine .inl ?_
    rw [serve, hn]
    rfl
  all_goals simp [addressee?] at ha

theorem attributes_of_free (hn : v.link? i = none) :
    (attributes i).Ensures v (fun _ _ => False) fun e w => e = .errno .notFound ∧ w = v := by
  have hstat : Tree.stat v i = .error (.errno .notFound) := by
    rw [Tree.stat, inode_of_not_link? hn]
    rfl
  rw [attributes, ensures_bind, ensures_query_error hstat]
  exact ⟨rfl, rfl⟩

section

variable (hi : inodeOf (nodeId i) = return i) (hn : v.link? i = none)

include hi hn

theorem refused_setattr (size : Option Nat) (mode : Option UInt32) :
    (setattr (nodeId i) size mode).Refused v := by
  refine .inl (Ensures.eq_error ?_)
  rw [serve, hi, pure_bind, ensures_bind]
  cases size
  case some size =>
    rw [resize, Tree.truncate, ensures_bind, ensures_query_error (isDir_of_free hn)]
    exact ⟨rfl, rfl⟩
  case none =>
    rw [resize, ensures_pure, ensures_bind]
    cases mode
    case some mode =>
      rw [setMode, Tree.chmod, ensures_bind, ensures_query_error (inode_of_not_link? hn)]
      exact ⟨rfl, rfl⟩
    case none =>
      rw [setMode, ensures_pure, ensures_bind]
      exact (attributes_of_free hn).mono_ok fun _ _ => False.elim

-- The name is looked at before the file is, but after the directory.
theorem refused_link (newParent : Nat) (newName : Name) :
    (link (nodeId i) newParent newName).Refused v := by
  rw [Refused, serve, hi, pure_bind]
  by_cases hp : 1 ≤ newParent ∧ newParent ≤ 0x100000000
  case neg =>
    refine .inl ?_
    rw [inodeOf, if_neg hp]
    rfl
  rw [inodeOf, if_pos hp, pure_bind, nameOf]
  cases hdecode : Utf8.decode? newName
  case none   => exact .inr ⟨by simp [Malformed, hdecode], rfl⟩
  case some name =>
    dsimp only
    rw [pure_bind]
    by_cases hname : name ≠ "" ∧ Proper name
    case pos =>
      refine .inl (Ensures.eq_error ?_)
      rw [ensures_bind, Tree.link, ensures_bind, ensures_guardName hname, ensures_bind,
        ensures_query_error (isDir_of_free hn)]
      exact ⟨rfl, rfl⟩
    case neg =>
      have hreserved : name = "" ∨ ¬Proper name := by
        by_cases h0 : name = ""
        case pos => exact .inl h0
        case neg => exact .inr fun h => hname ⟨h0, h⟩
      have hguard : name = "" ∨ name = "." ∨ name = ".." :=
        hreserved.imp_right fun h => by simpa [Proper, or_iff_not_imp_left] using h
      refine .inr ⟨by simpa [Malformed, hdecode] using hreserved, Ensures.eq_error ?_⟩
      rw [ensures_bind, Tree.link, ensures_bind, guardName, if_pos hguard]
      exact ⟨rfl, rfl⟩

theorem refused_of_free (ha : r.addressee? = some (nodeId i)) : r.Refused v := by
  have hdir := isDir_of_free hn
  cases r
  case access =>
    obtain rfl := Option.some.inj ha
    have haccess : Tree.access v i = .error (.errno .notFound) := by
      rw [Tree.access, inode_of_not_link? hn]
      rfl
    refine .inl (Ensures.eq_error ?_)
    rw [serve, hi, pure_bind, ensures_bind, ensures_query_error haccess]
    exact ⟨rfl, rfl⟩
  case getattr =>
    obtain rfl := Option.some.inj ha
    refine .inl (Ensures.eq_error ?_)
    rw [serve, hi, pure_bind, ensures_bind]
    exact (attributes_of_free hn).mono_ok fun _ _ => False.elim
  case setattr id size mode =>
    obtain rfl := Option.some.inj ha
    exact refused_setattr hi hn size mode
  case read id offset size =>
    obtain rfl := Option.some.inj ha
    by_cases ho : offset < 0
    case pos =>
      refine .inr ⟨ho, ?_⟩
      rw [serve, hi, offsetOf, if_pos ho]
      rfl
    case neg =>
      have hread : Tree.read v i offset.toNat size = .error (.errno .notFound) := by
        rw [Tree.read, hdir]
        rfl
      refine .inl (Ensures.eq_error ?_)
      rw [serve, hi, pure_bind, offsetOf, if_neg ho, pure_bind, ensures_bind,
        ensures_query_error hread]
      exact ⟨rfl, rfl⟩
  case write id offset data =>
    obtain rfl := Option.some.inj ha
    by_cases ho : offset < 0
    case pos =>
      refine .inr ⟨ho, ?_⟩
      rw [serve, hi, offsetOf, if_pos ho]
      rfl
    case neg =>
      refine .inl (Ensures.eq_error ?_)
      rw [serve, hi, pure_bind, offsetOf, if_neg ho, pure_bind, ensures_bind, Tree.write,
        ensures_bind, ensures_query_error hdir]
      exact ⟨rfl, rfl⟩
  case link id newParent newName =>
    obtain rfl := Option.some.inj ha
    exact refused_link hi hn newParent newName
  -- the others have no such number
  all_goals simp [addressee?] at ha

end

end Request

-- No request about a node is served under this number, unless it is that of the root or of what some
-- used entry names.
def Guarded (v : Volume) (n : Nat) : Prop :=
  ∀ r : Request, r.addressee? = some n → (¬∃ i, n = nodeId i ∧ v.Known i) → r.Refused v

theorem inodeOf_cases (n : Nat) :
    inodeOf n = refuse .notFound ∨ ∃ i, n = nodeId i ∧ inodeOf n = return i := by
  by_cases hn : 1 ≤ n ∧ n ≤ 0x100000000
  case pos => exact .inr ⟨n - 1, by rw [nodeId]; omega, if_pos hn⟩
  case neg => exact .inl (if_neg hn)

theorem guarded (hv : v.Holds files) (s : Settled False False files)
    (hc : ∀ i, n = nodeId i → ¬v.Continues i) : Guarded v n := by
  intro r ha hn
  rcases inodeOf_cases n with hi | ⟨i, rfl, hi⟩
  case inl => exact r.refused_of_inodeOf ha hi
  case inr =>
    refine r.refused_of_free hi ?_ ha
    by_contra hl
    have ht : v.inodeTaken i := by rw [← isSome_link?, Option.isSome_iff_ne_none]; exact hl
    cases s.known_or_continues hv ht
    case inl hk => exact hn ⟨i, rfl, hk⟩
    case inr hk => exact hc i rfl hk

theorem serve_continues (hv : v.Holds files) (hc : v.Continues i) :
    (∃ a, Request.serve (.getattr (nodeId i)) v = (.ok (.attributes a), v)) ∧
      Request.serve (.access (nodeId i)) v = (.ok .done, v) := by
  have ⟨c, l, hw⟩ := hv.walks_of_continues hc
  have hl := hw.links i c List.mem_cons_self
  have hi : inodeOf (nodeId i) = return i := if_pos (by have := lt_of_link? hl; rw [nodeId]; lia)
  have haccess : Tree.access v i = .ok () := by
    rw [Tree.access, inode_of_link? hl]
    rfl
  constructor
  case left =>
    rw [Request.serve, hi, pure_bind, attributes]
    simp only [bind_apply, query, stat_of_walks hw, pure_apply]
    exact ⟨_, rfl⟩
  case right =>
    rw [Request.serve, hi, pure_bind]
    simp only [bind_apply, query, haccess, pure_apply]

theorem not_guarded (hv : v.Holds files) (s : Settled False False files) (hc : v.Continues i) :
    ¬Guarded v (nodeId i) := by
  intro hg
  have ⟨⟨a, ha⟩, _⟩ := serve_continues hv hc
  have hn : ¬∃ j, nodeId i = nodeId j ∧ v.Known j := by
    intro ⟨j, he, hk⟩
    obtain rfl : i = j := Nat.succ.inj he
    exact s.not_known_of_continues hv hc hk
  cases hg (.getattr (nodeId i)) rfl hn
  case inl hr => rw [ha] at hr; simp at hr
  case inr hr => exact hr.left

end Kernel

namespace Tree

variable {v : Volume} {steps : List (Volume × Operation)}

open Kernel

-- Where all that is ever addressed by number are files, no request is served under the number of
-- anything but the root and what has a name, and none that is not served changes anything, unless
-- it is the number of a link that continues a file. Such a link has no name, but it is accessed and
-- has attributes like a file.
theorem Run.guarded_iff (r : Run steps v) (ho : ∀ s ∈ steps, s.2.OnFiles s.1) (n : Nat) :
    (Guarded v n ↔ ∀ i, n = nodeId i → ¬v.Continues i) ∧
      ∀ i, v.Continues i → ¬v.Known i ∧
        (∃ a, Request.serve (.getattr (nodeId i)) v = (.ok (.attributes a), v)) ∧
        Request.serve (.access (nodeId i)) v = (.ok .done, v) := by
  have ⟨files, hv, s⟩ := r.settled_of_onFiles ho
  refine ⟨⟨fun hg i hi hc => ?_, guarded hv s⟩, fun i hc => ?_⟩
  case refine_1 => exact not_guarded hv s hc (hi ▸ hg)
  case refine_2 => exact ⟨s.not_known_of_continues hv hc, serve_continues hv hc⟩

theorem run_truncate :
    let v := ((Operation.mknod rootInode "a" 0o100644).perform fresh).2
    let w := ((Operation.truncate (.inode 1) 20000).perform v).2
    let steps := [(fresh, Operation.mknod rootInode "a" 0o100644),
      (v, Operation.truncate (.inode 1) 20000)]
    Run steps w ∧ (∀ s ∈ steps, s.2.OnFiles s.1) ∧ ∃ i, w.Continues i := by
  intro v w steps
  have hm : (Operation.mknod rootInode "a" 0o100644).Admissible fresh :=
    Operation.admissible_fresh (by decide)
  have ⟨_, hv⟩ := mknod_fresh (show Proper "a" by decide) (by decide) (by decide)
    (show NodeKind.ofMode 0o100644 = .regular by decide)
  have hroot : fresh.Head rootInode := holds_fresh.head_root
  have hone : v.Head 1 := hv.head_iff.mpr ⟨_, Function.update_self ..⟩
  have hroom : blocksFor 20000 + 1 + reservedBlocks ≤ blockCount := by decide
  have ⟨_, hw⟩ : ¬w.Trails 1 ∧ w.Holds _ := fill_sole hv (by lia) hroom
  refine ⟨(Run.fresh hm).step hone.right, ?_, ?_⟩
  case refine_1 =>
    simp [steps, Operation.OnFiles, Operation.numbers, Node.numbers, hroot, hone]
  case refine_2 =>
    refine hw.exists_continues (Function.update_self ..) ?_
    show inodeCapacity < (List.replicate 20000 (0 : UInt8)).length
    rw [List.length_replicate]
    decide

theorem guarded_truncate :
    let v := ((Operation.mknod rootInode "a" 0o100644).perform fresh).2
    let w := ((Operation.truncate (.inode 1) 20000).perform v).2
    let steps := [(fresh, Operation.mknod rootInode "a" 0o100644),
      (v, Operation.truncate (.inode 1) 20000)]
    (Run steps w ∧ ∀ s ∈ steps, s.2.OnFiles s.1) ∧
      (Guarded w 3 ↔ ∀ i, 3 = nodeId i → ¬w.Continues i) ∧
      ∀ i, w.Continues i → ¬w.Known i ∧
        (∃ a, Request.serve (.getattr (nodeId i)) w = (.ok (.attributes a), w)) ∧
        Request.serve (.access (nodeId i)) w = (.ok .done, w) :=
  have ⟨r, ho, _⟩ := run_truncate
  ⟨⟨r, ho⟩, r.guarded_iff ho 3⟩

theorem not_guarded_truncate :
    let v := ((Operation.mknod rootInode "a" 0o100644).perform fresh).2
    let w := ((Operation.truncate (.inode 1) 20000).perform v).2
    let steps := [(fresh, Operation.mknod rootInode "a" 0o100644),
      (v, Operation.truncate (.inode 1) 20000)]
    (Run steps w ∧ ∀ s ∈ steps, s.2.OnFiles s.1) ∧
      ∃ i, ¬w.Known i ∧ ¬Guarded w (nodeId i) ∧
        ∃ a, Request.serve (.getattr (nodeId i)) w = (.ok (.attributes a), w) := by
  have ⟨r, ho, i, hc⟩ := run_truncate
  have ⟨_, hv, s⟩ := r.settled_of_onFiles ho
  exact ⟨⟨r, ho⟩, i, s.not_known_of_continues hv hc, not_guarded hv s hc, (serve_continues hv hc).left⟩

end Tree
end InodeVolume
