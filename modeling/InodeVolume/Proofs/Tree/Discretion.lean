import InodeVolume.Proofs.Directory.Discretion
import InodeVolume.Proofs.Image.Setup
import InodeVolume.Proofs.Tree.Renaming
import InodeVolume.Tree.Operation

namespace InodeVolume

open VolumeM Volume

variable {first : Option Nat} {firm : Bool} {pre : Volume → Prop} {v w : Volume}

namespace Volume

theorem Alike.walk (a : v.Alike first w) (dir : Nat) (path : List String) :
    v.walk dir path = w.walk dir path := by
  induction path generalizing dir
  case nil => rfl
  case cons c path hi =>
    simp only [Volume.walk, a.same.isDir, a.lookup, hi]

theorem Alike.resolve (a : v.Alike first w) (root : Nat) (path : String) :
    v.resolve root path = w.resolve root path :=
  a.walk root _

theorem Alike.locate (a : v.Alike first w) (root : Nat) (path : String) :
    v.locate root path = w.locate root path := by
  simp only [Volume.locate, a.same.isDir, a.walk]

def rootBlock : Option Nat :=
  (fresh.link? rootInode).bind (·.slot 0)

theorem Holds.sited {files : Nat → Option FileState} {i : Nat} {c : Inode} (hv : v.Holds files)
    (hc : v.link? i = some c) (hr : i = rootInode → c.slot 0 = first) : c.Sited first i := by
  have ⟨chains, hs, _⟩ := hv
  have ⟨h, hm⟩ := (hs.links i c).mp hc
  have hformed := hs.formed h (i, c) hm
  refine ⟨hformed, fun s b hb => ?_, fun hi _ => hr hi⟩
  have hmem := Chain.mem_blocks.mpr ⟨i, c, hm, hformed.mem_owned.mpr ⟨s, hb⟩⟩
  exact ⟨hs.beyond h b hmem, hs.block_lt hmem⟩

theorem Holds.rooted {files : Nat → Option FileState} {f : FileState} (hv : v.Holds files)
    (hf : files rootInode = some f) (hz : f.bytes ≠ []) : v.Rooted := by
  have ⟨chains, hs, _, c, l, hl, _, _, hb⟩ := hv.exists_chain hf
  refine ⟨c, hs.link (hl ▸ List.mem_cons_self), fun hc => hz (List.length_eq_zero_iff.mp ?_)⟩
  have ⟨_, hleads⟩ := hl ▸ hs.leads rootInode (by simp [hl])
  have hnext : c.next = none := by
    by_contra hn
    have := (hs.formed rootInode _ (hl ▸ List.mem_cons_self)).packed (Option.isSome_iff_ne_none.mpr hn)
    simp [hc] at this
  have hnil : l = [] := Chain.Leads.eq_nil (hnext ▸ hleads)
  rw [← hb, Chain.length_content, hl, hnil, Chain.size_cons, Chain.size_nil, hc]

theorem alike_fresh : fresh.Alike rootBlock fresh := by
  refine .refl fun i c hc => holds_fresh.sited hc ?_
  rintro rfl
  simp [rootBlock, hc]

theorem rooted_fresh : fresh.Rooted :=
  holds_fresh.rooted (Function.update_self ..) (by decide)

end Volume

namespace Tree

theorem lookup_alike (a : v.Alike first w) (parent : Nat) (name : String) :
    lookup v parent name = lookup w parent name := by
  rw [lookup, lookup, a.same.isDir, a.lookup]

theorem isWithin_alike (a : v.Alike first w) (ancestor dir : Nat) :
    isWithin v ancestor dir = isWithin w ancestor dir := by
  have : ∀ limit dir, isWithinFrom v ancestor limit dir = isWithinFrom w ancestor limit dir := by
    intro limit
    induction limit
    case zero          => exact fun _ => rfl
    case succ limit hi =>
      intro dir
      simp only [isWithinFrom, a.lookup, hi]
  exact this inodeCount dir

theorem guardName_discreet (name : String) :
    Discreet first pre (guardName name) fun _ => pre := by
  rw [guardName]
  split
  case isTrue  => exact .refuse _
  case isFalse => exact .pure fun _ => id

theorem expectAbsent_discreet {find : Volume → Except Fault Nat}
    (h : ∀ v w, v.Alike first w → find v = find w) :
    Discreet first pre (expectAbsent find) fun _ => pre := by
  refine .bind (.attempt_query h) fun found => ?_
  split
  case h_1 => exact .refuse _
  case h_2 => exact .pure fun _ => id
  case h_3 => exact .refuse _

theorem reset_eq (v : Volume) : reset v = (.ok (), fresh) :=
  makeRoot_blank

theorem reset_discreet : Discreet rootBlock pre reset fun _ => Firm true :=
  fun v w _ _ => .ok (reset_eq v) (reset_eq w) ⟨alike_fresh, fun _ => rooted_fresh⟩

theorem addReference_discreet (i : Nat) :
    Discreet first (Firm firm) (addReference i) fun _ => Firm firm :=
  .bind (.query fun _ _ a => congrFun a.same.inode i) fun c =>
    Inode.revise_discreet i (c.refs + 1) c.mode c

theorem mknod_discreet (parent : Nat) (name : String) (mode : UInt32) :
    Discreet first (Firm true) (mknod parent name mode) fun _ => Firm false := by
  have place : ∀ kind i, Discreet first (Firm true) (mknod.place parent name kind i)
      fun _ => Firm true := by
    intro kind i
    rw [mknod.place]
    split
    case isTrue  =>
      exact .bind (Directory.start_discreet i) fun _ => .discard (Directory.attach_discreet parent name i)
    case isFalse => exact .discard (Directory.attach_discreet parent name i)
  refine .bind (guardName_discreet name) fun _ => ?_
  dsimp only
  cases (NodeKind.ofMode mode).bits?
  case none      => exact .refuse _
  case some bits =>
    refine .bind (expectAbsent_discreet fun _ _ a => lookup_alike a parent name) fun _ =>
      .bind Inode.alloc_discreet fun i => .bind (.query fun _ _ a => congrFun a.same.inode i) fun c =>
        .bind (Inode.revise_discreet i c.refs _ c) fun _ =>
          .attempt_bind (place _ i) (fun _ => ?_) fun e => ?_
    case refine_1 => exact .bind (addReference_discreet i).weaken fun _ => .pure fun _ => id
    case refine_2 => exact .bind (.discard (File.delete_discreet i).attempt) fun _ => .refuse e

theorem link_discreet (inode newParent : Nat) (newName : String) :
    Discreet first (Firm true) (link inode newParent newName) fun _ => Firm false := by
  refine .bind (guardName_discreet newName) fun _ =>
    .query_bind (fun _ _ a => congrFun a.same.isDir inode) fun isDir => ?_
  split
  case isTrue  => exact .refuse_bind _
  case isFalse =>
    refine .query_bind (fun _ _ a => congrFun a.same.isDir newParent) fun isDir => ?_
    split
    case isTrue  => exact .refuse_bind _
    case isFalse =>
      exact .bind (.discard (Directory.add_discreet newParent newName inode)) fun _ =>
        (addReference_discreet inode).weaken

theorem removeName_discreet (parent : Nat) (name : String) (target : Nat) :
    Discreet first (Firm firm) (removeName parent name target) fun _ => Firm false := by
  refine .bind (.discard (Directory.detach_discreet parent name)) fun _ =>
    .bind (.query fun _ _ a => congrFun a.same.inode target) fun c =>
      .bind (Inode.revise_discreet target (c.refs - 1) c.mode c) fun _ => ?_
  split
  case isTrue  => exact File.delete_discreet target
  case isFalse => exact .pure fun _ => id

theorem unlink_discreet (parent : Nat) (name : String) :
    Discreet first (Firm firm) (unlink parent name) fun _ => Firm false := by
  refine .bind (guardName_discreet name) fun _ =>
    .query_bind (fun _ _ a => lookup_alike a parent name) fun target =>
      .query_bind (fun _ _ a => congrFun a.same.isDir target) fun isDir => ?_
  split
  case isTrue  => exact .refuse_bind _
  case isFalse => exact removeName_discreet parent name target

theorem rmdir_discreet (parent : Nat) (name : String) :
    Discreet first (Firm firm) (rmdir parent name) fun _ => Firm false := by
  refine .bind (guardName_discreet name) fun _ =>
    .query_bind (fun _ _ a => lookup_alike a parent name) fun target =>
      .query_bind (fun _ _ a => congrFun a.same.isDir target) fun isDir => ?_
  split
  case isTrue  => exact .refuse_bind _
  case isFalse =>
    refine .query_bind (fun _ _ a => a.isBare target) fun bare => ?_
    split
    case isTrue  => exact .refuse_bind _
    case isFalse => exact removeName_discreet parent name target

theorem moveEntry_discreet (parent : Nat) (name : String) (newParent : Nat) (newName : String)
    (target : Nat) (moved : Bool) :
    Discreet first (Firm true) (moveEntry parent name newParent newName target moved)
      fun _ => Firm false := by
  refine .bind (.discard (Directory.add_discreet newParent newName target)) fun _ =>
    .attempt_bind (Directory.remove_discreet parent name) (fun _ => ?_) fun e => ?_
  case refine_1 =>
    dsimp only
    split
    case isTrue  => exact .discard (Directory.redirect_discreet target ".." newParent)
    case isFalse => exact .pure fun _ => id
  case refine_2 =>
    refine .bind (.attempt_query fun _ _ a => a.lookup parent name) fun found => ?_
    split
    case h_2 => exact .refuse e
    case h_1 =>
      split
      case isTrue  =>
        exact .bind (.discard (Directory.remove_discreet newParent newName)) fun _ => .refuse e
      case isFalse => exact .refuse e

theorem rename_discreet (parent : Nat) (name : String) (newParent : Nat) (newName : String) :
    Discreet first (Firm true) (rename parent name newParent newName) fun _ => Firm false := by
  rw [rename_eq]
  refine .bind (guardName_discreet name) fun _ => .bind (guardName_discreet newName) fun _ =>
    .query_bind (fun _ _ a => lookup_alike a parent name) fun target =>
      .bind (expectAbsent_discreet fun _ _ a => lookup_alike a newParent newName) fun _ =>
        .query_bind (fun _ _ a => congrFun a.same.isDir target) fun moved => ?_
  split
  case isFalse => exact moveEntry_discreet _ _ _ _ _ _
  case isTrue  =>
    refine .query_bind (fun _ _ a => isWithin_alike a target newParent) fun within => ?_
    split
    case isTrue  => exact .refuse_bind _
    case isFalse => exact moveEntry_discreet _ _ _ _ _ _

theorem truncate_discreet (inode size : Nat) :
    Discreet first (Firm true) (truncate inode size) fun _ => Firm false := by
  refine .query_bind (fun _ _ a => congrFun a.same.isDir inode) fun isDir => ?_
  split
  case isTrue  => exact .refuse_bind _
  case isFalse =>
    refine .query_bind (fun _ _ a => congrFun a.same.fileSize inode) fun current => ?_
    split
    case isFalse => exact .discard (File.shrink_discreet inode _)
    case isTrue  =>
      refine .bind (File.growZeroed_discreet inode _) fun g => ?_
      cases g.cut
      case none   => exact .pure fun v _ => v.firm_false
      case some e => exact .bind (.discard (File.shrink_discreet inode _)) fun _ => .refuse e

theorem makeRoom_discreet (inode total offset goal : Nat) :
    Discreet first (Firm true) (makeRoom inode total offset goal) fun _ => Firm false := by
  refine .bind (File.growZeroed_discreet inode _) fun g => ?_
  cases g.cut
  case none   => exact .pure fun v _ => v.firm_false
  case some e =>
    dsimp only
    split
    case isTrue  => exact .bind (.discard (File.shrink_discreet inode _)) fun _ => .refuse e
    case isFalse => exact .pure fun v _ => v.firm_false

theorem write_discreet (inode offset : Nat) (data : List UInt8) :
    Discreet first (Firm true) (write inode offset data) fun _ => Firm false := by
  refine .query_bind (fun _ _ a => congrFun a.same.isDir inode) fun isDir => ?_
  cases isDir
  case true  => exact .refuse_bind _
  case false =>
    rw [if_neg (by decide)]
    dsimp only
    by_cases hdata : data.isEmpty
    case pos =>
      rw [if_pos hdata]
      exact .pure fun v _ => v.firm_false
    case neg =>
      rw [if_neg hdata]
      refine .query_bind (fun _ _ a => congrFun a.same.fileSize inode) fun total => ?_
      by_cases hbig : wordLimit ≤ offset + data.length
      case pos =>
        rw [if_pos hbig]
        exact .refuse_bind _
      case neg =>
        rw [if_neg hbig]
        by_cases hlt : total < offset + data.length
        case pos =>
          rw [if_pos hlt]
          exact .bind (makeRoom_discreet inode total offset _) fun _ =>
            File.write_discreet inode offset data
        case neg =>
          rw [if_neg hlt]
          exact (File.write_discreet inode offset data).weaken

theorem chmod_discreet (inode : Nat) (mode : UInt32) :
    Discreet first (Firm firm) (chmod inode mode) fun _ => Firm firm :=
  .bind (.query fun _ _ a => congrFun a.same.inode inode) fun c =>
    Inode.revise_discreet inode c.refs _ c

theorem resolve_discreet (path : String) : Discreet first pre (resolve path) fun _ => pre :=
  (Discreet.query fun _ _ a => a.resolve rootInode path).mono (fun _ => id) fun _ _ => And.left

theorem locate_discreet (path : String) : Discreet first pre (locate path) fun _ => pre :=
  (Discreet.query fun _ _ a => a.locate rootInode path).mono (fun _ => id) fun _ _ => And.left

theorem mknodAt_discreet (path : String) (mode : UInt32) :
    Discreet first (Firm true) (mknodAt path mode) fun _ => Firm false :=
  .bind (expectAbsent_discreet fun _ _ a => a.resolve rootInode path) fun _ =>
    .bind (locate_discreet path) fun (parent, leaf) => mknod_discreet parent leaf mode

theorem linkAt_discreet (path newPath : String) :
    Discreet first (Firm true) (linkAt path newPath) fun _ => Firm false :=
  .bind (resolve_discreet path) fun inode =>
    .bind (expectAbsent_discreet fun _ _ a => a.resolve rootInode newPath) fun _ =>
      .bind (locate_discreet newPath) fun (parent, leaf) => link_discreet inode parent leaf

theorem Node.find_discreet (node : Node) : Discreet first pre node.find fun _ => pre := by
  cases node
  case inode n => exact .pure fun _ => id
  case path p  => exact resolve_discreet p

theorem Operation.perform_discreet (op : Operation) :
    Discreet rootBlock (Firm true) op.perform fun _ => Firm false := by
  -- looking leaves everything as it is
  have look : ∀ {α} {ask : Volume → Except Fault α} {answer : α → Answer},
      (∀ v w, v.Alike rootBlock w → ask v = ask w) →
      Discreet rootBlock (Firm true) (do return answer (← query ask)) fun _ => Firm false :=
    fun h => .query_bind h fun _ => .pure fun v _ => v.firm_false
  have act : ∀ {α} {act : VolumeM α} {answer : α → Answer},
      Discreet rootBlock (Firm true) act (fun _ => Firm false) →
      Discreet rootBlock (Firm true) (do return answer (← act)) fun _ => Firm false :=
    fun h => .bind h fun _ => .pure fun _ => id
  cases op
  case access node =>
    refine .bind node.find_discreet fun i => look fun _ _ a => ?_
    rw [Tree.access, Tree.access, a.same.inode]
  case stat node =>
    refine .bind node.find_discreet fun i => look fun _ _ a => ?_
    rw [Tree.stat, Tree.stat, a.same.inode, a.same.fileSize]
  case lookup parent name => exact look fun _ _ a => lookup_alike a parent name
  case read node offset len =>
    refine .bind node.find_discreet fun i => look fun _ _ a => ?_
    rw [Tree.read, Tree.read, a.same.isDir, a.readFile]
  case list node =>
    refine .bind node.find_discreet fun i => look fun _ _ a => ?_
    rw [Tree.list, Tree.list, a.same.isDir, a.listing]
  case usage => exact look fun _ _ a => by rw [a.same.usage]
  case sync  => exact .pure fun v _ => v.firm_false
  case reset => exact act reset_discreet.weaken
  case mknod parent name mode => exact act (mknod_discreet parent name mode)
  case mknodAt path mode      => exact act (mknodAt_discreet path mode)
  case mkdirAt path mode      => exact act (mknodAt_discreet path _)
  case link inode newParent newName => exact act (link_discreet inode newParent newName)
  case linkAt path newPath          => exact act (linkAt_discreet path newPath)
  case unlink parent name => exact act (unlink_discreet parent name)
  case unlinkAt path      =>
    exact act (.bind (locate_discreet path) fun (parent, leaf) => unlink_discreet parent leaf)
  case rmdir parent name => exact act (rmdir_discreet parent name)
  case rmdirAt path      =>
    exact act (.bind (locate_discreet path) fun (parent, leaf) => rmdir_discreet parent leaf)
  case rename parent name newParent newName =>
    exact act (rename_discreet parent name newParent newName)
  case renameAt path newPath =>
    exact act (.bind (locate_discreet path) fun (parent, leaf) =>
      .bind (locate_discreet newPath) fun (newParent, newLeaf) =>
        rename_discreet parent leaf newParent newLeaf)
  case truncate node size =>
    exact .bind node.find_discreet fun i => act (truncate_discreet i size)
  case write node offset data =>
    exact .bind node.find_discreet fun i => act (write_discreet i offset data)
  case chmod node mode =>
    exact .bind node.find_discreet fun i => act (chmod_discreet i mode).weaken

end Tree
end InodeVolume
