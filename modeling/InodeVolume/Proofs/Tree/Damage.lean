import InodeVolume.Proofs.Directory.Damage
import InodeVolume.Proofs.Image.Setup
import InodeVolume.Tree.Operation

namespace InodeVolume

open VolumeM Volume

def Volume.Passes (v : Volume) (start : Nat) (components : List String) (d : Nat) : Prop :=
  ∃ before c rest, components = before ++ c :: rest ∧ c ≠ "" ∧ Entry.fits c ∧
    v.walk start before = .ok d ∧ v.isDir d = .ok true

namespace Tree

variable {v : Volume} {i d start offset len : Nat} {name path : String} {cs : List String}

theorem access_ne_crash : access v i ≠ .error .crash := by
  intro hc
  rw [access] at hc
  cases h : v.inode i <;> simp [h, Except.map] at hc
  exact inode_ne_crash (hc ▸ h)

theorem stat_ne_crash : stat v i ≠ .error .crash := by
  intro hc
  rw [stat] at hc
  rcases Except.bind_eq_error_iff.mp hc with hc | ⟨_, _, hc⟩
  case inl => exact inode_ne_crash hc
  rcases Except.bind_eq_error_iff.mp hc with hc | ⟨_, _, hc⟩
  case inl => exact fileSize_ne_crash hc
  case inr => contradiction

theorem lookup_crash_iff :
    lookup v d name = .error .crash ↔
      v.isDir d = .ok true ∧ Entry.fits name ∧ (v.Torn d ∨ v.Misleads d) := by
  rw [lookup, ← Volume.lookup_crash_iff]
  rcases hd : v.isDir d with e | (_ | _)
  case error =>
    have : e ≠ .crash := fun h => isDir_ne_crash (h ▸ hd)
    simp [bind, Except.bind, this]
  all_goals simp [bind, Except.bind]

theorem list_crash_iff :
    list v d = .error .crash ↔ v.isDir d = .ok true ∧ (v.Torn d ∨ v.Misleads d) := by
  rw [list, ← listing_crash_iff]
  rcases hd : v.isDir d with e | (_ | _)
  case error =>
    have : e ≠ .crash := fun h => isDir_ne_crash (h ▸ hd)
    simp [bind, Except.bind, this]
  all_goals simp [bind, Except.bind]

theorem read_crash_iff :
    read v i offset len = .error .crash ↔ v.isDir i = .ok false ∧
      ∃ total, v.fileSize i = .ok total ∧ v.Derails i offset (clip total offset len) := by
  rw [read, ← readFile_crash_iff]
  rcases hd : v.isDir i with e | (_ | _)
  case error =>
    have : e ≠ .crash := fun h => isDir_ne_crash (h ▸ hd)
    simp [bind, Except.bind, this]
  all_goals simp [bind, Except.bind]

theorem walk_cons {c : String} (hc : c ≠ "") :
    v.walk start (c :: cs) = lookup v start c >>= (v.walk · cs) := by
  rw [Volume.walk, if_neg hc, lookup]
  rcases v.isDir start with _ | (_ | _) <;> rfl

theorem passes_cons {c : String} (hc : c ≠ "") :
    v.Passes start (c :: cs) d ↔ d = start ∧ Entry.fits c ∧ v.isDir d = .ok true ∨
      ∃ next, lookup v start c = .ok next ∧ v.Passes next cs d := by
  constructor
  case mp =>
    intro ⟨before, c', rest, he, hc', hfit, hw, hd⟩
    cases before
    case nil =>
      obtain ⟨rfl, rfl⟩ := List.cons.inj he
      exact .inl ⟨(Except.ok.inj hw).symm, hfit, hd⟩
    case cons b before =>
      obtain ⟨rfl, rfl⟩ := List.cons.inj he
      rw [walk_cons hc] at hw
      obtain ⟨next, hl, hw⟩ := Except.bind_eq_ok_iff.mp hw
      exact .inr ⟨next, hl, before, c', rest, rfl, hc', hfit, hw, hd⟩
  case mpr =>
    intro h
    rcases h with ⟨rfl, hfit, hd⟩ | ⟨next, hl, before, c', rest, rfl, hc', hfit, hw, hd⟩
    case inl => exact ⟨[], c, cs, rfl, hc, hfit, rfl, hd⟩
    case inr => exact ⟨c :: before, c', rest, rfl, hc', hfit, by rw [walk_cons hc, hl]; exact hw, hd⟩

theorem passes_empty : v.Passes start ("" :: cs) d ↔ v.Passes start cs d := by
  constructor
  case mp =>
    rintro ⟨before, c, rest, he, hc, hfit, hw, hd⟩
    cases before
    case nil => exact absurd (List.cons.inj he).left.symm hc
    case cons b before =>
      obtain ⟨rfl, rfl⟩ := List.cons.inj he
      rw [Volume.walk, if_pos rfl] at hw
      exact ⟨before, c, rest, rfl, hc, hfit, hw, hd⟩
  case mpr =>
    rintro ⟨before, c, rest, he, hc, hfit, hw, hd⟩
    exact ⟨"" :: before, c, rest, by rw [he]; rfl, hc, hfit, by rwa [Volume.walk, if_pos rfl], hd⟩

theorem walk_crash_iff :
    v.walk start cs = .error .crash ↔ ∃ d, v.Passes start cs d ∧ (v.Torn d ∨ v.Misleads d) := by
  induction cs generalizing start
  case nil => simp [Volume.walk, Volume.Passes]
  case cons c cs hi =>
    by_cases hc : c = ""
    case pos =>
      subst hc
      rw [Volume.walk, if_pos rfl, hi]
      simp only [passes_empty]
    case neg =>
      simp only [walk_cons hc, Except.bind_eq_error_iff, lookup_crash_iff, hi, passes_cons hc]
      constructor
      case mp =>
        intro h
        rcases h with ⟨hd, hfit, hb⟩ | ⟨next, hl, d, hp, hb⟩
        case inl => exact ⟨start, .inl ⟨rfl, hfit, hd⟩, hb⟩
        case inr => exact ⟨d, .inr ⟨next, hl, hp⟩, hb⟩
      case mpr =>
        rintro ⟨d, ⟨rfl, hfit, hd⟩ | ⟨next, hl, hp⟩, hb⟩
        case inl => exact .inl ⟨hd, hfit, hb⟩
        case inr => exact .inr ⟨next, hl, d, hp, hb⟩

def Node.look (v : Volume) : Node → Except Fault Nat
  | .inode n => .ok n
  | .path p  => v.resolve rootInode p

theorem Node.find_eq (node : Node) : node.find = query node.look := by
  cases node <;> rfl

def Node.Passes (v : Volume) (d : Nat) : Node → Prop
  | .inode _ => False
  | .path p  => v.Passes rootInode (Path.components p) d

theorem Node.look_crash_iff {node : Node} :
    node.look v = .error .crash ↔ ∃ d, node.Passes v d ∧ (v.Torn d ∨ v.Misleads d) := by
  cases node
  case inode n => simp [look, Node.Passes]
  case path p  => exact walk_crash_iff

theorem find_query {α : Type} (node : Node) (look : Volume → Nat → Except Fault α)
    (answer : α → Answer) (v : Volume) (e : Fault) :
    let r := (node.find >>= fun i => query (look · i) >>= fun a => pure (answer a)) v
    r.2 = v ∧ (r.1 = .error e ↔
      node.look v = .error e ∨ ∃ i, node.look v = .ok i ∧ look v i = .error e) := by
  intro r
  simp only [r, Node.find_eq, bind_apply, query]
  cases node.look v
  case error => simp
  case ok i  => rcases hl : look v i with _ | _ <;> simp [hl, pure_apply]

namespace Operation

def Looks : Operation → Prop
  | access _ | stat _ | lookup _ _ | read _ _ _ | list _ => True
  | _                                                    => False

def node? : Operation → Option Node
  | access node | stat node | read node _ _ | list node => some node
  | _                                                   => none

inductive Scans (v : Volume) (d : Nat) : Operation → Prop
  | lookup {name : String} : v.isDir d = .ok true → Entry.fits name → Scans v d (.lookup d name)
  | list {node : Node} : node.look v = .ok d → v.isDir d = .ok true → Scans v d (.list node)
  | path {op : Operation} {node : Node} : op.node? = some node → node.Passes v d → Scans v d op

def Fetches (v : Volume) (h offset len : Nat) (op : Operation) : Prop :=
  ∃ node want total, op = .read node offset want ∧ node.look v = .ok h ∧ v.isDir h = .ok false ∧
    v.fileSize h = .ok total ∧ len = clip total offset want

theorem scans_iff (op : Operation) {node : Node} (hn : op.node? = some node)
    (hl : ∀ node, op ≠ .list node) : op.Scans v d ↔ node.Passes v d := by
  constructor
  case mp =>
    intro s
    cases s
    case lookup     => simp [node?] at hn
    case list       => exact absurd rfl (hl _)
    case path hp hm => exact Option.some.inj (hm.symm.trans hn) ▸ hp
  case mpr => exact .path hn

theorem scans_list_iff {node : Node} :
    (list node).Scans v d ↔ node.Passes v d ∨ node.look v = .ok d ∧ v.isDir d = .ok true := by
  constructor
  case mp =>
    intro s
    cases s
    case list hd hf => exact .inr ⟨hf, hd⟩
    case path hp hm => exact .inl (Option.some.inj hm ▸ hp)
  case mpr =>
    intro h
    rcases h with hp | ⟨hf, hd⟩
    case inl => exact .path rfl hp
    case inr => exact .list hf hd

theorem scans_lookup_iff :
    (lookup i name).Scans v d ↔ d = i ∧ v.isDir d = .ok true ∧ Entry.fits name := by
  constructor
  case mp =>
    intro s
    cases s
    case lookup hd hfit => exact ⟨rfl, hd, hfit⟩
    case path hm        => simp [node?] at hm
  case mpr =>
    intro ⟨he, hd, hfit⟩
    exact he ▸ .lookup hd hfit

theorem Looks.crash_iff {op : Operation} (hl : op.Looks) :
    (op.perform v).2 = v ∧ ((op.perform v).1 = .error .crash ↔
      (∃ d, op.Scans v d ∧ (v.Torn d ∨ v.Misleads d)) ∨
        ∃ h offset len, op.Fetches v h offset len ∧ v.Derails h offset len) := by
  cases op
  case access node =>
    have ⟨hv, hc⟩ := find_query node Tree.access (fun _ => .done) v .crash
    refine ⟨hv, hc.trans ?_⟩
    simp [access_ne_crash, Node.look_crash_iff, scans_iff (.access node) rfl nofun, Fetches]
  case stat node =>
    have ⟨hv, hc⟩ := find_query node Tree.stat .stat v .crash
    refine ⟨hv, hc.trans ?_⟩
    simp [stat_ne_crash, Node.look_crash_iff, scans_iff (.stat node) rfl nofun, Fetches]
  case list node =>
    have ⟨hv, hc⟩ := find_query node Tree.list .entries v .crash
    refine ⟨hv, hc.trans ?_⟩
    simp only [list_crash_iff, Node.look_crash_iff, scans_list_iff, Fetches, reduceCtorEq]
    grind
  case read node offset len =>
    have ⟨hv, hc⟩ := find_query node (Tree.read · · offset len) .bytes v .crash
    refine ⟨hv, hc.trans ?_⟩
    simp only [read_crash_iff, Node.look_crash_iff, scans_iff (.read node offset len) rfl nofun,
      Fetches, read.injEq]
    grind
  case lookup d name =>
    have hq : perform (.lookup d name) v = ((Tree.lookup v d name).map .inode, v) := by
      simp only [perform, bind_apply, query]
      cases Tree.lookup v d name <;> rfl
    rw [hq]
    refine ⟨rfl, ?_⟩
    have hmap : (Tree.lookup v d name).map Answer.inode = .error .crash ↔
        Tree.lookup v d name = .error .crash := by
      cases Tree.lookup v d name <;> simp [Except.map]
    simp only [hmap, lookup_crash_iff, scans_lookup_iff, Fetches, reduceCtorEq]
    grind
  all_goals exact hl.elim

-- Whatever the bytes of a volume are, to look at something never changes them, and is answered, if
-- only by an error, but in two cases: all entries of a directory are read of which the size is not
-- one of whole entries, or in which a block is met with a number that no block has; or bytes of a
-- regular file are read, all from blocks with numbers, of which one is the number of no block. If
-- the table has no such numbers, then only the size of a directory can be to blame.
theorem Looks.crashes {op : Operation} (hl : op.Looks) (v : Volume) :
    (op.perform v).2 = v ∧
      ((op.perform v).1 = .error .crash ↔
        (∃ d, op.Scans v d ∧ (v.Torn d ∨ v.Misleads d)) ∨
          ∃ h offset len, op.Fetches v h offset len ∧ v.Derails h offset len) ∧
      ((∀ i c s b, v.link? i = some c → c.slot s = some b → b < blockCount) →
        ((op.perform v).1 = .error .crash ↔ ∃ d, op.Scans v d ∧ v.Torn d)) := by
  have ⟨hv, hc⟩ := hl.crash_iff (v := v)
  refine ⟨hv, hc, fun hb => ?_⟩
  have misleads : ∀ d, ¬v.Misleads d := fun d ⟨_, _, _, _, ho, _⟩ => not_overshoots hb ho
  have derails : ∀ h offset len, ¬v.Derails h offset len :=
    fun h offset len ⟨_, _, _, _, ho⟩ => not_overshoots hb ho
  simp [hc, misleads, derails]

end Operation

def misled : Inode :=
  { refs := 1, size := 10, blocks := #v[some 300, none, none, none] }

def damaged : Volume :=
  (fresh.setBit inodeMapStart 1 true).write (recordStart 1) (Record.ofInode misled).bytes

theorem link?_damaged : damaged.link? = Function.update fresh.link? 1 (some misled) := by
  have hbit := relinked_setInodeBit fresh (i := 1) (by decide) true
  have htaken : (fresh.setBit inodeMapStart 1 true).inodeTaken 1 := by
    rw [← isSome_link?, hbit.links, Function.update_self]
    rfl
  have hread : (Record.ofInode misled).inode = misled := by decide +kernel
  rw [damaged, (relinked_writeRecord _ (by decide) (.ofInode misled)).links, if_pos htaken, hbit.links,
    Function.update_idem, hread]

theorem blockTaken_damaged : damaged.blockTaken = fresh.blockTaken := by
  rw [damaged, (relinked_writeRecord _ (by decide) (.ofInode misled)).taken,
    (relinked_setInodeBit fresh (i := 1) (by decide) true).taken]

theorem open_damaged :
    (Image.Place.file { front := damaged }).openVolume = .ok damaged ∧
      Image.withRoot damaged = (.ok (.ok ()), damaged) := by
  have ⟨_, hs, _⟩ := holds_fresh
  constructor
  case left =>
    refine congrArg Except.ok (reserve_of_taken fun b hb => ?_)
    rw [blockTaken_damaged]
    exact (hs.taken b).mpr (.inl hb)
  case right =>
    have hroot : damaged.inodeTaken rootInode := by
      rw [← isSome_link?, link?_damaged, Function.update_of_ne (by decide)]
      exact holds_fresh.link?_isSome (Function.update_self ..)
    rw [Image.withRoot, makeRoot_of_taken hroot]

theorem misled_damaged :
    damaged.isDir 1 = .ok false ∧ damaged.fileSize 1 = .ok 10 ∧ damaged.Derails 1 0 10 := by
  have hlink : damaged.link? 1 = some misled := by rw [link?_damaged, Function.update_self]
  have hw : damaged.Walks 1 [(1, misled)] := {
    links := by simpa using hlink
    leads := ⟨rfl, rfl⟩
  }
  have ho : damaged.Overshoots 1 0 := by
    refine ⟨300, ?_, by decide⟩
    rw [fileBlock, blockFrom, inode_of_link? hlink]
    rfl
  refine ⟨?_, hw.fileSize_eq, fun a _ ha => ?_, 0, by decide, by decide, ho⟩
  case refine_1 =>
    simp only [Volume.isDir, inode_of_link? hlink, bind, Except.bind]
    rfl
  case refine_2 =>
    rw [Nat.div_eq_of_lt (by lia)]
    exact ho.mapped

namespace Operation

theorem crashes_read :
    let op := read (.inode 1) 0 10
    op.Looks ∧ (op.perform damaged).2 = damaged ∧
      ((op.perform damaged).1 = .error .crash ↔
        (∃ d, op.Scans damaged d ∧ (damaged.Torn d ∨ damaged.Misleads d)) ∨
          ∃ h offset len, op.Fetches damaged h offset len ∧ damaged.Derails h offset len) :=
  have hop : (read (.inode 1) 0 10).Looks := trivial
  have ⟨hv, hc, _⟩ := Looks.crashes hop damaged
  ⟨hop, hv, hc⟩

theorem read_misled_crash :
    ({ front := damaged } : Image.Content).size = volumeSize ∧
      (Image.Place.file { front := damaged }).openVolume = .ok damaged ∧
      Image.withRoot damaged = (.ok (.ok ()), damaged) ∧
      (read (.inode 1) 0 10).Looks ∧
      (perform (read (.inode 1) 0 10) damaged).1 = .error .crash := by
  have ⟨hopen, hroot⟩ := open_damaged
  refine ⟨rfl, hopen, hroot, trivial, ?_⟩
  have ⟨hdir, hsize, hd⟩ := misled_damaged
  have ⟨_, hc⟩ := find_query (.inode 1) (Tree.read · · 0 10) .bytes damaged .crash
  exact hc.mpr (.inr ⟨1, rfl, read_crash_iff.mpr ⟨hdir, 10, hsize, hd⟩⟩)

end Operation
end Tree
end InodeVolume
