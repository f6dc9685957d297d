import InodeVolume.Proofs.Directory.Confinement
import InodeVolume.Proofs.Directory.Places
import InodeVolume.Proofs.Tree.Faults
import InodeVolume.Proofs.Tree.References
import InodeVolume.Proofs.Tree.Space

namespace InodeVolume

open VolumeM Volume

variable {strays crooked : Prop} {owed : Nat → Int} {files files' : Nat → Option FileState}
variable {v w : Volume} {p i t : Nat} {f g : FileState} {name : String}

namespace Volume

structure Releases (v w : Volume) (p t : Nat) : Prop where
  gone   : ¬w.inodeTaken t
  blocks : ∃ size before after, v.fileSize t = .ok size ∧ v.fileSize p = .ok before ∧
    w.fileSize p = .ok after ∧ after ≤ before ∧
    w.freeBlocks = v.freeBlocks + blocksFor size + (blocksFor before - blocksFor after)
  inodes : ∃ length before after, v.chainLength t = .ok length ∧ v.chainLength p = .ok before ∧
    w.chainLength p = .ok after ∧ after ≤ before ∧
    w.freeInodes = v.freeInodes + length + (before - after)

structure Loosens (v w : Volume) (t : Nat) : Prop where
  chain : ∃ c l, v.chain t = .ok ((t, c) :: l) ∧
    w.chain t = .ok ((t, { c with refs := c.refs - 1 }) :: l)
  view  : ∃ x, v.view t = .ok x ∧
    w.view t = .ok { x with stat := { x.stat with links := x.stat.links - 1 } }

-- A name of a file is gone from a directory. Either the file is kept all the same, or it is gone too.
structure Unnames (v w : Volume) (p : Nat) (name : String) (t : Nat) (kept : Prop) : Prop where
  entries  : ∃ us, Tree.list v p = .ok us ∧ Tree.list w p = .ok (us.filter fun u => u.1 ≠ name)
  loosens   : kept → v.Loosens w t
  releases : ¬kept → v.Releases w p t
  others   : ∀ k, v.Head k → k ≠ p → k ≠ t → w.chain k = v.chain k ∧ w.view k = v.view k

end Volume

theorem Arranged.releases (a : Arranged crooked owed files) (hv : v.Holds files)
    (hw : w.Holds files') (hf : files p = some f) (hd : f.isDir)
    (hf' : files' p = some (f.withEntries (Entries.clear f.entries i))) (hg : files t = some g)
    (hg' : files' t = none) (hne : t ≠ p) (hr : v.Recedes w) (ht : v.Touches w {p, t}) :
    v.Releases w p t := by
  have hl := a.lists hf hd
  have hhead : v.Head t := hv.head_iff.mpr ⟨g, hg⟩
  have hgone : ¬w.Head t := by simp [hw.head_iff, hg']
  have ⟨chains, chains', hs, hs', hk⟩ := ht
  have hcp : chains p ≠ [] := hs.head_iff.mp (hv.head_iff.mpr ⟨f, hf⟩)
  have hct : chains t ≠ [] := hs.head_iff.mp hhead
  have hcp' : chains' p ≠ [] := hs'.head_iff.mp (hw.head_iff.mpr ⟨_, hf'⟩)
  have hct' : chains' t = [] := by rwa [hs'.head_iff, not_not] at hgone
  have ⟨hblocks, hinodes⟩ := hs.free_two hs' hk hne.symm (hv.lt hf) (hv.lt hg)
  rw [hct'] at hblocks hinodes
  constructor
  case gone => exact fun h => hgone (hr.head hhead h)
  case blocks =>
    have hlen : (chains' p).size ≤ (chains p).size := by
      rw [← Except.ok.inj ((hv.fileSize hf).symm.trans (fileSize_eq hs hcp)),
        ← Except.ok.inj ((hw.fileSize hf').symm.trans (fileSize_eq hs' hcp')), hl.clear.length,
        hl.length]
      exact Nat.mul_le_mul_right _ (Entries.length_clear_le f.entries i)
    refine ⟨_, _, _, fileSize_eq hs hct, fileSize_eq hs hcp, fileSize_eq hs' hcp', hlen, ?_⟩
    have hmono := blocksFor_mono hlen
    have hzero : blocksFor (Chain.size []) = 0 := rfl
    omega
  case inodes =>
    have hlen := hr.length_le (walks_chain hs hcp) (walks_chain hs' hcp')
    refine ⟨_, _, _, chainLength_eq hs hct, chainLength_eq hs hcp, chainLength_eq hs' hcp', hlen, ?_⟩
    rw [List.length_nil] at hinodes
    omega

theorem Arranged.unnames {crooked' : Prop} {owed' : Nat → Int} (a : Arranged crooked owed files)
    (a' : Arranged crooked' owed' files') (hv : v.Holds files) (hw : w.Holds files')
    (hf : files p = some f) (hd : f.isDir) (hfind : Entries.find f.entries name = some (i, t))
    (hg : files t = some g) (hne : t ≠ p)
    (hfiles : files' = Function.update (Function.update files p
      (some (f.withEntries (Entries.clear f.entries i)))) t g.released)
    (hr : v.Recedes w) (ht : v.Touches w {p, t})
    (hkept : 1 < g.refs → ∃ c l, v.chain t = .ok ((t, c) :: l) ∧
      w.chain t = .ok ((t, { c with refs := c.refs - 1 }) :: l)) :
    v.Unnames w p name t (1 < g.refs) := by
  have hf' : files' p = some (f.withEntries (Entries.clear f.entries i)) := by
    rw [hfiles, Function.update_of_ne hne.symm, Function.update_self]
  have hg' : files' t = g.released := by rw [hfiles, Function.update_self]
  constructor
  case entries =>
    refine ⟨_, a.list_eq hv hf hd, ?_⟩
    rw [a'.list_eq hw hf' hd, (a.lists hf hd).clear.entries,
      Entries.used_clear_eq (a.distinct hf hd) (Entries.find_eq_some hfind)]
  case loosens =>
    intro h
    rw [FileState.released_of_lt h] at hg'
    exact ⟨hkept h, g.view t, a.view_eq hv hg, a'.view_eq hw hg'⟩
  case releases =>
    intro h
    rw [FileState.released_of_le (Nat.not_lt.mp h)] at hg'
    exact a.releases hv hw hf hd hf' hg hg' hne hr ht
  case others =>
    intro k hk hkp hkt
    have ⟨x, hx⟩ := hv.head_iff.mp hk
    have hx' : files' k = some x := by
      rw [hfiles, Function.update_of_ne hkt, Function.update_of_ne hkp, hx]
    exact ⟨ht.chain (by simp [hkp, hkt]) hk, by rw [a.view_eq hv hx, a'.view_eq hw hx']⟩

namespace Tree

section

variable (a : Arranged crooked owed files) (hv : v.Holds files) (hf : files p = some f)
variable (hd : f.isDir) (hfind : Entries.find f.entries name = some (i, t)) (hg : files t = some g)
variable (hne : t ≠ p) (hmax : g.refs < 0x80000000)

include a hv hf hd hfind hg hne hmax

theorem removeName_touches :
    (removeName p name t).Ensures v
      (fun _ w => v.Touches w {p, t} ∧ (1 < g.refs → ∃ c l, v.chain t = .ok ((t, c) :: l) ∧
        w.chain t = .ok ((t, { c with refs := c.refs - 1 }) :: l)))
      Never := by
  have hl := a.lists hf hd
  have hdetach : (Directory.detach p name).Ensures v
      (fun _ u => v.Touches u {p, t} ∧ (1 < g.refs → u.chain t = v.chain t)) fun _ _ => True := by
    by_cases hgd : g.isDir
    case pos =>
      apply (Directory.detach_touches hv hf hl hfind hg).mono
      case ho => exact fun _ _ h => ⟨h, fun hlt => absurd (a.refs hg hgd) (Nat.ne_of_gt hlt)⟩
      case he => exact fun _ _ _ => trivial
    case neg =>
      apply (Directory.detach_file_touches hv hf hl hfind hg hgd).mono
      case ho =>
        intro _ u h
        exact ⟨h.mono (by simp), fun _ => h.chain (by simpa using hne) (hv.head_iff.mpr ⟨g, hg⟩)⟩
      case he => exact fun _ _ _ => trivial
  rw [removeName, ensures_bind, ensures_discard]
  apply ((detach_ensures a hv hf hd hfind hg hne).and hdetach).mono
  case he => exact fun _ _ => And.left
  rintro _ u ⟨⟨g', hrefs, _, hu, _⟩, hvu, hsame⟩
  obtain ⟨c, hc, hcr, _, hput⟩ := File.exists_inode hu (Function.update_self ..)
  rw [ensures_bind, ensures_query_ok hc, ensures_bind]
  apply ((hput (c.refs - 1) c.mode (by omega)).and_never
    (File.put_touches hu (Function.update_self ..) hc c.mode (by omega))).mono_ok
  rintro _ x ⟨⟨hx, _⟩, hux, l, hul, hxl⟩
  have hvx : v.Touches x {p, t} := hvu.trans (hux.mono (by simp))
  by_cases hlast : g.refs ≤ 1
  case pos =>
    rw [if_pos (by omega)]
    apply (File.delete_touches hx (Function.update_self ..)).mono_ok
    exact fun _ w hxw => ⟨hvx.trans (hxw.mono (by simp)), fun hlt => absurd hlast (Nat.not_le.mpr hlt)⟩
  case neg =>
    rw [if_neg (by omega)]
    exact ⟨hvx, fun hlt => ⟨c, l, hsame hlt ▸ hul, hxl⟩⟩

end

section

variable (hname : name ≠ "" ∧ Proper name) (ht : lookup v p name = .ok t)

include hname ht

theorem unlink_of_dir (hd : v.isDir t = .ok true) :
    unlink p name v = (.error (.errno .isDirectory), v) := by
  apply Ensures.eq_error
  rw [unlink, ensures_bind, ensures_guardName hname, ensures_bind, ensures_query_ok ht, ensures_bind,
    ensures_query_ok hd, if_pos rfl]
  exact ⟨rfl, rfl⟩

theorem unlink_of_file (hd : v.isDir t = .ok false) : unlink p name v = removeName p name t v := by
  rw [unlink, bind_of_ok (guardName_apply hname v), bind_of_ok (query_of_ok ht),
    bind_of_ok (query_of_ok hd)]
  rfl

theorem rmdir_of_file (hd : v.isDir t = .ok false) :
    rmdir p name v = (.error (.errno .notDirectory), v) := by
  apply Ensures.eq_error
  rw [rmdir, ensures_bind, ensures_guardName hname, ensures_bind, ensures_query_ok ht, ensures_bind,
    ensures_query_ok hd]
  exact ⟨rfl, rfl⟩

theorem rmdir_of_bare (hd : v.isDir t = .ok true) (hbare : v.isBare t = .ok true) :
    rmdir p name v = removeName p name t v := by
  have hb : query (·.isBare t) v = (.ok true, v) := query_of_ok hbare
  rw [rmdir, bind_of_ok (guardName_apply hname v), bind_of_ok (query_of_ok ht),
    bind_of_ok (query_of_ok hd)]
  exact bind_of_ok hb _

end

theorem inodeTaken_of_chain {l : Chain} (h : v.chain t = .ok l) : v.inodeTaken t := by
  have hw := chain_eq_ok_iff.mp h
  have ⟨c, hm⟩ := Chain.mem_numbers.mp hw.head_mem
  rw [← isSome_link?, hw.links t c hm]
  rfl

end Tree

theorem Volume.Loosens.not_releases (y : v.Loosens w t) : ¬v.Releases w p t := by
  have ⟨_, _, _, h⟩ := y.chain
  exact fun r => r.gone (Tree.inodeTaken_of_chain h)

namespace Settled

theorem references_of_named (s : Settled strays crooked files) (hv : v.Holds files)
    (hg : files t = some g) (hgd : ¬g.isDir) (hn : Named files t) :
    1 ≤ v.namings t ∧ (g.refs = v.namings t ∨ strays ∧ g.refs = v.namings t + 1) := by
  have ⟨owed, a, b⟩ := s
  have hr := a.refs_eq hg
  have hpos := a.count_pos_iff.mpr hn
  have ⟨_, ho⟩ := b.regular t g hg hgd
  rw [a.namings_eq hv hg hgd]
  refine ⟨hpos, ho.imp (fun ho => ?_) fun ⟨hs, ho⟩ => ⟨hs, ?_⟩⟩
  all_goals omega

end Settled

namespace Tree

variable {steps : List (Volume × Operation)}

theorem removeName_unnames (s : Settled strays crooked files) (hv : v.Holds files)
    (hf : files p = some f) (hd : f.isDir) (hfind : Entries.find f.entries name = some (i, t))
    (hg : files t = some g) (hne : t ≠ p)
    (hevolves : ∀ w, removeName p name t v = (.ok (), w) → Evolves strays crooked files v w) :
    ∃ w, removeName p name t v = (.ok (), w) ∧ v.Unnames w p name t (1 < g.refs) := by
  have ⟨_, a, _⟩ := s
  have hmax := s.refs_le hv hg
  have h := (removeName_ensures a hv hf hd hfind hg hne (by omega)).and_never
    (removeName_touches a hv hf hd hfind hg hne (by omega))
  have ⟨_, w, hres, ⟨hw, hr⟩, ht, hkept⟩ := h.exists_ok
  have ⟨files', hw', ⟨_, a', _⟩, _⟩ := hevolves w hres
  exact ⟨w, hres, a.unnames a' hv hw' hf hd hfind hg hne (hw'.unique hw) hr ht hkept⟩

theorem unlink_unnames (s : Settled strays crooked files) (hv : v.Holds files)
    (hf : files p = some f) (hd : f.isDir) (hname : name ≠ "" ∧ Proper name)
    (ht : lookup v p name = .ok t) (hg : files t = some g) (hgd : ¬g.isDir) :
    ∃ w, unlink p name v = (.ok (), w) ∧ v.Unnames w p name t (1 < g.refs) := by
  have ⟨_, a, _⟩ := s
  have ⟨i, hfind⟩ := a.find_of_lookup hv hf hd ht
  have hne : t ≠ p := by
    rintro rfl
    obtain rfl := Option.some.inj (hf.symm.trans hg)
    exact hgd hd
  rw [unlink_of_file hname ht ((hv.regular_iff hg).mpr hgd)]
  refine removeName_unnames s hv hf hd hfind hg hne fun w hres => ?_
  rw [← unlink_of_file hname ht ((hv.regular_iff hg).mpr hgd)] at hres
  exact (unlink_evolves s hv (.inl ⟨f, hf⟩)).of_ok hres

theorem rmdir_unnames (s : Settled strays crooked files) (hv : v.Holds files)
    (hf : files p = some f) (hd : f.isDir) (hname : name ≠ "" ∧ Proper name)
    (ht : lookup v p name = .ok t) (hg : files t = some g) (hgd : g.isDir)
    (hbare : ∀ n u, (n, u) ∈ Entries.used g.entries → ¬Proper n) :
    ∃ w, rmdir p name v = (.ok (), w) ∧ v.Unnames w p name t False := by
  have ⟨_, a, _⟩ := s
  have ⟨i, hfind⟩ := a.find_of_lookup hv hf hd ht
  have hne : t ≠ p := by
    rintro rfl
    obtain rfl := Option.some.inj (hf.symm.trans hg)
    exact hbare name t (Entries.mem_used_of_find hfind) hname.right
  have hb : v.isBare t = .ok true := by
    rw [hv.isBare hg (a.lists hg hgd), Except.ok.injEq, Entries.bare_iff]
    exact hbare
  have heq := rmdir_of_bare hname ht (by rw [hv.isDir hg, hgd]) hb
  have hlast : ¬1 < g.refs := Nat.not_lt.mpr (Nat.le_of_eq (a.refs hg hgd))
  rw [heq, ← eq_false hlast]
  exact removeName_unnames s hv hf hd hfind hg hne fun w hres =>
    (rmdir_evolves s hv (.inl ⟨f, hf⟩)).of_ok (heq.trans hres)

-- A name of a regular file is gone by one operation, and a directory with nothing in it by the
-- other; neither does anything else. The file is kept if it has another reference. So it is if it
-- has another name, but not only then: a file that has been planted is kept even without any.
theorem Run.removal (r : Run steps v) (hh : v.Head p) (hd : v.isDir p = .ok true)
    (hname : name ≠ "" ∧ Proper name) (ht : lookup v p name = .ok t) :
    ∃ s, stat v t = .ok s ∧
      ((v.isDir t = .ok false ∧ rmdir p name v = (.error (.errno .notDirectory), v) ∧
          ∃ w, unlink p name v = (.ok (), w) ∧ v.Unnames w p name t (1 < s.links) ∧
            (v.Unnames w p name t (1 < v.namings t) ↔ ¬(v.namings t = 1 ∧ 1 < s.links)) ∧
            (v.namings t = 1 ∧ 1 < s.links → Planted .regular steps)) ∨
        (v.isDir t = .ok true ∧ unlink p name v = (.error (.errno .isDirectory), v) ∧
          (((∀ n u, v.Lists t n u → ¬Proper n) ∧
              ∃ w, rmdir p name v = (.ok (), w) ∧ v.Unnames w p name t False) ∨
            (¬(∀ n u, v.Lists t n u → ¬Proper n) ∧
              rmdir p name v = (.error (.errno .notEmpty), v))))) := by
  have ⟨files, hv, s⟩ := r.settled
  have ⟨_, a, _⟩ := s
  have ⟨f, hf⟩ := hv.head_iff.mp hh
  have hfd : f.isDir := by rwa [hv.isDir hf, Except.ok.injEq] at hd
  have ⟨i, hfind⟩ := a.find_of_lookup hv hf hfd ht
  have hm := Entries.mem_used_of_find hfind
  have ⟨g, hg⟩ := a.exists_target hf hfd hm
  refine ⟨_, hv.stat hg, ?_⟩
  cases hgd : g.isDir
  case false =>
    have hdir : v.isDir t = .ok false := by rw [hv.isDir hg, hgd]
    have hn : Named files t := ⟨p, _, name, graph_eq hf, hname.right, FileState.names_node hfd ▸ hm⟩
    have ⟨w, hres, hl⟩ := unlink_unnames s hv hf hfd hname ht hg (by simp [hgd])
    -- a planted file has one reference more than names, any other one as many
    have ⟨hpos, hrefs⟩ := s.references_of_named hv hg (by simp [hgd]) hn
    refine .inl ⟨hdir, rmdir_of_file hname ht hdir, w, hres, hl, ?_, fun ⟨hone, hlt⟩ => ?_⟩
    case refine_1 =>
      constructor
      case mp  => exact fun hl' ⟨hone, hlt⟩ => (hl.loosens hlt).not_releases (hl'.releases (by omega))
      case mpr =>
        intro hno
        have hno : ¬(v.namings t = 1 ∧ 1 < g.refs) := hno
        have hiff : (1 < g.refs) = (1 < v.namings t) := propext (by omega)
        exact hiff ▸ hl
    case refine_2 =>
      have hlt : 1 < g.refs := hlt
      exact (hrefs.resolve_left (by omega)).left
  case true =>
    have hdir : v.isDir t = .ok true := by rw [hv.isDir hg, hgd]
    refine .inr ⟨hdir, unlink_of_dir hname ht hdir, ?_⟩
    by_cases hbare : ∀ n u, v.Lists t n u → ¬Proper n
    case pos =>
      refine .inl ⟨hbare, rmdir_unnames s hv hf hfd hname ht hg hgd fun n u hu => hbare n u ?_⟩
      exact (a.lists_iff hv).mpr ⟨_, graph_eq hg, FileState.names_node hgd ▸ hu⟩
    case neg =>
      refine .inr ⟨hbare, ?_⟩
      simp only [not_forall, not_not] at hbare
      have ⟨n, u, hl, hp⟩ := hbare
      exact rmdir_of_lists hname ht hp hl

def strayFile (refs : Nat) : FileState :=
  (FileState.empty refs Mode.regular 0o100644).withEntries [⟨"x", some 1⟩]

theorem not_isDir_stray (refs : Nat) : ¬(strayFile refs).isDir :=
  FileState.not_isDir_empty refs _

def strayFiles : Nat → Option FileState :=
  Function.update (Function.update rootFiles rootInode
    (some (FileState.root.withEntries (Entries.insert FileState.root.entries ⟨"y", some 1⟩)))) 1
    (some (strayFile 2))

theorem stray_linked :
    let v := ((Operation.mknod 1 "x" 0o100644).perform fresh).2
    let w := ((Operation.link 1 rootInode "y").perform v).2
    Run [(fresh, .mknod 1 "x" 0o100644), (v, .link 1 rootInode "y")] w ∧ w.Holds strayFiles := by
  intro v w
  have ha : Operation.Admissible fresh (.mknod 1 "x" 0o100644) :=
    Operation.admissible_fresh (by decide)
  have ⟨hv, pv⟩ : v.Holds (Function.update rootFiles 1 (some (strayFile 1))) ∧ Packed 2 _ :=
    plant_next .regular settled_rootFiles holds_fresh packed_rootFiles (by decide)
      (by decide) (by decide) (by decide) (by decide) (by decide) (by decide)
  have hroot : Function.update rootFiles 1 (some (strayFile 1)) rootInode = some .root := by
    rw [Function.update_of_ne (by decide)]
    exact Function.update_self ..
  have hl : FileState.root.Lists FileState.root.entries := by
    rw [FileState.entries_root]
    exact ⟨rfl, FileState.storable_root⟩
  have hlink : (Operation.link 1 rootInode "y").perform.Ensures v
      (fun _ w => w.Holds strayFiles) Never := by
    have hlen : FileState.root.entries.length < blockSize / entrySize := by
      rw [FileState.entries_root]
      decide
    have hnew : ∀ u, ("y", u) ∉ Entries.used FileState.root.entries := by
      simp [FileState.entries_root, Entries.used, Entry.naming]
    rw [Operation.perform, ensures_bind]
    apply (link_sparse_ensures hv pv.sparse (by decide) hroot hl FileState.isDir_root hlen hnew
      (by decide) (by decide) (Function.update_self ..) (not_isDir_stray 1)
      (by decide)).mono_ok
    intro _ w hw
    rw [Function.update_comm (show 1 ≠ rootInode by decide), Function.update_idem] at hw
    exact hw
  have hc : ∀ k, ¬v.Continues k := fun k => hv.not_continues_of_sparse pv.sparse
  exact ⟨(Run.fresh ha).step ⟨hc 1, hc rootInode, by decide⟩,
    hlink.volume (fun _ _ => id) fun _ _ => False.elim⟩

theorem stray_named (a : Arranged crooked owed strayFiles) (hv : v.Holds strayFiles) :
    ∃ f, strayFiles rootInode = some f ∧ f.isDir ∧
      Entries.used f.entries = [(".", rootInode), ("..", rootInode), ("y", 1)] ∧
      lookup v rootInode "y" = .ok 1 ∧ v.namings 1 = 1 := by
  have ⟨f, hf, hd⟩ := a.exists_root
  have hone : strayFiles 1 = some (strayFile 2) := Function.update_self ..
  have he : f.entries = [⟨".", some rootInode⟩, ⟨"..", some rootInode⟩, ⟨"y", some 1⟩] := by
    obtain rfl := Option.some.inj hf
    exact entries_root_insert (by decide) (by decide)
  have hused : Entries.used f.entries = [(".", rootInode), ("..", rootInode), ("y", 1)] := by
    rw [he]
    rfl
  refine ⟨f, hf, hd, hused, ?_, ?_⟩
  case refine_1 =>
    rw [a.lookup_eq hv hf hd, he]
    rfl
  case refine_2 =>
    have hrest : ∀ d ∈ Finset.range inodeCount, d ≠ rootInode →
        (graph strayFiles d).elim 0 (·.namings 1) = 0 := by
      intro d _ hd
      by_cases h1 : d = 1
      case pos =>
        have hnone : (strayFile 2).node.names = [] := by
          rw [FileState.node, if_neg (not_isDir_stray 2)]
        rw [h1, graph_eq hone, Option.elim_some, Node.namings, hnone, List.countP_nil]
      case neg =>
        rw [graph, strayFiles, Function.update_of_ne h1, Function.update_of_ne hd, rootFiles,
          Function.update_of_ne hd]
        rfl
    rw [a.namings_eq hv hone (not_isDir_stray 2), Graph.count,
      Finset.sum_eq_single_of_mem rootInode (by decide) hrest, graph_eq hf, Option.elim_some,
      Node.namings, FileState.names_node hd, hused]
    decide

theorem removal_stray :
    let v := ((Operation.mknod 1 "x" 0o100644).perform fresh).2
    let w := ((Operation.link 1 rootInode "y").perform v).2
    let steps := [(fresh, Operation.mknod 1 "x" 0o100644), (v, Operation.link 1 rootInode "y")]
    (Run steps w ∧ w.Head rootInode ∧ w.isDir rootInode = .ok true ∧ ("y" ≠ "" ∧ Proper "y") ∧
      lookup w rootInode "y" = .ok 1) ∧
    ∃ s, stat w 1 = .ok s ∧
      ((w.isDir 1 = .ok false ∧ rmdir rootInode "y" w = (.error (.errno .notDirectory), w) ∧
          ∃ x, unlink rootInode "y" w = (.ok (), x) ∧ w.Unnames x rootInode "y" 1 (1 < s.links) ∧
            (w.Unnames x rootInode "y" 1 (1 < w.namings 1) ↔ ¬(w.namings 1 = 1 ∧ 1 < s.links)) ∧
            (w.namings 1 = 1 ∧ 1 < s.links → Planted .regular steps)) ∨
        (w.isDir 1 = .ok true ∧ unlink rootInode "y" w = (.error (.errno .isDirectory), w) ∧
          (((∀ n u, w.Lists 1 n u → ¬Proper n) ∧
              ∃ x, rmdir rootInode "y" w = (.ok (), x) ∧ w.Unnames x rootInode "y" 1 False) ∨
            (¬(∀ n u, w.Lists 1 n u → ¬Proper n) ∧
              rmdir rootInode "y" w = (.error (.errno .notEmpty), w))))) := by
  intro v w steps
  have ⟨r, hw⟩ := stray_linked
  have ⟨_, hx, _, a, _⟩ := r.settled
  obtain rfl := hx.unique hw
  have ⟨f, hf, hd, _, ht, _⟩ := stray_named a hw
  have hh : w.Head rootInode := hw.head_iff.mpr ⟨f, hf⟩
  have hdir : w.isDir rootInode = .ok true := by rw [hw.isDir hf, hd]
  exact ⟨⟨r, hh, hdir, by decide, ht⟩, r.removal hh hdir (by decide) ht⟩

theorem not_removed_stray :
    let v := ((Operation.mknod 1 "x" 0o100644).perform fresh).2
    let w := ((Operation.link 1 rootInode "y").perform v).2
    let x := (unlink rootInode "y" w).2
    Reachable w ∧ w.Head rootInode ∧ w.isDir rootInode = .ok true ∧ ("y" ≠ "" ∧ Proper "y") ∧
      lookup w rootInode "y" = .ok 1 ∧ unlink rootInode "y" w = (.ok (), x) ∧ w.namings 1 = 1 ∧
      x.inodeTaken 1 ∧ ¬w.Unnames x rootInode "y" 1 (1 < w.namings 1) := by
  intro v w x
  have ⟨r, hw⟩ := stray_linked
  have ⟨_, hx, s⟩ := r.settled
  obtain rfl := hx.unique hw
  have ⟨_, a, _⟩ := s
  have ⟨f, hf, hd, _, ht, hone⟩ := stray_named a hw
  have ⟨y, hres, hl⟩ := unlink_unnames s hw hf hd (by decide) ht (Function.update_self ..)
    (not_isDir_stray 2)
  obtain rfl : x = y := congrArg Prod.snd hres
  have hy := hl.loosens (show 1 < 2 by decide)
  have ⟨_, _, _, hchain⟩ := hy.chain
  refine ⟨r.reachable, hw.head_iff.mpr ⟨f, hf⟩, by rw [hw.isDir hf, hd], by decide, ht, hres, hone,
    inodeTaken_of_chain hchain, fun h => hy.not_releases (h.releases ?_)⟩
  rw [hone]
  exact Nat.lt_irrefl 1

end Tree
end InodeVolume
