import InodeVolume.Proofs.Directory.Room
import InodeVolume.Proofs.Tree.Faults

namespace InodeVolume

open VolumeM Volume

variable {strays crooked : Prop} {owed : Nat → Int} {files files' : Nat → Option FileState}
variable {v w x : Volume} {p i j : Nat} {f g : FileState} {name : String} {mode bits : UInt32}
variable {l : Chain} {last : Inode}

def Volume.HasRoom (v : Volume) (es : List Entry) (size : Nat) (last : Inode)
    (blocks inodes : Nat) : Prop :=
  Entries.blocksWanted es size + blocks ≤ v.freeBlocks ∧
    Entries.linksWanted es last + inodes ≤ v.freeInodes

namespace Volume

theorem Holds.admits_iff (hv : v.Holds files) (hf : files p = some f) {es : List Entry}
    (hl : f.Lists es) (hc : v.chain p = .ok (l ++ [(j, last)])) :
    v.Admits p es ↔ v.HasRoom es f.bytes.length last 0 0 := by
  have ⟨hform, hsize⟩ := hv.of_chain hf hc
  rw [HasRoom, Volume.admits_iff hc hform (hsize.trans hl.length), hl.length, Nat.add_zero,
    Nat.add_zero]

end Volume

namespace Tree

theorem addReference_touches (hv : v.Holds files) (hf : files i = some f)
    (hr : f.refs + 1 < 0x80000000) :
    (addReference i).Ensures v (fun _ w => v.Touches w {i}) Never := by
  have ⟨c, hc, hrefs, _⟩ := hv.inode hf
  rw [addReference, ensures_bind, ensures_query_ok hc]
  exact (File.put_touches hv hf hc c.mode (by omega)).mono_ok fun _ _ => And.left

theorem start_takes (hx : x.Holds files) (hi : files i = some (.empty 0 Mode.directory mode)) :
    (Directory.start i).Ensures x
      (fun _ y => y.Holds (Function.update files i (some (.started i mode))) ∧ x.Touches y {i} ∧
        y.freeBlocks + 1 = x.freeBlocks ∧ y.freeInodes = x.freeInodes)
      (fun e _ => e = .errno .noSpace ∧ x.freeBlocks = 0) := by
  have hl := FileState.lists_empty 0 Mode.directory mode
  have ⟨m, _, _, hw, _⟩ := hx.exists_walk hi
  have ⟨k, j, last, hm, _⟩ := hw.exists_last
  subst hm
  have ⟨hform, hsize⟩ := hx.of_chain hi hw.chain_eq
  have hlast : last.size < inodeCapacity := by
    rw [FileState.length_empty, Chain.size_append] at hsize
    simp only [Chain.size_cons] at hsize
    lia
  -- a directory without entries has no block, and its only link has room
  have hadmits : x.Admits i [] ↔ 1 ≤ x.freeBlocks := by
    rw [hx.admits_iff hi hl hw.chain_eq, HasRoom, FileState.length_empty]
    simp [Entries.blocksWanted, Entries.linksWanted, hlast]
  have hroom := Directory.add_admits hx hi hl (show Entry.fits "." by decide) (by decide)
    (by simp [Entries.used]) hi
  have hadd := (Directory.add_ensures hx hi hl).and (hroom.and
    ((Directory.add_confined i "." i).touches hx fun k hk => hk ▸ hx.head_iff.mpr ⟨_, hi⟩))
  rw [Directory.start, ensures_discard]
  apply hadd.mono
  case he =>
    rintro e w ⟨_, ⟨he, hfull⟩, _⟩
    rw [hadmits] at hfull
    exact ⟨he, by omega⟩
  rintro _ y ⟨⟨_, _, hy, _, hsy⟩, hroom, ht⟩
  rw [← FileState.started] at hy
  have htrails := hsy.trails_iff (hx.not_trails hi (show 0 < _ by decide))
    (hy.not_trails (Function.update_self ..) (by rw [FileState.length_started]; decide))
  have hlt := hx.lt hi
  have hblocks := hx.freeBlocks_update hy hlt
  have hinodes := hx.freeInodes_update hy hlt htrails
  simp only [hi, Option.elim_some, FileState.length_started, FileState.length_empty] at hblocks hinodes
  have h1 : blocksFor entrySize = 1 ∧ blocksFor 0 = 0 := by decide
  have h2 : linksFor entrySize = linksFor 0 := by decide
  exact ⟨hy, ht, by omega, by omega⟩

theorem place_admits (a : Arranged crooked owed files) (hi : files i = none) (hlt : i < inodeCount)
    (hp : files p = some f) (hd : f.isDir) (hn : ∀ u, (name, u) ∉ Entries.used f.entries)
    (hfit : Entry.fits name) (hplain : Entry.Plain name)
    (hk : (NodeKind.ofMode mode).bits? = some bits)
    (hx : x.Holds (Function.update files i (some (.empty 0 bits mode))))
    (hl : x.chain p = .ok (l ++ [(j, last)])) :
    (mknod.place p name (NodeKind.ofMode mode) i).Ensures x
      (fun _ w => x.HasRoom f.entries f.bytes.length last (firstBlocks mode) 0 ∧
        x.Touches w {p, i})
      (fun e _ => e = .errno .noSpace ∧
        ¬x.HasRoom f.entries f.bytes.length last (firstBlocks mode) 0) := by
  have hne : i ≠ p := by
    intro e
    simp [e, hp] at hi
  have hpx : Function.update files i (some (FileState.empty 0 bits mode)) p = some f := by
    rw [Function.update_of_ne hne.symm, hp]
  have hheads : ∀ {y : Volume} {g : FileState}, y.Holds (Function.update files i (some g)) →
      ∀ k ∈ ({p, i} : Set Nat), y.Head k := by
    rintro y g hy k (rfl | rfl)
    case inl => exact hy.head_iff.mpr ⟨f, by rw [Function.update_of_ne hne.symm, hp]⟩
    case inr => exact hy.head_iff.mpr ⟨g, Function.update_self ..⟩
  have hlists := a.lists hp hd
  rw [mknod.place]
  cases hkind : NodeKind.ofMode mode
  case unknown => simp [hkind, NodeKind.bits?] at hk
  case regular =>
    simp only [hkind, NodeKind.bits?, Option.some.injEq] at hk
    subst hk
    rw [if_neg (by decide), ensures_discard, firstBlocks, hkind, if_neg (by decide),
      ← hx.admits_iff hpx hlists hl]
    apply ((Directory.attach_file_admits hx hpx hlists hfit hplain hn (Function.update_self ..)
      (FileState.not_isDir_empty 0 mode)).and
      ((Directory.attach_confined p name i).touches hx (hheads hx))).mono
    case ho => exact fun _ _ => id
    case he => exact fun _ _ => And.left
  case directory =>
    simp only [hkind, NodeKind.bits?, Option.some.injEq] at hk
    subst hk
    rw [if_pos rfl, ensures_bind, firstBlocks, hkind, if_pos rfl]
    apply (start_takes hx (Function.update_self ..)).mono
    case he =>
      rintro e w ⟨he, hzero⟩
      refine ⟨he, fun h => ?_⟩
      have := h.left
      omega
    rintro _ y ⟨hy, hty, hblocks, hinodes⟩
    rw [Function.update_idem] at hy
    have hpy : Function.update files i (some (FileState.started i mode)) p = some f := by
      rw [Function.update_of_ne hne.symm, hp]
    have hly : y.chain p = .ok (l ++ [(j, last)]) := by
      rw [hty.chain (by simpa using hne.symm) (hheads hx p (by simp)), hl]
    -- the new directory has taken the block that is asked for in addition
    have hroom : y.Admits p f.entries ↔ x.HasRoom f.entries f.bytes.length last 1 0 := by
      rw [hy.admits_iff hpy hlists hly, HasRoom, HasRoom]
      omega
    rw [ensures_discard, ← hroom]
    apply ((Directory.attach_dir_admits hy hpy hlists hfit hplain hn (Function.update_self ..)
      (FileState.lists_started hlt mode) (FileState.isDir_started i mode) hne
      (FileState.takes_started i mode)).and
      ((Directory.attach_confined p name i).touches hy (hheads hy))).mono
    case ho =>
      rintro _ w ⟨h, ht⟩
      exact ⟨h, (hty.mono (by simp)).trans ht⟩
    case he => exact fun _ _ => And.left

theorem mknod_takes (a : Arranged crooked owed files) (hv : v.Holds files) (hp : files p = some f)
    (hd : f.isDir) (hn : ∀ u, (name, u) ∉ Entries.used f.entries) (hname : name ≠ "" ∧ Proper name)
    (hfit : Entry.fits name) (hplain : Entry.Plain name)
    (hk : (NodeKind.ofMode mode).bits? = some bits) (hl : v.chain p = .ok (l ++ [(j, last)])) :
    (mknod p name mode).Ensures v
      (fun i w => v.HasRoom f.entries f.bytes.length last (firstBlocks mode) 1 ∧
        (¬v.inodeTaken i ∧ ∀ k < i, v.inodeTaken k) ∧ v.Touches w {p, i} ∧
        ∃ files', Made files p name mode 1 i files' ∧ w.Holds files')
      (fun e _ => e = .errno .noSpace ∧
        ¬v.HasRoom f.entries f.bytes.length last (firstBlocks mode) 1) := by
  have habsent : lookup v p name = .error (.errno .notFound) := by
    rw [a.lookup_eq hv hp hd, Entries.find_eq_none.mpr hn]
  rw [mknod, ensures_bind, ensures_guardName hname]
  dsimp only
  rw [hk]
  dsimp only
  rw [ensures_bind, Arranged.ensures_expectAbsent habsent, ensures_bind]
  apply ((File.alloc_ensures hv).and (File.alloc_touches hv)).mono
  case he =>
    rintro e w ⟨⟨he, _, hall⟩, _⟩
    have hzero := exhausted_iff.mp hall
    refine ⟨he, fun h => ?_⟩
    have := h.right
    omega
  rintro i x ⟨⟨hlt, hfree, hi, hx, hleast, _, htx⟩, hvx⟩
  have hne : i ≠ p := by
    intro e
    simp [e, hp] at hi
  obtain ⟨c, hc, hrefs, _, hput⟩ := File.exists_inode hx (Function.update_self ..)
  rw [ensures_bind, ensures_query_ok hc, ensures_bind]
  have hrefs0 : c.refs < 0x80000000 := by rw [hrefs]; decide
  have hput := (hput c.refs (bits ||| Mode.permissions mode) hrefs0).and_never
    (File.put_touches hx (Function.update_self ..) hc (bits ||| Mode.permissions mode) hrefs0)
  apply hput.mono_never
  rintro _ y ⟨⟨hy, _, hty⟩, hxy, _⟩
  rw [Function.update_idem, hrefs] at hy
  have hvy : v.Touches y {p, i} := (hvx.trans hxy).mono (by simp)
  have hly : y.chain p = .ok (l ++ [(j, last)]) := by
    rw [(hvx.trans hxy).chain (by simpa using hne.symm) (hv.head_iff.mpr ⟨f, hp⟩), hl]
  -- the new file has taken its inode, and no block yet
  have hroom : y.HasRoom f.entries f.bytes.length last (firstBlocks mode) 0 ↔
      v.HasRoom f.entries f.bytes.length last (firstBlocks mode) 1 := by
    have hinodes := hv.freeInodes_update hy hlt fun k => (hty k).trans (htx k)
    have hblocks := hv.freeBlocks_update hy hlt
    simp only [hi, Option.elim_some, Option.elim_none, List.length_nil] at hinodes hblocks
    have h1 : blocksFor 0 = 0 ∧ linksFor 0 = 1 := by decide
    rw [HasRoom, HasRoom]
    omega
  rw [ensures_bind, ensures_attempt]
  have hplace := (place_ensures a hi hlt hp hd hn hk hy).and
    (place_admits a hi hlt hp hd hn hfit hplain hk hy hly)
  rw [hroom] at hplace
  apply hplace.mono
  case ho =>
    rintro _ z ⟨⟨_, files', hm, hz⟩, hr, hyz⟩
    obtain ⟨g, hg, hgr, hm'⟩ := hm.refer 1
    have hone : g.refs + 1 < 0x80000000 := by rw [hgr]; decide
    dsimp only
    rw [ensures_bind]
    apply ((addReference_ensures hz hg hone).and_never (addReference_touches hz hg hone)).mono_never
    rintro _ w ⟨hw, hzw⟩
    rw [hgr] at hw
    refine ⟨hr, ?_, (hvy.trans hyz).trans (hzw.mono (by simp)), _, hm', hw⟩
    simp only [← isSome_link?, hfree]
    exact ⟨by decide, hleast⟩
  case he =>
    rintro e z ⟨⟨_, ⟨g, hz⟩, _⟩, rfl, hr⟩
    dsimp only
    rw [ensures_bind, ensures_discard, ensures_attempt]
    apply (File.delete_ensures hz (Function.update_self ..)).mono_never
    exact fun _ _ _ => ⟨rfl, hr⟩

end Tree

namespace Made

variable {refs : Nat}

theorem apart (m : Made files p name mode refs i files') (hp : files p = some f) :
    i ≠ p ∧ i < inodeCount ∧ (∀ k ≠ p, k ≠ i → files' k = files k) ∧
      files' p = some (f.withEntries (Entries.insert f.entries ⟨name, some i⟩)) ∧
      (NodeKind.ofMode mode = .regular ∧ files' i = some (.empty refs Mode.regular mode) ∨
        NodeKind.ofMode mode = .directory ∧ files' i =
          some ((FileState.empty refs Mode.directory mode).withEntries
            [⟨".", some i⟩, ⟨"..", some p⟩])) := by
  have hne : files i = none → i ≠ p := by
    intro hi e
    simp [e, hp] at hi
  cases m
  case strayFile hn _      => simp [hp] at hn
  case strayDirectory hn _ => simp [hp] at hn
  case file hk hf _ _ hi hlt =>
    obtain rfl := Option.some.inj (hp.symm.trans hf)
    refine ⟨hne hi, hlt, fun k hkp hki => ?_, ?_, .inl ⟨hk, Function.update_self ..⟩⟩
    case refine_1 => rw [Function.update_of_ne hki, Function.update_of_ne hkp]
    case refine_2 => rw [Function.update_of_ne (hne hi).symm, Function.update_self]
  case directory hk hf _ _ hi hlt =>
    obtain rfl := Option.some.inj (hp.symm.trans hf)
    refine ⟨hne hi, hlt, fun k hkp hki => ?_, ?_, .inr ⟨hk, Function.update_self ..⟩⟩
    case refine_1 => rw [Function.update_of_ne hki, Function.update_of_ne hkp]
    case refine_2 => rw [Function.update_of_ne (hne hi).symm, Function.update_self]

end Made

-- What making something makes of a volume. What is made has the lowest number that was free, and its
-- name is in a slot that was free or is new. No other slot of the directory changes, and no other file.
structure Volume.Makes (v w : Volume) (p : Nat) (name : String) (mode : UInt32) (i : Nat) : Prop where
  lowest    : i < inodeCount ∧ ¬v.inodeTaken i ∧ ∀ k < i, v.inodeTaken k
  heads     : ∀ k, w.Head k ↔ v.Head k ∨ k = i
  lookup    : Tree.lookup w p name = .ok i
  regular   : NodeKind.ofMode mode = .regular →
    Tree.stat w i = .ok ⟨i, 0, 0, Mode.regular ||| Mode.permissions mode, 1⟩
  directory : NodeKind.ofMode mode = .directory →
    Tree.stat w i = .ok ⟨i, 2 * entrySize, 1, Mode.directory ||| Mode.permissions mode, 1⟩ ∧
    Tree.list w i = .ok [(".", i), ("..", p)]
  slots     : ∃ (es fs : List Entry) (k : Nat), v.slots p = .ok es ∧ w.slots p = .ok fs ∧
    fs[k]? = some ⟨name, some i⟩ ∧ (∀ e, es[k]? = some e → e.isFree) ∧ ∀ j ≠ k, fs[j]? = es[j]?
  others    : ∀ k, v.Head k → k ≠ p → w.chain k = v.chain k ∧ w.view k = v.view k

theorem Made.makes (m : Made files p name mode 1 i files') (s : Settled strays crooked files)
    (hv : v.Holds files) (hw : w.Holds files') (hp : files p = some f) (hd : f.isDir)
    (hname : Proper name) (hfit : Entry.fits name) (hplain : Entry.Plain name)
    (hfree : ¬v.inodeTaken i ∧ ∀ k < i, v.inodeTaken k) (ht : v.Touches w {p, i}) :
    v.Makes w p name mode i := by
  have ⟨_, a, _⟩ := s
  have ⟨_, a', _⟩ := m.settled s hfit hplain hname
  have ⟨hne, hlt, hsame, hp', hnew⟩ := m.apart hp
  have hl := (a.lists hp hd).insert (.used hfit hplain hlt : Entry.Storable ⟨name, some i⟩)
  have hne' : ∀ k, v.Head k → k ≠ i := fun k hk e => hfree.left (e ▸ hk.left)
  have hdistinct := a'.distinct hp' hd
  rw [hl.entries] at hdistinct
  constructor
  case lowest => exact ⟨hlt, hfree⟩
  case heads =>
    intro k
    rw [hw.head_iff, hv.head_iff]
    by_cases hkp : k = p
    case pos => exact hkp ▸ iff_of_true ⟨_, hp'⟩ (.inl ⟨f, hp⟩)
    case neg =>
      by_cases hki : k = i
      case pos =>
        refine iff_of_true ?_ (.inr hki)
        exact hki ▸ hnew.elim (fun h => ⟨_, h.right⟩) fun h => ⟨_, h.right⟩
      case neg => rw [hsame k hkp hki, or_iff_left hki]
  case lookup =>
    rw [a'.lookup_eq hw hp' hd, hl.entries,
      Entries.find_of_getElem? hdistinct (Entries.getElem?_insert_place ..)]
  case regular =>
    intro hk
    obtain ⟨_, hg⟩ := hnew.resolve_right fun h => by simp [hk] at h
    rw [hw.stat hg, FileState.view, FileState.length_empty, blocksFor_zero]
    rfl
  case directory =>
    intro hk
    obtain ⟨_, hg⟩ := hnew.resolve_left fun h => by simp [hk] at h
    have hs : ∀ e ∈ [⟨".", some i⟩, (⟨"..", some p⟩ : Entry)], e.Storable := by
      simp only [List.mem_cons, List.not_mem_nil, or_false]
      rintro e (rfl | rfl)
      case inl => exact .used (by decide) (by decide) hlt
      case inr => exact .used (by decide) (by decide) (a.lt hp)
    have hlen : ((FileState.empty 1 Mode.directory mode).withEntries
        [⟨".", some i⟩, ⟨"..", some p⟩]).bytes.length = 2 * entrySize := Entries.length_bytes _
    constructor
    case left =>
      rw [hw.stat hg, FileState.view, hlen]
      rfl
    case right =>
      rw [a'.list_eq hw hg (FileState.isDir_empty 1 mode), FileState.entries_withEntries hs]
      rfl
  case slots =>
    refine ⟨f.entries, _, Entries.place f.entries, hv.slots hp (a.lists hp hd), hw.slots hp' hl,
      Entries.getElem?_insert_place .., fun _ => Entries.isFree_place,
      fun _ => Entries.getElem?_insert_of_ne _⟩
  case others =>
    intro k hk hkp
    obtain ⟨g, hg⟩ := hv.head_iff.mp hk
    refine ⟨ht.chain (by simp [hkp, hne' k hk]) hk, ?_⟩
    rw [a.view_eq hv hg, a'.view_eq hw (hsame k hkp (hne' k hk) ▸ hg)]

theorem NodeKind.exists_bits (hk : Mode.kindBits mode = 0 ∨ Mode.kindBits mode = Mode.regular ∨
    Mode.kindBits mode = Mode.directory) : ∃ bits, (ofMode mode).bits? = some bits := by
  rw [ofMode]
  obtain hk | hk | hk := hk
  case inl      => exact ⟨_, by rw [if_pos (.inl hk)]; rfl⟩
  case inr.inl  => exact ⟨_, by rw [if_pos (.inr hk)]; rfl⟩
  case inr.inr  => exact ⟨_, by rw [hk]; rfl⟩

namespace Tree

-- In a directory of a tree, something is made just if there is an inode for it, for a directory a
-- block as well, and what another entry needs. It has the lowest number that was free, and nothing
-- else changes but the directory.
theorem Reachable.mknod_exact (r : Reachable v) (hh : v.Head p) (hd : v.isDir p = .ok true)
    (hname : name ≠ "" ∧ Proper name) (hfit : Entry.fits name) (hplain : Entry.Plain name)
    (habsent : lookup v p name = .error (.errno .notFound))
    (hk : Mode.kindBits mode = 0 ∨ Mode.kindBits mode = Mode.regular ∨
      Mode.kindBits mode = Mode.directory) :
    ∃ es size l j last, v.slots p = .ok es ∧ v.fileSize p = .ok size ∧
      v.chain p = .ok (l ++ [(j, last)]) ∧
      ((v.HasRoom es size last (firstBlocks mode) 1 ∧
          ∃ i w, mknod p name mode v = (.ok i, w) ∧ v.Makes w p name mode i) ∨
        ¬v.HasRoom es size last (firstBlocks mode) 1 ∧
          (mknod p name mode v).1 = .error (.errno .noSpace)) := by
  have ⟨_, r⟩ := r
  have ⟨files, hv, s⟩ := r.settled
  have ⟨_, a, _⟩ := s
  have ⟨f, hf⟩ := hv.head_iff.mp hh
  have hfd : f.isDir := by rwa [hv.isDir hf, Except.ok.injEq] at hd
  have hn := a.not_mem_of_lookup hv hf hfd habsent
  have ⟨bits, hbits⟩ := NodeKind.exists_bits hk
  have ⟨m, _, _, hw, _⟩ := hv.exists_walk hf
  have ⟨l, j, last, hm, _⟩ := hw.exists_last
  subst hm
  refine ⟨f.entries, _, l, j, last, hv.slots hf (a.lists hf hfd), hv.fileSize hf, hw.chain_eq, ?_⟩
  have h := mknod_takes a hv hf hfd hn hname hfit hplain hbits hw.chain_eq
  rcases hr : mknod p name mode v with ⟨e | i, w⟩
  case error =>
    have ⟨he, hroom⟩ := h.of_error hr
    exact .inr ⟨hroom, by rw [he]⟩
  case ok =>
    have ⟨hroom, hfree, ht, _, hm, hw⟩ := h.of_ok hr
    exact .inl ⟨hroom, _, w, rfl, hm.makes s hv hw hf hfd hname.right hfit hplain hfree ht⟩

theorem mknod_exact_fresh :
    let mode := 0o040755
    (Reachable fresh ∧ fresh.Head rootInode ∧ fresh.isDir rootInode = .ok true ∧
      ("a" ≠ "" ∧ Proper "a") ∧ Entry.fits "a" ∧ Entry.Plain "a" ∧
      lookup fresh rootInode "a" = .error (.errno .notFound) ∧
      Mode.kindBits mode = Mode.directory) ∧
      ∃ es size l j last, fresh.slots rootInode = .ok es ∧ fresh.fileSize rootInode = .ok size ∧
        fresh.chain rootInode = .ok (l ++ [(j, last)]) ∧
        ((fresh.HasRoom es size last (firstBlocks mode) 1 ∧
            ∃ i w, mknod rootInode "a" mode fresh = (.ok i, w) ∧
              fresh.Makes w rootInode "a" mode i) ∨
          ¬fresh.HasRoom es size last (firstBlocks mode) 1 ∧
            (mknod rootInode "a" mode fresh).1 = .error (.errno .noSpace)) := by
  intro mode
  have r := Run.start_fresh.reachable
  have hroot : rootFiles rootInode = some .root := Function.update_self ..
  have hh : fresh.Head rootInode := holds_fresh.head_root
  have hd : fresh.isDir rootInode = .ok true := by rw [holds_fresh.isDir hroot]; rfl
  have ha : lookup fresh rootInode "a" = .error (.errno .notFound) := by
    have ⟨_, a, _⟩ := settled_rootFiles
    rw [a.lookup_eq holds_fresh hroot FileState.isDir_root, FileState.entries_root]
    rfl
  have hk : Mode.kindBits mode = Mode.directory := by decide
  exact ⟨⟨r, hh, hd, by decide, by decide, by decide, ha, hk⟩,
    r.mknod_exact hh hd (by decide) (by decide) (by decide) ha (.inr (.inr hk))⟩

end Tree
end InodeVolume
