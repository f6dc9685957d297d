import InodeVolume.Proofs.Directory.Room
import InodeVolume.Proofs.Tree.Paths
import InodeVolume.Proofs.Tree.Shifting
import InodeVolume.Proofs.Tree.Space

namespace InodeVolume

open VolumeM Volume

variable {strays crooked : Prop} {owed : Nat → Int} {files files' : Nat → Option FileState}
variable {v w : Volume} {p q t d u : Nat} {f g : FileState} {n m : String}

theorem Volume.walk_congr {within : Nat → Prop}
    (hlookup : ∀ d c, within d → c ≠ ".." →
      Tree.lookup w d c = Tree.lookup v d c ∧ ∀ x, Tree.lookup v d c = .ok x → within x)
    (cs : List String) (hcs : ".." ∉ cs) (hd : within d) : w.walk d cs = v.walk d cs := by
  induction cs generalizing d
  case nil => rfl
  case cons c cs hi =>
    rw [List.mem_cons, not_or] at hcs
    rw [walk_cons, walk_cons]
    by_cases hempty : c = ""
    case pos => rw [if_pos hempty, if_pos hempty, hi hcs.right hd]
    case neg =>
      have ⟨hsame, hnext⟩ := hlookup d c hd (Ne.symm hcs.left)
      rw [if_neg hempty, if_neg hempty, hsame]
      cases hx : Tree.lookup v d c
      case error => rfl
      case ok x  => exact hi hcs.right (hnext x hx)

-- What moving an entry makes of a volume. Paths from the file that do not go up lead where they led,
-- unless the file was above the directory that it was in.
structure Volume.Moves (v w : Volume) (p : Nat) (n : String) (q : Nat) (m : String) (t : Nat) :
    Prop where
  lost    : Tree.lookup w p n = .error (.errno .notFound)
  found   : Tree.lookup w q m = .ok t
  entries : ∃ i j c, Shifts v.Carries w.Carries p n q m t (v.isDir t = .ok true) i j c
  heads   : ∀ h, w.Head h ↔ v.Head h
  stats   : ∀ h, v.Head h → ∃ x y, Tree.stat v h = .ok x ∧ Tree.stat w h = .ok y ∧
    y.mode = x.mode ∧ y.links = x.links
  files   : ∀ h, v.Head h → v.isDir h = .ok false → w.view h = v.view h
  paths   : (v.isDir t = .ok true → ¬v.Encloses t p) → ∀ path, ".." ∉ Path.components path →
    w.resolve t path = v.resolve t path

theorem Volume.Encloses.eq_or_isDir (h : v.Encloses t d) : d = t ∨ v.isDir t = .ok true := by
  rcases Relation.ReflTransGen.cases_head h with h | ⟨e, ⟨_, _, _, _, hl, _⟩, _⟩
  case inl => exact .inl h.symm
  case inr => exact .inr (Tree.slots_of_list hl).left

theorem Volume.not_encloses_of_isDir (hd : v.isDir d = .ok true)
    (h : v.isDir t = .ok true → ¬v.Encloses t d) : ¬v.Encloses t d := by
  intro he
  rcases he.eq_or_isDir with rfl | ht
  case inl => exact h hd he
  case inr => exact h ht he

namespace Arranged

variable {crooked' : Prop} {owed' : Nat → Int}

theorem encloses_of_lookup (a : Arranged crooked owed files) (hv : v.Holds files)
    (hf : files d = some f) (hd : f.isDir) (he : v.Encloses t d) (hn : n ≠ "..")
    (hl : Tree.lookup v d n = .ok u) : v.Encloses t u ∧ ∃ x, files u = some x := by
  have ⟨k, hk⟩ := (a.lookup_iff hv hf hd).mp hl
  have ⟨x, hx, _, hm⟩ := mem_of_carries hk
  refine ⟨?_, Option.isSome_iff_exists.mp (isSome_graph ▸ a.consistent.named d _ n u hx hm)⟩
  by_cases hself : n = "."
  case pos => exact a.consistent.eq_of_self hx (hself ▸ hm) ▸ he
  case neg => exact he.tail ((a.child_iff hv).mpr ⟨x, n, hx, ⟨hself, hn⟩, hm⟩)

theorem lookup_congr (a : Arranged crooked owed files) (a' : Arranged crooked' owed' files')
    (hv : v.Holds files) (hw : w.Holds files') (hf : files d = some f) (hg : files' d = some g)
    (hd : g.isDir = f.isDir) (hsame : ∀ k u, Carries files' d k n u ↔ Carries files d k n u) :
    Tree.lookup w d n = Tree.lookup v d n := by
  by_cases hfd : f.isDir
  case neg => rw [lookup_of_file hv hf hfd, lookup_of_file hw hg (hd ▸ hfd)]
  case pos =>
    have hgd : g.isDir := hd.trans hfd
    by_cases hex : ∃ k u, Carries files d k n u
    case pos =>
      have ⟨k, u, hk⟩ := hex
      rw [(a.lookup_iff hv hf hfd).mpr ⟨k, hk⟩, (a'.lookup_iff hw hg hgd).mpr ⟨k, (hsame k u).mpr hk⟩]
    case neg =>
      simp only [not_exists] at hex
      rw [(a.lookup_error_iff hv hf hfd).mpr hex,
        (a'.lookup_error_iff hw hg hgd).mpr fun k u hk => hex k u ((hsame k u).mp hk)]

theorem walk_eq (a : Arranged crooked owed files) (a' : Arranged crooked' owed' files')
    (hv : v.Holds files) (hw : w.Holds files') {dir : Prop} {i j c : Nat}
    (h : Shifts (Carries files) (Carries files') p n q m t dir i j c)
    (hdirs : ∀ d x, files d = some x → ∃ y, files' d = some y ∧ y.isDir = x.isDir)
    (hg : files t = some g) (hp : ¬v.Encloses t p) (hq : ¬v.Encloses t q) (cs : List String)
    (hcs : ".." ∉ cs) : w.walk t cs = v.walk t cs := by
  let within (d : Nat) : Prop := v.Encloses t d ∧ ∃ x, files d = some x
  have ht : within t := ⟨.refl, g, hg⟩
  refine walk_congr (fun d b ⟨hd, x, hx⟩ hb => ?_) cs hcs ht
  have ⟨y, hy, hyd⟩ := hdirs d x hx
  have hdp : d ≠ p := fun e => hp (e ▸ hd)
  have hdq : d ≠ q := fun e => hq (e ▸ hd)
  refine ⟨a.lookup_congr a' hv hw hx hy hyd fun k u => h.same Carries.unique hdp hdq hb, fun u hu => ?_⟩
  by_cases hxd : x.isDir
  case pos => exact a.encloses_of_lookup hv hx hxd hd hb hu
  case neg => simp [lookup_of_file hv hx hxd] at hu

end Arranged

theorem Moved.moves (hm : Moved files p n q m t files') (mv : Movable files p n q m t)
    (s : Settled strays crooked files) (hv : v.Holds files) (hw : w.Holds files')
    (hplain : Entry.Plain m) (hbelow : v.isDir t = .ok true → ¬v.Encloses t q) :
    v.Moves w p n q m t := by
  have ⟨⟨_, a', _⟩, _⟩ := hm.settled mv s hplain
  have ⟨i, j, c, h⟩ := hm.shifts mv s hplain
  have ⟨_, a, _⟩ := s
  have ⟨f, _, hf, hfd, _⟩ := mv.target
  have ⟨e, he, hed, habsent⟩ := mv.parent
  have hcore := hm.core (Arranged.isDir_iff.mpr ⟨f, hf, hfd⟩) (Arranged.isDir_iff.mpr ⟨e, he, hed⟩)
  have ⟨f', hf', hcf⟩ := FileState.exists_of_core hcore hf
  have ⟨e', he', hce⟩ := FileState.exists_of_core hcore he
  have hfd' : f'.isDir := (FileState.isDir_of_core hcf).trans hfd
  have hed' : e'.isDir := (FileState.isDir_of_core hce).trans hed
  have hmem := Entries.mem_used.mpr (List.mem_of_getElem? ((Carries.iff_of_eq hf hfd).mp h.source))
  have ⟨g, hg⟩ := a.exists_target hf hfd hmem
  constructor
  case entries =>
    have hdir : (graph files).IsDir t ↔ v.isDir t = .ok true := by
      rw [hv.isDir hg, Except.ok.injEq, Arranged.isDir_iff]
      simp [hg]
    rw [a.carries_eq hv, a'.carries_eq hw, ← hdir]
    exact ⟨i, j, c, h⟩
  case lost =>
    refine (a'.lookup_error_iff hw hf' hfd').mpr fun k x hk => ?_
    rcases (h.entries ..).mp hk with ⟨rfl, _, rfl, _⟩ | ⟨_, _, _, hn, _⟩ | ⟨hk, hne, _⟩
    case inr.inl => exact mv.proper.right hn
    case inr.inr => exact hne ⟨rfl, a.slot_unique hk h.source⟩
    case inl =>
      obtain rfl := Option.some.inj (hf.symm.trans he)
      exact habsent t hmem
  case found =>
    exact (a'.lookup_iff hw he' hed').mpr ⟨j, (h.entries ..).mpr (.inl ⟨rfl, rfl, rfl, rfl⟩)⟩
  case heads =>
    intro k
    rw [hw.head_iff, hv.head_iff, ← Option.isSome_iff_exists, ← Option.isSome_iff_exists,
      ← Option.isSome_map, hcore, Option.isSome_map]
  case stats =>
    intro k hk
    have ⟨x, hx⟩ := hv.head_iff.mp hk
    have ⟨y, hy, hxy⟩ := FileState.exists_of_core hcore hx
    have ⟨hr, hxy⟩ := Prod.mk.inj hxy
    exact ⟨_, _, hv.stat hx, hw.stat hy, (Prod.mk.inj hxy).left, hr⟩
  case files =>
    intro k hk hd
    have ⟨x, hx⟩ := hv.head_iff.mp hk
    have ⟨y, hy, hxy⟩ := FileState.exists_of_core hcore hx
    obtain rfl := FileState.eq_of_core hxy ((hv.regular_iff hx).mp hd)
    rw [a.view_eq hv hx, a'.view_eq hw hy]
  case paths =>
    intro habove path hpath
    have hdirs : ∀ d x, files d = some x → ∃ y, files' d = some y ∧ y.isDir = x.isDir := fun d x hx =>
      (FileState.exists_of_core hcore hx).imp fun _ => And.imp_right FileState.isDir_of_core
    have hp := not_encloses_of_isDir (by rw [hv.isDir hf, hfd]) habove
    have hq := not_encloses_of_isDir (by rw [hv.isDir he, hed]) hbelow
    exact a.walk_eq a' hv hw h hdirs hg hp hq _ hpath

theorem Declined.cause (a : Arranged crooked owed files) (hv : v.Holds files) (hf : files q = some f)
    (hd : f.isDir) (habsent : ∀ u, (m, u) ∉ Entries.used f.entries) (hplain : Entry.Plain m)
    (hg : files t = some g) {e : Fault} (h : Declined v files q m t e w) :
    if Entry.fits m then e = .errno .noSpace ∧ ¬v.Admits q f.entries else e = .errno .nameTooLong := by
  have ⟨_, _, _, hr⟩ := h
  by_cases hfit : Entry.fits m
  case pos =>
    rw [if_pos hfit]
    exact (Directory.add_admits hv hf (a.lists hf hd) hfit hplain habsent hg).of_error hr
  case neg =>
    have hlong : Directory.add q m t v = (.error (.errno .nameTooLong), v) := by
      rw [Directory.add, if_pos (by simpa using hfit)]
      rfl
    rw [if_neg hfit]
    exact (Except.error.inj (Prod.mk.inj (hlong.symm.trans hr)).left).symm

namespace Tree

variable {steps : List (Volume × Operation)}

section

variable (hn : n ≠ "" ∧ Proper n) (hm : m ≠ "" ∧ Proper m) (ht : lookup v p n = .ok t)
variable (habsent : lookup v q m = .error (.errno .notFound))

include hn hm ht habsent

theorem rename_of_within (hdir : v.isDir t = .ok true) (hw : isWithin v t q = .ok true) :
    rename p n q m v = (.error (.errno .invalid), v) := by
  have hwithin : query (isWithin · t q) v = (.ok true, v) := query_of_ok hw
  rw [rename_apply hn hm ht habsent hdir]
  exact bind_of_ok hwithin _

theorem rename_of_apart {moved : Bool} (hdir : v.isDir t = .ok moved)
    (hw : moved = true → isWithin v t q = .ok false) :
    rename p n q m v = moveEntry p n q m t moved v := by
  rw [rename_apply hn hm ht habsent hdir]
  cases moved
  case false => rfl
  case true  =>
    have hwithin : query (isWithin · t q) v = (.ok false, v) := query_of_ok (hw rfl)
    exact bind_of_ok hwithin _

end

theorem moveEntry_moves (s : Settled strays crooked files) (hv : v.Holds files)
    (hf : files p = some f) (hfd : f.isDir) (hq : v.Head q) (hqd : v.isDir q = .ok true)
    (hn : Proper n) (hm : Proper m) (hplain : Entry.Plain m) (ht : lookup v p n = .ok t)
    (habsent : lookup v q m = .error (.errno .notFound)) (hg : files t = some g)
    (hbelow : v.isDir t = .ok true → ¬v.Encloses t q)
    (heq : rename p n q m v = moveEntry p n q m t g.isDir v) :
    if Entry.fits m then
      ((rename p n q m v).1 = .error (.errno .noSpace) ∧ ∃ es, v.slots q = .ok es ∧ ¬v.Admits q es) ∨
        ∃ w, rename p n q m v = (.ok (), w) ∧ v.Moves w p n q m t
    else (rename p n q m v).1 = .error (.errno .nameTooLong) := by
  have ⟨_, a, _⟩ := s
  have ⟨e, he⟩ := hv.head_iff.mp hq
  have hed : e.isDir := by rwa [hv.isDir he, Except.ok.injEq] at hqd
  have ⟨i, hfind⟩ := a.find_of_lookup hv hf hfd ht
  have hno := a.not_mem_of_lookup hv he hed habsent
  have htq : g.isDir → t ≠ q := by
    rintro hgd rfl
    exact hbelow (by rw [hv.isDir hg, hgd]) .refl
  have hmove := moveEntry_ensures a hv hf hfd hfind hg hn hm hplain he hed hno htq
  rcases hres : moveEntry p n q m t g.isDir v with ⟨err | _, w⟩
  case error =>
    have hcause := (hmove.of_error hres).cause a hv he hed hno hplain hg
    rw [heq, hres]
    split at hcause
    case isTrue hfit =>
      rw [if_pos hfit]
      exact .inl ⟨congrArg Except.error hcause.left, _, hv.slots he (a.lists he hed), hcause.right⟩
    case isFalse hfit =>
      rw [if_neg hfit]
      exact congrArg Except.error hcause
  case ok =>
    rw [hres] at heq
    have ⟨t', files', mv, hmoved, hw⟩ :=
      (rename_ensures a hv (.inl ⟨f, hf⟩) (.inl ⟨e, he⟩) hplain).of_ok heq
    have ⟨f', _, hf', _, hfind'⟩ := mv.target
    obtain rfl := Option.some.inj (hf.symm.trans hf')
    obtain ⟨rfl, rfl⟩ := Prod.mk.inj (Option.some.inj (hfind.symm.trans hfind'))
    rw [if_pos mv.fits]
    exact .inr ⟨w, heq, hmoved.moves mv s hv hw hplain hbelow⟩

-- A directory is not moved to where it would be above itself. Apart from that an entry is moved if
-- the new name fits and the other directory has room for it, and nothing else changes. Only a
-- directory for which the way up does not end stands in the way, and one that a file is above
-- changes more. There are such ones only where a directory has been planted.
theorem Run.renaming (r : Run steps v) (hp : v.Head p) (hpd : v.isDir p = .ok true)
    (hq : v.Head q) (hqd : v.isDir q = .ok true) (hn : n ≠ "" ∧ Proper n) (hm : m ≠ "" ∧ Proper m)
    (hplain : Entry.Plain m) (ht : lookup v p n = .ok t)
    (habsent : lookup v q m = .error (.errno .notFound)) :
    ((rename p n q m v).1 = .error (.errno .invalid) ↔ v.isDir t = .ok true ∧ v.Encloses t q) ∧
    (v.isDir t = .ok true ∧ v.Circles t q → rename p n q m v = (.error (.errno .io), v)) ∧
    (¬(v.isDir t = .ok true ∧ v.Encloses t q) → ¬(v.isDir t = .ok true ∧ v.Circles t q) →
      if Entry.fits m then
        ((rename p n q m v).1 = .error (.errno .noSpace) ∧
            ∃ es, v.slots q = .ok es ∧ ¬v.Admits q es) ∨
          ∃ w, rename p n q m v = (.ok (), w) ∧ v.Moves w p n q m t
      else (rename p n q m v).1 = .error (.errno .nameTooLong)) ∧
    (v.isDir t = .ok true → v.Circles t q ∨ v.Encloses t p → Planted .directory steps) := by
  have ⟨files, hv, s⟩ := r.settled
  have ⟨_, a, _⟩ := s
  have ⟨f, hf⟩ := hv.head_iff.mp hp
  have hfd : f.isDir := by rwa [hv.isDir hf, Except.ok.injEq] at hpd
  have hqdir : (graph files).IsDir q := by
    have ⟨e, he⟩ := hv.head_iff.mp hq
    rw [hv.isDir he, Except.ok.injEq] at hqd
    exact Arranged.isDir_iff.mpr ⟨e, he, hqd⟩
  have ⟨i, hfind⟩ := a.find_of_lookup hv hf hfd ht
  have hmem := Entries.mem_used_of_find hfind
  have ⟨g, hg⟩ := a.exists_target hf hfd hmem
  have hnames : (graph files).Names p t :=
    ⟨_, n, graph_eq hf, hn.right, FileState.names_node hfd ▸ hmem⟩
  have hcases := s.isWithin_cases hv (s.ne_root ⟨p, hnames⟩) hqdir
  -- nothing is against it where the new place is not below it and the way up ends
  have hmove : ¬(v.isDir t = .ok true ∧ v.Encloses t q) →
      ¬(v.isDir t = .ok true ∧ v.Circles t q) →
      if Entry.fits m then
        ((rename p n q m v).1 = .error (.errno .noSpace) ∧
            ∃ es, v.slots q = .ok es ∧ ¬v.Admits q es) ∨
          ∃ w, rename p n q m v = (.ok (), w) ∧ v.Moves w p n q m t
      else (rename p n q m v).1 = .error (.errno .nameTooLong) := by
    intro hbelow hcircles
    refine moveEntry_moves s hv hf hfd hq hqd hn.right hm.right hplain ht habsent hg
      (fun hd he => hbelow ⟨hd, he⟩) (rename_of_apart hn hm ht habsent (hv.isDir hg) fun hgd => ?_)
    have hd : v.isDir t = .ok true := by rw [hv.isDir hg, hgd]
    rcases hcases with ⟨_, he, _⟩ | ⟨_, _, hc⟩ | ⟨h, _⟩
    case inl     => exact absurd ⟨hd, he⟩ hbelow
    case inr.inl => exact absurd ⟨hd, hc⟩ hcircles
    case inr.inr => exact h
  have hio : v.isDir t = .ok true ∧ v.Circles t q → rename p n q m v = (.error (.errno .io), v) :=
    fun ⟨hd, hc⟩ => rename_of_circles hn hm ht habsent hd hc
  refine ⟨⟨fun h => ?_, fun ⟨hd, he⟩ => ?_⟩, hio, hmove, fun hd h => ?_⟩
  case refine_1 =>
    -- in all other cases the answer is another one
    by_contra hbelow
    by_cases hc : v.isDir t = .ok true ∧ v.Circles t q
    case pos => simp [hio hc] at h
    case neg =>
      have hmove := hmove hbelow hc
      split at hmove
      case isFalse => simp [h] at hmove
      case isTrue =>
        rcases hmove with ⟨hspace, _⟩ | ⟨w, hok, _⟩
        case inl => simp [h] at hspace
        case inr => simp [hok] at h
  case refine_2 =>
    rcases hcases with ⟨hw, _⟩ | ⟨_, hno, _⟩ | ⟨_, hno, _⟩
    case inl     => rw [rename_of_within hn hm ht habsent hd hw]
    case inr.inl => exact absurd he hno
    case inr.inr => exact absurd he hno
  case refine_3 =>
    by_contra hplanted
    -- where no directory was planted, all ways up end at the root
    have s' : Settled (Planted .regular steps) False files := s.mono id hplanted
    rw [hv.isDir hg, Except.ok.injEq] at hd
    rcases h with h | h
    case inl => exact s'.not_circles hv hqdir h
    case inr => exact s'.not_encloses hv hnames (Arranged.isDir_iff.mpr ⟨g, hg, hd⟩) h

theorem renaming_sole :
    let op := Operation.mknod rootInode "a" 0o100644
    let v := (op.perform fresh).2
    (Run [(fresh, op)] v ∧ v.Head rootInode ∧ v.isDir rootInode = .ok true ∧
      ("a" ≠ "" ∧ Proper "a") ∧ ("b" ≠ "" ∧ Proper "b") ∧ Entry.Plain "b" ∧
      lookup v rootInode "a" = .ok 1 ∧ lookup v rootInode "b" = .error (.errno .notFound)) ∧
    ((rename rootInode "a" rootInode "b" v).1 = .error (.errno .invalid) ↔
      v.isDir 1 = .ok true ∧ v.Encloses 1 rootInode) ∧
    (v.isDir 1 = .ok true ∧ v.Circles 1 rootInode →
      rename rootInode "a" rootInode "b" v = (.error (.errno .io), v)) ∧
    (¬(v.isDir 1 = .ok true ∧ v.Encloses 1 rootInode) →
      ¬(v.isDir 1 = .ok true ∧ v.Circles 1 rootInode) →
      if Entry.fits "b" then
        ((rename rootInode "a" rootInode "b" v).1 = .error (.errno .noSpace) ∧
            ∃ es, v.slots rootInode = .ok es ∧ ¬v.Admits rootInode es) ∨
          ∃ w, rename rootInode "a" rootInode "b" v = (.ok (), w) ∧
            v.Moves w rootInode "a" rootInode "b" 1
      else (rename rootInode "a" rootInode "b" v).1 = .error (.errno .nameTooLong)) ∧
    (v.isDir 1 = .ok true → v.Circles 1 rootInode ∨ v.Encloses 1 rootInode →
      Planted .directory [(fresh, op)]) := by
  intro op v
  have ha : op.Admissible fresh :=
    Operation.admissible_fresh (by decide)
  have r : Run [(fresh, op)] v := Run.fresh ha
  have ⟨_, hv⟩ := mknod_fresh (show Proper "a" by decide) (by decide) (by decide)
    (show NodeKind.ofMode 0o100644 = .regular by decide)
  have ⟨_, hx, _, a, _⟩ := r.settled
  obtain rfl := hx.unique hv
  have ⟨f, hf, hd⟩ := a.exists_root
  have he : f.entries = [⟨".", some rootInode⟩, ⟨"..", some rootInode⟩, ⟨"a", some 1⟩] := by
    obtain rfl := Option.some.inj hf
    exact entries_root_insert (by decide) (by decide)
  have hh : v.Head rootInode := hv.head_iff.mpr ⟨f, hf⟩
  have hdir : v.isDir rootInode = .ok true := by rw [hv.isDir hf, hd]
  have ht : lookup v rootInode "a" = .ok 1 := by
    rw [a.lookup_eq hv hf hd, he]
    rfl
  have habsent : lookup v rootInode "b" = .error (.errno .notFound) := by
    rw [a.lookup_eq hv hf hd, he]
    rfl
  exact ⟨⟨r, hh, hdir, by decide, by decide, by decide, ht, habsent⟩,
    r.renaming hh hdir hh hdir (by decide) (by decide) (by decide) ht habsent⟩

theorem not_moved_strays :
    let v := ((Operation.mknod 1 "x" 0o040755).perform fresh).2
    let w := ((Operation.mknod 2 "y" 0o040755).perform v).2
    Reachable w ∧ (w.Head 2 ∧ w.isDir 2 = .ok true) ∧ (w.Head 1 ∧ w.isDir 1 = .ok true) ∧
      ("y" ≠ "" ∧ Proper "y") ∧ ("z" ≠ "" ∧ Proper "z") ∧ Entry.Plain "z" ∧ Entry.fits "z" ∧
      lookup w 2 "y" = .ok 2 ∧ lookup w 1 "z" = .error (.errno .notFound) ∧ ¬w.Encloses 2 1 ∧
      rename 2 "y" 1 "z" w = (.error (.errno .io), w) := by
  intro v w
  have ⟨r, _, files, hw, hone, htwo⟩ := two_planted
  have ⟨_, hx, s⟩ := r.settled
  obtain rfl := hw.unique hx
  have ⟨_, a, _⟩ := s
  have hd : ∀ i name, (planted .directory i name 0o040755).isDir :=
    fun i name => FileState.isDir_empty 1 0o040755
  have hdir : ∀ {k : Nat} {g : FileState}, files k = some g → g.isDir →
      w.Head k ∧ w.isDir k = .ok true :=
    fun hg hgd => ⟨hw.head_iff.mpr ⟨_, hg⟩, by rw [hw.isDir hg, hgd]⟩
  have ht : lookup w 2 "y" = .ok 2 := by
    rw [lookup_planted a hw htwo (by decide) (by decide), if_pos (by decide)]
  have habsent : lookup w 1 "z" = .error (.errno .notFound) := by
    rw [lookup_planted a hw hone (by decide) (by decide), if_neg (by decide)]
  have hc : w.Circles 2 1 := circles_planted a hw hone (by decide) (by decide) (by decide) (by decide)
  have hbelow : ¬w.Encloses 2 1 := by
    have hq : (graph files).IsDir 1 := Arranged.isDir_iff.mpr ⟨_, hone, hd 1 "x"⟩
    rcases s.isWithin_cases hw (show 2 ≠ rootInode by decide) hq with ⟨_, _, h⟩ | ⟨_, h, _⟩ | ⟨_, h, _⟩
    case inl     => exact absurd hc h
    case inr.inl => exact h
    case inr.inr => exact h
  have h₁ := hdir hone (hd 1 "x")
  have h₂ := hdir htwo (hd 2 "y")
  exact ⟨r.reachable, h₂, h₁, by decide, by decide, by decide, by decide, ht, habsent, hbelow,
    rename_of_circles (by decide) (by decide) ht habsent h₂.right hc⟩

end Tree
end InodeVolume
