import InodeVolume.Proofs.Tree.Addressing
import InodeVolume.Proofs.Tree.Space

namespace InodeVolume

open VolumeM Volume

namespace Volume

variable {v : Volume} {d t total i count : Nat} {name : String} {es : List Entry} {e : Entry}

theorem plain_of_slotWithin (h : v.slotWithin d total i = .ok e) : Entry.Plain e.name := by
  have ⟨raw, _, h⟩ := Except.bind_eq_ok_iff.mp h
  split at h
  case isFalse => contradiction
  case isTrue =>
    obtain rfl := Except.ok.inj h
    exact Entry.plain_ofBytes raw

theorem plain_of_slotsFrom (h : v.slotsFrom d total i count = .ok es) :
    ∀ e ∈ es, Entry.Plain e.name := by
  induction count generalizing i es
  case zero =>
    obtain rfl := Except.ok.inj h
    simp
  case succ count hi =>
    have ⟨e, he, h⟩ := Except.bind_eq_ok_iff.mp h
    have ⟨rest, hrest, h⟩ := Except.bind_eq_ok_iff.mp h
    obtain rfl := Except.ok.inj h
    exact List.forall_mem_cons.mpr ⟨plain_of_slotWithin he, hi hrest⟩

theorem plain_of_lookup (h : v.lookup d name = .ok t) : Entry.Plain name := by
  rw [lookup] at h
  split at h
  case isTrue => contradiction
  case isFalse =>
    obtain ⟨p, hp, h⟩ := Except.bind_eq_ok_iff.mp h
    obtain ⟨es, hes, hfind⟩ := Except.bind_eq_ok_iff.mp hp
    obtain ⟨_, _, hslots⟩ := Except.bind_eq_ok_iff.mp hes
    have hfind : Entries.find es name = p := Except.ok.inj hfind
    cases p
    case none   => contradiction
    case some p =>
      exact plain_of_slotsFrom hslots _ (List.mem_of_getElem? (Entries.find_eq_some hfind))

structure Records (v : Volume) (d : Nat) (name : String) (t : Nat) : Prop where
  lookup : Tree.lookup v d name = .ok t
  listed : ∃ es, Tree.list v d = .ok es ∧ (name, t) ∈ es ∧ (es.map (·.1)).Nodup

theorem Records.plain (r : v.Records d name t) : Entry.Plain name :=
  plain_of_lookup (Tree.lookup_of_ok r.lookup)

end Volume

variable {v w : Volume} {crooked : Prop} {owed : Nat → Int} {files files' : Nat → Option FileState}
variable {d q i t : Nat} {f : FileState} {name newName : String} {mode : UInt32}

theorem Arranged.records (a : Arranged crooked owed files) (hv : v.Holds files)
    (hf : files d = some f) (hd : f.isDir) (hm : (name, t) ∈ Entries.used f.entries) :
    v.Records d name t := by
  have ⟨i, hfind⟩ := Entries.find_of_mem (a.distinct hf hd) hm
  constructor
  case lookup => rw [a.lookup_eq hv hf hd, hfind]
  case listed => exact ⟨_, a.list_eq hv hf hd, hm, a.distinct hf hd⟩

theorem Made.exists_entry {refs : Nat} (m : Made files d name mode refs i files')
    (a : Arranged crooked owed files) (hf : files d = some f) (hfit : Entry.fits name)
    (hplain : Entry.Plain name) :
    ∃ g, files' d = some g ∧ g.isDir ∧ (name, i) ∈ Entries.used g.entries := by
  cases m
  case strayFile _ hnone _      => simp [hf] at hnone
  case strayDirectory _ hnone _ => simp [hf] at hnone
  case file f' _ hf' hfd _ hi hlt | directory f' _ hf' hfd _ hi hlt =>
    have hne : d ≠ i := fun e => by simp [e, hi] at hf'
    refine ⟨f'.withEntries _, ?_, hfd, mem_entered (a.lists hf' hfd) hfit hplain hlt⟩
    rw [Function.update_of_ne hne, Function.update_self]

theorem Moved.exists_entry (m : Moved files d name q newName t files')
    (mv : Movable files d name q newName t) (a : Arranged crooked owed files)
    (hplain : Entry.Plain newName) :
    ∃ f, files' q = some f ∧ f.isDir ∧ (newName, t) ∈ Entries.used f.entries := by
  have ⟨x, i, hx, hxd, hfind⟩ := mv.target
  have ⟨e, he, hed, hn⟩ := mv.parent
  have ⟨g, hg⟩ := a.exists_target hx hxd (Entries.mem_used_of_find hfind)
  have hl := a.lists he hed
  have hm := mem_entered hl mv.fits hplain (a.lt hg)
  cases m
  case entry e' f' g' j files₁ _ _ he' h₁ hf' hj =>
    obtain rfl := Option.some.inj (he.symm.trans he')
    subst h₁
    by_cases hdq : q = d
    case neg =>
      refine ⟨e.withEntries (Entries.insert e.entries ⟨newName, some t⟩), ?_, hed, hm⟩
      rw [Function.update_of_ne hdq, Function.update_self]
    case pos =>
      subst hdq
      obtain rfl := Option.some.inj (hx.symm.trans he)
      rw [Function.update_self, Option.some.injEq] at hf'
      subst hf'
      have hl' := hl.insert (.used mv.fits hplain (a.lt hg) : Entry.Storable ⟨newName, some t⟩)
      rw [hl'.entries] at hj hm ⊢
      refine ⟨_, Function.update_self .., hed, ?_⟩
      rw [FileState.entries_withEntries (hl'.clear (i := j)).storable]
      exact Entries.mem_used_clear hj hm fun h => hn t (h ▸ Entries.mem_used_of_find hfind)
  case directory e' f' g' h j k p files₁ files₂ hg' hgd hdq he' h₁ _ _ h₂ _ _ =>
    obtain rfl := Option.some.inj (he.symm.trans he')
    have htq := (mv.apart (Arranged.isDir_iff.mpr ⟨g', hg', hgd⟩)).left
    refine ⟨e.withEntries (Entries.insert e.entries ⟨newName, some t⟩), ?_, hed, hm⟩
    rw [Function.update_of_ne htq.symm, h₂, Function.update_of_ne hdq.symm, h₁, Function.update_self]

namespace Tree

theorem mknod_records (s : Settled False False files) (hv : v.Holds files) (hd : v.Head d)
    (hplain : Entry.Plain name) :
    (mknod d name mode).Ensures v (fun i w => w.Records d name i) (fun _ _ => True) := by
  have ⟨_, a, _⟩ := s
  have ⟨f, hf⟩ := hv.head_iff.mp hd
  apply (mknod_ensures a hv (.inl ⟨f, hf⟩) hplain).mono
  case he => exact fun _ _ _ => trivial
  intro i w ⟨hproper, hfit, files', hm, hw⟩
  have ⟨_, a', _⟩ := hm.settled s hfit hplain hproper
  have ⟨g, hg, hgd, hmem⟩ := hm.exists_entry a hf hfit hplain
  exact a'.records hw hg hgd hmem

theorem link_records (s : Settled False False files) (hv : v.Holds files) (hi : v.Head i)
    (hd : v.Head d) (hplain : Entry.Plain name) :
    (link i d name).Ensures v (fun _ w => w.Records d name i) (fun _ _ => True) := by
  have ⟨_, a, _⟩ := s
  have hi := hv.addresses hi.right
  have hd := hv.addresses hd.right
  apply ((link_ensures s hv hi hd).and (link_evolves s hv hi hd hplain)).mono
  case he => exact fun _ _ _ => trivial
  intro _ w ⟨⟨_, hfit, f, g, hf, hfd, _, hg, hgd, hw⟩, files', hw', s', _⟩
  obtain rfl := Volume.Holds.unique hw' hw
  have ⟨_, a', _⟩ := s'
  have hne : d ≠ i := by
    intro e
    rw [e, hg, Option.some.injEq] at hf
    exact hgd (hf ▸ hfd)
  have hmem := mem_entered (a.lists hf hfd) hfit hplain (a.lt hg)
  refine a'.records hw (f := f.withEntries _) ?_ hfd hmem
  rw [Function.update_of_ne hne, Function.update_self]

theorem rename_records (s : Settled False False files) (hv : v.Holds files) (hd : v.Head d)
    (hq : v.Head q) (hplain : Entry.Plain newName) :
    (rename d name q newName).Ensures v
      (fun _ w => ∃ t, lookup v d name = .ok t ∧ w.Records q newName t) (fun _ _ => True) := by
  have ⟨_, a, _⟩ := s
  apply (rename_ensures a hv (hv.addresses hd.right) (hv.addresses hq.right) hplain).mono
  case he => exact fun _ _ _ => trivial
  intro _ w ⟨t, files', mv, hm, hw⟩
  have ⟨f, hf, hfd, hmem⟩ := hm.exists_entry mv a hplain
  have ⟨x, k, hx, hxd, hfind⟩ := mv.target
  have hlookup : lookup v d name = .ok t := by rw [a.lookup_eq hv hx hxd, hfind]
  exact ⟨t, hlookup, (hm.arranged mv s a hplain).records hw hf hfd hmem⟩

namespace Operation

variable {op op' : Operation}

def naming? : Operation → Option (Nat × String)
  | .mknod parent name _            => some (parent, name)
  | .link _ newParent newName       => some (newParent, newName)
  | .rename _ _ newParent newName   => some (newParent, newName)
  | _                               => none

inductive Subject (v : Volume) : Operation → Answer → Nat → Prop
  | mknod {parent i : Nat} {name : String} {mode : UInt32} :
    Subject v (.mknod parent name mode) (.inode i) i
  | link {newParent i : Nat} {newName : String} :
    Subject v (.link i newParent newName) .done i
  | rename {parent newParent i : Nat} {name newName : String} : Tree.lookup v parent name = .ok i →
    Subject v (.rename parent name newParent newName) .done i

structure Gives (op : Operation) (v : Volume) (op' : Operation) (d : Nat) (name : String)
    (answer : Answer) : Prop where
  means  : op.Means v op'
  naming : op'.naming? = some (d, name)
  ok     : (op.perform v).1 = .ok answer

def Faithful (op : Operation) (v : Volume) : Prop :=
  ∀ op' d name answer, op.Gives v op' d name answer →
    ∃ i, Subject v op' answer i ∧ (op.perform v).2.Records d name i

def Cuts (op : Operation) (v : Volume) : Prop :=
  ∃ op' d name answer, op.Gives v op' d name answer ∧ ¬Entry.Plain name

theorem Cuts.not_faithful (c : op.Cuts v) : ¬op.Faithful v := by
  intro h
  have ⟨op', d, name, answer, hg, hplain⟩ := c
  have ⟨_, _, hr⟩ := h op' d name answer hg
  exact hplain hr.plain

theorem find_onFiles_ensures (a : Arranged crooked owed files) (hv : v.Holds files) {node : Node}
    (ho : ∀ i ∈ node.numbers, v.Head i) :
    node.find.Ensures v (fun i w => w = v ∧ v.Head i) (Refused v) := by
  apply (find_any_ensures a hv node).mono_ok
  rintro i w ⟨hw, rfl | hi⟩
  case inl => exact ⟨hw, ho i List.mem_cons_self⟩
  case inr => exact ⟨hw, hi⟩

theorem locate_onFiles_ensures (a : Arranged crooked owed files) (hv : v.Holds files)
    (path : String) :
    (locate path).Ensures v (fun p w => w = v ∧ v.Head p.1) (Refused v) :=
  (a.locate_any_ensures hv path).mono_ok fun _ _ ⟨hw, _, f, hf, _⟩ =>
    ⟨hw, hv.head_iff.mpr ⟨f, hf⟩⟩

theorem direct_onFiles_ensures (a : Arranged crooked owed files) (hv : v.Holds files)
    (ho : op.OnFiles v) :
    op.direct.Ensures v (fun op' w => w = v ∧ op'.Direct ∧ op'.OnFiles v) (Refused v) := by
  -- both ways to make something at a path
  have makeAt : ∀ path mode, (direct.makeAt path mode).Ensures v
      (fun op' w => w = v ∧ op'.Direct ∧ op'.OnFiles v) (Refused v) := by
    intro path mode
    rw [direct.makeAt, ensures_bind]
    apply (a.unresolved_ensures hv path).mono_ok
    rintro _ u rfl
    rw [ensures_bind]
    apply (locate_onFiles_ensures a hv path).mono_ok
    rintro p w ⟨hw, hp⟩
    exact ⟨hw, trivial, by simpa [OnFiles, numbers] using hp⟩
  cases op
  case access | stat | read | list | truncate | write | chmod =>
    rw [direct, ensures_bind]
    apply (find_onFiles_ensures a hv ho).mono_ok
    rintro i w ⟨hw, hi⟩
    exact ⟨hw, ⟨i, rfl⟩, by simpa [OnFiles, numbers, Node.numbers] using hi⟩
  case mknodAt => exact makeAt _ _
  case mkdirAt => exact makeAt _ _
  case linkAt path newPath =>
    rw [direct, ensures_bind]
    apply (a.resolve_ensures hv path).mono_ok
    rintro i u ⟨rfl, hi⟩
    rw [ensures_bind]
    apply (a.unresolved_ensures hv newPath).mono_ok
    rintro _ u rfl
    rw [ensures_bind]
    apply (locate_onFiles_ensures a hv newPath).mono_ok
    rintro p w ⟨hw, hp⟩
    exact ⟨hw, trivial, by simp [OnFiles, numbers, hp, hv.head_iff.mpr hi]⟩
  case unlinkAt | rmdirAt =>
    rw [direct, ensures_bind]
    apply (locate_onFiles_ensures a hv _).mono_ok
    rintro p w ⟨hw, hp⟩
    exact ⟨hw, trivial, by simpa [OnFiles, numbers] using hp⟩
  case renameAt path newPath =>
    rw [direct, ensures_bind]
    apply (locate_onFiles_ensures a hv path).mono_ok
    rintro p u ⟨rfl, hp⟩
    dsimp only
    rw [ensures_bind]
    apply (locate_onFiles_ensures a hv newPath).mono_ok
    rintro p' w ⟨hw, hp'⟩
    exact ⟨hw, trivial, by simp [OnFiles, numbers, hp, hp']⟩
  all_goals exact ⟨rfl, trivial, ho⟩

theorem Direct.gives (hd : op.Direct) (hn : op.naming? = some (d, name)) {answer : Answer}
    (ok : (op.perform v).1 = .ok answer) : op.Gives v op d name answer :=
  ⟨hd.means, hn, ok⟩

theorem Direct.error_of_not_plain (hd : op.Direct) (hn : op.naming? = some (d, name))
    (hc : ¬op.Cuts v) (hplain : ¬Entry.Plain name) : ∃ e w, op.perform v = (.error e, w) := by
  rcases hr : op.perform v with ⟨e | answer, w⟩
  case error => exact ⟨e, w, rfl⟩
  case ok    => exact absurd ⟨op, d, name, answer, hd.gives hn (by rw [hr]), hplain⟩ hc

-- An operation that fails to give a name leaves all files as they are, whatever the name is.
theorem Direct.holds_of_naming (s : Settled False False files) (hv : v.Holds files) (hd : op.Direct)
    (ho : op.OnFiles v) (hn : op.naming? = some (d, name)) :
    op.perform.Ensures v (fun _ _ => True) (fun _ w => w.Holds files) := by
  have ⟨_, a, _⟩ := s
  cases op
  case mknodAt | mkdirAt | linkAt | unlinkAt | rmdirAt | renameAt => exact hd.elim
  case mknod parent n mode =>
    have ⟨f, hf⟩ := hv.head_iff.mp (ho parent List.mem_cons_self)
    rw [perform, ensures_bind]
    exact (mknod_any_ensures a hv (.inl ⟨f, hf⟩) (by simp [hf])).mono (fun _ _ _ => trivial)
      fun _ _ h => h.left.right
  case link i parent n =>
    have hi := hv.addresses (ho i List.mem_cons_self).right
    have hp := hv.addresses (ho parent (List.mem_cons_of_mem _ List.mem_cons_self)).right
    rw [perform, ensures_bind]
    exact (link_ensures s hv hi hp).mono (fun _ _ _ => trivial)
      fun e w h => (h.elim (Refused.refuses hv e w) (Declined.refuses a hv)).right
  case rename parent n newParent newName =>
    have hp := hv.addresses (ho parent List.mem_cons_self).right
    have hq := hv.addresses (ho newParent (List.mem_cons_of_mem _ List.mem_cons_self)).right
    rw [perform, ensures_bind]
    exact (rename_fails_ensures a hv hp hq).mono_ok fun _ _ _ => trivial
  all_goals simp [naming?] at hn

theorem Direct.evolves_of_plain (s : Settled False False files) (hv : v.Holds files)
    (hd : op.Direct) (ho : op.OnFiles v)
    (hplain : ∀ d name, op.naming? = some (d, name) → Entry.Plain name) :
    Evolves False False files v (op.perform v).2 := by
  have refused : ∀ e w, Directory.Refuses files e w → Evolves False False files v w :=
    fun e w ⟨_, hw⟩ => s.evolves hw
  have kept : ∀ (e : Fault) w, w.Holds files → Evolves False False files v w :=
    fun _ _ => s.evolves
  have admissible : op.Admissible v → Evolves False False files v (op.perform v).2 := fun ha =>
    (hd.perform_evolves s hv ha).mono (fun h => h.elim id (ho.not_plants _))
      fun h => h.elim id (ho.not_plants _)
  have evolved : op.perform.Ensures v (fun _ w => Evolves False False files v w)
      (fun _ w => Evolves False False files v w) → Evolves False False files v (op.perform v).2 :=
    fun h => h.volume (fun _ _ => id) fun _ _ => id
  cases op
  case mknodAt | mkdirAt | linkAt | unlinkAt | rmdirAt | renameAt => exact hd.elim
  case access | stat | read | list | truncate | write | chmod =>
    obtain ⟨n, rfl⟩ := hd
    exact admissible (ho n List.mem_cons_self).right
  case usage | sync | reset => exact admissible trivial
  case mknod parent name mode =>
    exact admissible ⟨(ho parent List.mem_cons_self).right, hplain _ _ rfl⟩
  case link i parent name =>
    have hp := ho parent (List.mem_cons_of_mem _ List.mem_cons_self)
    exact admissible ⟨(ho i List.mem_cons_self).right, hp.right, hplain _ _ rfl⟩
  -- the names that these look for may be any
  case lookup parent name =>
    apply evolved
    rw [perform, ensures_bind]
    exact (query_ensures _ _).mono (fun _ _ hw => s.evolves (hw ▸ hv))
      fun _ _ hw => s.evolves (hw ▸ hv)
  case unlink parent name =>
    have hp := hv.addresses (ho parent List.mem_cons_self).right
    apply evolved
    rw [perform, ensures_bind]
    exact (unlink_evolves s hv hp).mono (fun _ _ h => h) refused
  case rmdir parent name =>
    have hp := hv.addresses (ho parent List.mem_cons_self).right
    apply evolved
    rw [perform, ensures_bind]
    exact (rmdir_evolves s hv hp).mono (fun _ _ h => h) kept
  case rename parent name newParent newName =>
    have hp := hv.addresses (ho parent List.mem_cons_self).right
    have hq := hv.addresses (ho newParent (List.mem_cons_of_mem _ List.mem_cons_self)).right
    apply evolved
    rw [perform, ensures_bind]
    exact (rename_evolves s hv hp hq (hplain _ _ rfl)).mono (fun _ _ h => h) kept

theorem Direct.evolves_of_onFiles (s : Settled False False files) (hv : v.Holds files)
    (hd : op.Direct) (ho : op.OnFiles v) (hc : ¬op.Cuts v) :
    Evolves False False files v (op.perform v).2 := by
  by_cases hplain : ∀ d name, op.naming? = some (d, name) → Entry.Plain name
  case pos => exact hd.evolves_of_plain s hv ho hplain
  case neg =>
    have ⟨d, name, hn, hplain⟩ : ∃ d name, op.naming? = some (d, name) ∧ ¬Entry.Plain name := by
      simpa using hplain
    have ⟨e, w, hr⟩ := hd.error_of_not_plain hn hc hplain
    rw [hr]
    exact s.evolves ((hd.holds_of_naming s hv ho hn).of_error hr)

theorem evolves_of_onFiles (s : Settled False False files) (hv : v.Holds files)
    (ho : op.OnFiles v) (hc : ¬op.Cuts v) : Evolves False False files v (op.perform v).2 := by
  have ⟨_, a, _⟩ := s
  have h := direct_onFiles_ensures a hv ho
  rcases hr : op.direct v with ⟨e | op', u⟩
  case error =>
    have ⟨_, hu⟩ := h.of_error hr
    rw [perform_eq op, bind_apply, hr, hu]
    exact s.evolves hv
  case ok =>
    obtain ⟨rfl, hd, ho'⟩ := h.of_ok hr
    have hm : op.Means u op' := hr
    rw [hm.perform_eq]
    refine hd.evolves_of_onFiles s hv ho' fun ⟨_, d, name, answer, hg, hplain⟩ => hc ?_
    obtain rfl := (hd.means.iff_eq _).mp hg.means
    exact ⟨_, d, name, answer, ⟨hm, hg.naming, by rw [hm.perform_eq]; exact hg.ok⟩, hplain⟩

theorem Direct.records (s : Settled False False files) (hv : v.Holds files) (hd : op.Direct)
    (ho : op.OnFiles v) (hn : op.naming? = some (d, name)) (hplain : Entry.Plain name) :
    op.perform.Ensures v (fun answer w => ∃ i, Subject v op answer i ∧ w.Records d name i)
      (fun _ _ => True) := by
  cases op
  case mknodAt | mkdirAt | linkAt | unlinkAt | rmdirAt | renameAt => exact hd.elim
  case mknod parent n mode =>
    obtain ⟨rfl, rfl⟩ := Prod.mk.inj (Option.some.inj hn)
    rw [perform, ensures_bind]
    apply (mknod_records s hv (ho parent List.mem_cons_self) hplain).mono_ok
    exact fun i _ hr => ⟨i, .mknod, hr⟩
  case link i parent n =>
    obtain ⟨rfl, rfl⟩ := Prod.mk.inj (Option.some.inj hn)
    have hp := ho parent (List.mem_cons_of_mem _ List.mem_cons_self)
    rw [perform, ensures_bind]
    apply (link_records s hv (ho i List.mem_cons_self) hp hplain).mono_ok
    exact fun _ _ hr => ⟨i, .link, hr⟩
  case rename parent n newParent newName =>
    obtain ⟨rfl, rfl⟩ := Prod.mk.inj (Option.some.inj hn)
    have hq := ho newParent (List.mem_cons_of_mem _ List.mem_cons_self)
    rw [perform, ensures_bind]
    apply (rename_records s hv (ho parent List.mem_cons_self) hq hplain).mono_ok
    rintro _ _ ⟨t, ht, hr⟩
    exact ⟨t, .rename ht, hr⟩
  all_goals simp [naming?] at hn

theorem faithful_of_onFiles (s : Settled False False files) (hv : v.Holds files)
    (ho : op.OnFiles v) (hc : ¬op.Cuts v) : op.Faithful v := by
  intro op' d name answer hg
  have ⟨_, a, _⟩ := s
  have ⟨_, hd, ho'⟩ := (direct_onFiles_ensures a hv ho).of_ok hg.means
  have hplain : Entry.Plain name := by
    by_contra hplain
    exact hc ⟨op', d, name, answer, hg, hplain⟩
  have h := hd.records s hv ho' hg.naming hplain
  rw [hg.means.perform_eq]
  rcases hr : op'.perform v with ⟨_ | answer', w⟩
  case error =>
    have := hg.ok
    simp [hg.means.perform_eq, hr] at this
  case ok =>
    have hok := hg.ok
    rw [hg.means.perform_eq, hr, Except.ok.injEq] at hok
    exact hok ▸ h.of_ok hr

end Operation

-- What has been done to a volume that was just set up, by names and paths of any characters. All
-- numbers that were given are those of files.
inductive LooseRun : List (Volume × Operation) → Volume → Prop
  | start {v : Volume} : v.Fresh → LooseRun [] v
  | step {steps : List (Volume × Operation)} {v : Volume} {op : Operation} : LooseRun steps v →
    op.OnFiles v → LooseRun (steps ++ [(v, op)]) (op.perform v).2

variable {steps : List (Volume × Operation)}

namespace LooseRun

theorem settled (r : LooseRun steps v) (hc : ∀ s ∈ steps, ¬s.2.Cuts s.1) :
    ∃ files, v.Holds files ∧ Settled False False files := by
  induction r
  case start hv =>
    obtain rfl := fresh_iff.mp hv
    exact ⟨_, holds_fresh, settled_rootFiles⟩
  case step steps v op r ho hi =>
    have ⟨files, hv, s⟩ := hi fun x hx => hc x (List.mem_append_left _ hx)
    have ⟨files', hw, s', _⟩ := Operation.evolves_of_onFiles s hv ho (hc (v, op) (by simp))
    exact ⟨files', hw, s'⟩

theorem faithful (r : LooseRun steps v) (hc : ∀ s ∈ steps, ¬s.2.Cuts s.1) :
    ∀ s ∈ steps, s.2.Faithful s.1 := by
  induction r
  case start => simp
  case step steps v op r ho hi =>
    have hc' := fun x hx => hc x (List.mem_append_left _ hx)
    have ⟨_, hv, s⟩ := r.settled hc'
    intro x hx
    cases List.mem_append.mp hx
    case inl hx => exact hi hc' x hx
    case inr hx =>
      obtain rfl := List.mem_singleton.mp hx
      exact Operation.faithful_of_onFiles s hv ho (hc (v, op) (by simp))

-- Whatever characters there are in the names that are used, every name that is given to a file
-- leads to it afterwards, is listed for it, and is listed once, all along just those runs in which
-- no name with a zero in it is given. Such a name never leads to the file that it was given to.
theorem faithful_iff (r : LooseRun steps v) :
    ((∀ s ∈ steps, s.2.Faithful s.1) ↔ ∀ s ∈ steps, ¬s.2.Cuts s.1) ∧
      ∀ s ∈ steps, s.2.Cuts s.1 → ¬s.2.Faithful s.1 :=
  ⟨⟨fun h s hs hc => hc.not_faithful (h s hs), r.faithful⟩, fun _ _ hc => hc.not_faithful⟩

end LooseRun

theorem looseRun_mknod (name : String) (mode : UInt32) :
    LooseRun [(fresh, .mknod rootInode name mode)]
      ((Operation.mknod rootInode name mode).perform fresh).2 := by
  refine .step (.start (fresh_iff.mpr rfl)) fun i hi => ?_
  obtain rfl := List.mem_singleton.mp hi
  exact holds_fresh.head_root

theorem faithful_mknod :
    let op := Operation.mknod rootInode "a" 0o100644
    let steps := [(fresh, op)]
    LooseRun steps (op.perform fresh).2 ∧
      ((∀ s ∈ steps, s.2.Faithful s.1) ↔ ∀ s ∈ steps, ¬s.2.Cuts s.1) ∧
      ∀ s ∈ steps, s.2.Cuts s.1 → ¬s.2.Faithful s.1 :=
  ⟨looseRun_mknod "a" 0o100644, (looseRun_mknod "a" 0o100644).faithful_iff⟩

theorem not_faithful_mknod :
    let op := Operation.mknod rootInode "a\x00b" 0o100644
    let w := (op.perform fresh).2
    LooseRun [(fresh, op)] w ∧ (op.perform fresh).1 = .ok (.inode 1) ∧
      lookup w rootInode "a\x00b" = .error (.errno .notFound) ∧
      list w rootInode = .ok [(".", 0), ("..", 0), ("a", 1)] ∧ ¬op.Faithful fresh := by
  intro op w
  have ⟨hok, hw⟩ : (op.perform fresh).1 = .ok (.inode 1) ∧ w.Holds _ :=
    mknod_fresh (by decide) (by decide) (by decide) (by decide)
  let es : List Entry := [⟨".", some 0⟩, ⟨"..", some 0⟩, ⟨"a\x00b", some 1⟩]
  have hroot : soleFiles "a\x00b" 0o100644 rootInode = some (FileState.root.withEntries es) := by
    rw [soleFiles, Function.update_of_ne (by decide), Function.update_self, FileState.entries_root]
    rfl
  have hdir : w.isDir rootInode = .ok true := by
    rw [hw.isDir hroot, FileState.isDir_withEntries, FileState.isDir_root]
  have hslots : w.slots rootInode = .ok [⟨".", some 0⟩, ⟨"..", some 0⟩, ⟨"a", some 1⟩] := by
    rw [hw.slots_stored hroot ⟨rfl, by simp [es]⟩]
    decide
  have hlookup : lookup w rootInode "a\x00b" = .error (.errno .notFound) := by
    rw [lookup, hdir]
    simp only [Volume.lookup, findSlot, hslots, bind, Except.bind]
    decide
  refine ⟨looseRun_mknod _ _, hok, hlookup, ?list, fun h => ?faithful⟩
  case list =>
    rw [list, hdir]
    simp only [listing, hslots, bind, Except.bind]
    decide
  case faithful =>
    obtain ⟨_, _, hr⟩ := h op rootInode "a\x00b" (.inode 1) ⟨rfl, rfl, hok⟩
    have hnone := hlookup.symm.trans hr.lookup
    contradiction

end Tree
end InodeVolume
