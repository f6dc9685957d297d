import InodeVolume.Proofs.Tree.Failure

namespace InodeVolume

open VolumeM Volume

namespace Entries

def reparent (q : Nat) (es : List (String × Nat)) : List (String × Nat) :=
  es.map fun e => if e.1 = ".." then ("..", q) else e

theorem reparent_append (q : Nat) (es fs : List (String × Nat)) :
    reparent q (es ++ fs) = reparent q es ++ reparent q fs :=
  List.map_append

theorem reparent_of_not_mem {q : Nat} {es : List (String × Nat)} (h : ".." ∉ es.map (·.1)) :
    reparent q es = es := by
  refine (List.map_congr_left fun e he => if_neg fun hup => h ?_).trans (List.map_id es)
  exact hup ▸ List.mem_map_of_mem he

theorem used_set_up {es : List Entry} {k p q : Nat} (hn : ((used es).map (·.1)).Nodup)
    (hk : es[k]? = some ⟨"..", some p⟩) :
    used (es.set k ⟨"..", some q⟩) = reparent q (used es) := by
  induction es generalizing k
  case nil => simp at hk
  case cons e es hi =>
    rw [used_cons, List.map_append, List.nodup_append] at hn
    have ⟨_, htail, hne⟩ := hn
    rw [used_cons, reparent_append]
    cases k
    case zero =>
      obtain rfl : e = ⟨"..", some p⟩ := by simpa using hk
      have hout : ".." ∉ (used es).map (·.1) := fun hm => hne ".." (by simp [Entry.naming]) ".." hm rfl
      rw [List.set_cons_zero, used_cons, reparent_of_not_mem hout]
      rfl
    case succ k =>
      have hk : es[k]? = some ⟨"..", some p⟩ := by simpa using hk
      have hup : ".." ∈ (used es).map (·.1) :=
        List.mem_map.mpr ⟨("..", p), mem_used.mpr (List.mem_of_getElem? hk), rfl⟩
      rw [List.set_cons_succ, used_cons, hi htail hk,
        reparent_of_not_mem fun hm => hne ".." hm ".." hup rfl]

end Entries

namespace Tree

variable {strays crooked : Prop} {owed : Nat → Int} {files files' : Nat → Option FileState}
variable {v w : Volume} {op : Operation} {h : Nat} {f g : FileState}

namespace Operation

def Writes (op : Operation) (h : Nat) : Prop :=
  (∃ size, op = .truncate (.inode h) size) ∨ ∃ offset data, op = .write (.inode h) offset data

def Chmods (op : Operation) (h : Nat) : Prop :=
  ∃ mode, op = .chmod (.inode h) mode

def Links (op : Operation) (h : Nat) : Prop :=
  ∃ parent name, op = .link h parent name

def Unlinks (op : Operation) (v : Volume) (h : Nat) : Prop :=
  ∃ parent name, op = .unlink parent name ∧ Tree.lookup v parent name = .ok h

def Edits (op : Operation) (h : Nat) : Prop :=
  (∃ name mode, op = .mknod h name mode) ∨ (∃ i name, op = .link i h name) ∨
    (∃ name, op = .unlink h name) ∨ (∃ name, op = .rmdir h name) ∨
    (∃ name q newName, op = .rename h name q newName) ∨ ∃ p name newName, op = .rename p name h newName

def Moves (op : Operation) (v : Volume) (h : Nat) : Prop :=
  ∃ parent name q newName, op = .rename parent name q newName ∧ Tree.lookup v parent name = .ok h

-- How an operation on inodes may change what is seen of a file.
structure Confines (op : Operation) (v : Volume) (h : Nat) (x y : View) : Prop where
  content : x.entries = none → y.content = x.content ∧ y.stat.size = x.stat.size ∨ op.Writes h
  mode    : y.stat.mode = x.stat.mode ∨ op.Chmods h
  links   : y.stat.links = x.stat.links ∨ op.Links h ∨ op.Unlinks v h
  entries : y.entries = x.entries ∨ op.Edits h ∨
    op.Moves v h ∧ ∃ q, y.entries = x.entries.map (Entries.reparent q)

namespace Confines

theorem refl (op : Operation) (v : Volume) (h : Nat) (x : View) : op.Confines v h x x :=
  ⟨fun _ => .inl ⟨rfl, rfl⟩, .inl rfl, .inl rfl, .inl rfl⟩

theorem edit (hd : f.isDir) (hm : g.mode = f.mode) (hr : g.refs = f.refs)
    (he : op.Edits h ∨ op.Moves v h ∧ ∃ q, Entries.used g.entries =
      Entries.reparent q (Entries.used f.entries)) :
    op.Confines v h (f.view h) (g.view h) where
  content := by simp [FileState.view, hd]
  mode    := .inl hm
  links   := .inl hr
  entries := by
    have hgd : g.isDir := by rwa [FileState.isDir, hm]
    refine .inr (he.imp_right ?_)
    rintro ⟨hmv, q, hq⟩
    exact ⟨hmv, q, by simp [FileState.view, hd, hgd, hq]⟩

theorem revise (hd : ¬f.isDir) (hm : g.mode = f.mode) (hb : g.bytes = f.bytes ∨ op.Writes h)
    (hr : g.refs = f.refs ∨ op.Links h ∨ op.Unlinks v h) :
    op.Confines v h (f.view h) (g.view h) where
  content := fun _ => hb.imp_left fun hb => by simp [FileState.view, hb]
  mode    := .inl hm
  links   := hr
  entries := by
    have hgd : ¬g.isDir := by rwa [FileState.isDir, hm]
    exact .inl (by simp [FileState.view, hd, hgd])

end Confines

def Isolates (op : Operation) (v : Volume) (files files' : Nat → Option FileState) : Prop :=
  ∀ h f g, files h = some f → files' h = some g → op.Confines v h (f.view h) (g.view h)

namespace Isolates

theorem refl (op : Operation) (v : Volume) (files : Nat → Option FileState) :
    op.Isolates v files files := by
  intro h f g hf hg
  obtain rfl := Option.some.inj (hf.symm.trans hg)
  exact .refl op v h _

theorem update {x : Option FileState} (hi : op.Isolates v files files')
    (hx : ∀ f g, files h = some f → x = some g → op.Confines v h (f.view h) (g.view h)) :
    op.Isolates v files (Function.update files' h x) := by
  intro k f g hf hg
  by_cases hk : k = h
  case pos =>
    subst hk
    exact hx f g hf (by rwa [Function.update_self] at hg)
  case neg => exact hi k f g hf (by rwa [Function.update_of_ne hk] at hg)

theorem create {x : Option FileState} (hi : op.Isolates v files files') (hn : files h = none) :
    op.Isolates v files (Function.update files' h x) :=
  hi.update fun f _ hf _ => by simp [hn] at hf

theorem replace (hi : op.Isolates v files files') (hf : files h = some f)
    (hc : op.Confines v h (f.view h) (g.view h)) :
    op.Isolates v files (Function.update files' h (some g)) := by
  refine hi.update fun f' g' hf' hg => ?_
  obtain rfl := Option.some.inj (hf.symm.trans hf')
  obtain rfl := Option.some.inj hg
  exact hc

theorem enter (hi : op.Isolates v files files') (hf : files h = some f) (hd : f.isDir)
    (he : op.Edits h) (hm : g.mode = f.mode) (hr : g.refs = f.refs) :
    op.Isolates v files (Function.update files' h (some g)) :=
  hi.replace hf (.edit hd hm hr (.inl he))

end Isolates
end Operation

theorem made_isolates {parent refs i : Nat} {name : String} {mode : UInt32}
    (m : Made files parent name mode refs i files') (v : Volume) :
    Operation.Isolates (.mknod parent name mode) v files files' := by
  have he : Operation.Edits (.mknod parent name mode) parent := .inl ⟨name, mode, rfl⟩
  have hr := Operation.Isolates.refl (.mknod parent name mode) v files
  cases m
  case file hf hd _ hi _      => exact (hr.enter hf hd he (by rfl) (by rfl)).create hi
  case directory hf hd _ hi _ => exact (hr.enter hf hd he (by rfl) (by rfl)).create hi
  case strayFile hn _         => exact hr.create hn
  case strayDirectory hn _    => exact hr.create hn

theorem moved_isolates {d q t : Nat} {name newName : String} (m : Moved files d name q newName t files')
    (mv : Movable files d name q newName t) (a : Arranged crooked owed files) (hv : v.Holds files) :
    Operation.Isolates (.rename d name q newName) v files files' := by
  have hr := Operation.Isolates.refl (.rename d name q newName) v files
  have hd : Operation.Edits (.rename d name q newName) d := by simp [Operation.Edits]
  have hq : Operation.Edits (.rename d name q newName) q := by simp [Operation.Edits]
  have ⟨e, he, hed, _⟩ := mv.parent
  have ⟨x, i, hx, hxd, hfind⟩ := mv.target
  have same : ∀ {es k y}, Function.update files q (some (e.withEntries es)) k = some y →
      ∃ z, files k = some z ∧ y.mode = z.mode ∧ y.refs = z.refs := by
    intro es k y hy
    by_cases hk : k = q
    case pos =>
      subst hk
      rw [Function.update_self, Option.some.injEq] at hy
      exact ⟨e, he, hy ▸ ⟨rfl, rfl⟩⟩
    case neg => exact ⟨y, by rwa [Function.update_of_ne hk] at hy, rfl, rfl⟩
  cases m
  case entry e' f g j files₁ hg hgd he' h₁ hf hj =>
    obtain rfl := Option.some.inj (he.symm.trans he')
    subst h₁
    have ⟨z, hz, hm, hrefs⟩ := same hf
    obtain rfl := Option.some.inj (hx.symm.trans hz)
    exact (hr.enter he hed hq (by rfl) (by rfl)).enter hx hxd hd hm hrefs
  case directory e' f g y j k p files₁ files₂ hg hgd hdq he' h₁ hf hj h₂ hy hk =>
    obtain rfl := Option.some.inj (he.symm.trans he')
    obtain rfl := Option.some.inj (hx.symm.trans hf)
    have h : Operation.Isolates (.rename d name q newName) v files files₂ := by
      rw [h₂, h₁]
      exact (hr.enter he hed hq (by rfl) (by rfl)).enter hx hxd hd (by rfl) (by rfl)
    by_cases htd : t = d
    case pos =>
      subst htd
      rw [h₂, Function.update_self, Option.some.injEq] at hy
      exact h.enter hx hxd hd (hy ▸ rfl) (hy ▸ rfl)
    case neg =>
      have htq := (mv.apart (Arranged.isDir_iff.mpr ⟨g, hg, hgd⟩)).left
      rw [h₂, Function.update_of_ne htd, h₁, Function.update_of_ne htq, hg, Option.some.injEq] at hy
      subst hy
      have hlook : Tree.lookup v d name = .ok t := by rw [a.lookup_eq hv hx hxd, hfind]
      have hs : ∀ e ∈ g.entries.set k ⟨"..", some q⟩, e.Storable :=
        ((a.lists hg hgd).set (.used (by decide) (by decide) (a.lt he))).storable
      refine h.replace hg (.edit hgd rfl rfl (.inr ⟨⟨d, name, q, newName, rfl, hlook⟩, q, ?_⟩))
      rw [FileState.entries_withEntries hs, Entries.used_set_up (a.distinct hg hgd) hk]

theorem Operation.Direct.isolates (s : Settled strays crooked files) (hv : v.Holds files)
    (hd : op.Direct) (ha : op.Admissible v) (hr : op ≠ .reset) :
    op.perform.Ensures v (fun _ w => ∃ files', w.Holds files' ∧ op.Isolates v files files')
      (fun _ _ => True) := by
  have ⟨_, a, _⟩ := s
  -- what only looks leaves all files as they are
  have same : ∀ w, w = v → ∃ files', w.Holds files' ∧ op.Isolates v files files' :=
    fun w hw => ⟨files, hw ▸ hv, .refl op v files⟩
  cases op
  case mknodAt | mkdirAt | linkAt | unlinkAt | rmdirAt | renameAt => exact hd.elim
  case reset => contradiction
  case sync => exact same v rfl
  all_goals rw [perform]
  case access | stat | read | list =>
    obtain ⟨n, rfl⟩ := hd
    rw [Node.find, pure_bind, ensures_bind]
    exact (query_ensures _ _).mono (fun _ => same) fun _ _ _ => trivial
  case lookup | usage =>
    rw [ensures_bind]
    exact (query_ensures _ _).mono (fun _ => same) fun _ _ _ => trivial
  case mknod parent name mode =>
    rw [ensures_bind]
    apply (mknod_ensures a hv (hv.addresses ha.left) ha.right).mono
    case he => exact fun _ _ _ => trivial
    rintro i w ⟨_, _, files', hm, hw⟩
    exact ⟨files', hw, made_isolates hm v⟩
  case link i parent name =>
    rw [ensures_bind]
    apply (link_ensures s hv (hv.addresses ha.left) (hv.addresses ha.right.left)).mono
    case he => exact fun _ _ _ => trivial
    rintro _ w ⟨_, _, f, g, hf, hfd, _, hg, hgd, hw⟩
    have hr := Isolates.refl (.link i parent name) v files
    refine ⟨_, hw, (hr.enter hf hfd (by simp [Edits]) (by rfl) (by rfl)).replace hg ?_⟩
    exact .revise hgd rfl (.inl rfl) (.inr (.inl ⟨parent, name, rfl⟩))
  case unlink parent name =>
    rw [ensures_bind]
    apply (unlink_ensures s hv (hv.addresses ha.left)).mono
    case he => exact fun _ _ _ => trivial
    rintro _ w ⟨_, f, g, i, t, hf, hfd, hfind, hg, hgd, hw, _⟩
    have hlook : Tree.lookup v parent name = .ok t := by rw [a.lookup_eq hv hf hfd, hfind]
    have hr := Isolates.refl (.unlink parent name) v files
    refine ⟨_, hw, (hr.enter hf hfd (by simp [Edits]) (by rfl) (by rfl)).update fun f' g' hf' hg' => ?_⟩
    obtain rfl := Option.some.inj (hg.symm.trans hf')
    rw [FileState.released] at hg'
    split at hg'
    case isTrue  => contradiction
    case isFalse =>
      obtain rfl := Option.some.inj hg'
      exact .revise hgd rfl (.inl rfl) (.inr (.inr ⟨parent, name, rfl, hlook⟩))
  case rmdir parent name =>
    rw [ensures_bind]
    apply (rmdir_ensures s hv (hv.addresses ha.left)).mono
    case he => exact fun _ _ _ => trivial
    rintro _ w ⟨_, f, g, i, t, hf, hfd, _, _, _, _, hw, _⟩
    have hr := Isolates.refl (.rmdir parent name) v files
    exact ⟨_, hw, (hr.enter hf hfd (by simp [Edits]) (by rfl) (by rfl)).update (by simp)⟩
  case rename d name q newName =>
    rw [ensures_bind]
    apply (rename_ensures a hv (hv.addresses ha.left) (hv.addresses ha.right.right.left)
      ha.right.right.right).mono
    case he => exact fun _ _ _ => trivial
    rintro _ w ⟨t, files', mv, m, hw⟩
    exact ⟨files', hw, moved_isolates m mv a hv⟩
  case truncate node size =>
    obtain ⟨n, rfl⟩ := hd
    rw [Node.find, pure_bind, ensures_bind]
    apply (truncate_ensures hv (hv.addresses ha)).mono
    case he => exact fun _ _ _ => trivial
    rintro _ w ⟨f, hf, hfd, hw, _⟩
    refine ⟨_, hw, (Isolates.refl _ v files).replace hf ?_⟩
    exact .revise hfd rfl (.inr (.inl ⟨size, rfl⟩)) (.inl rfl)
  case write node offset data =>
    obtain ⟨n, rfl⟩ := hd
    rw [Node.find, pure_bind, ensures_bind]
    apply (write_ensures hv (hv.addresses ha) _).mono
    case he => exact fun _ _ _ => trivial
    rintro _ w ⟨f, hf, hfd, h⟩
    rcases h with ⟨_, _, hw⟩ | ⟨_, k, _, _, _, hw⟩
    case inl => exact same w hw
    case inr =>
      refine ⟨_, hw, (Isolates.refl _ v files).replace hf ?_⟩
      exact .revise hfd rfl (.inr (.inr ⟨offset, data, rfl⟩)) (.inl rfl)
  case chmod node mode =>
    obtain ⟨n, rfl⟩ := hd
    rw [Node.find, pure_bind, ensures_bind]
    apply (chmod_ensures s hv (hv.addresses ha)).mono
    case he => exact fun _ _ _ => trivial
    rintro _ w ⟨f, hf, hw⟩
    refine ⟨_, hw, (Isolates.refl _ v files).replace hf ?_⟩
    have hk := Mode.kindBits_or_permissions (Mode.kindBits_kindBits f.mode) mode
    have hd : FileState.isDir { f with mode := Mode.kindBits f.mode ||| Mode.permissions mode } =
        f.isDir := by
      rw [FileState.isDir, hk, FileState.isDir]
    refine ⟨fun _ => .inl ⟨rfl, rfl⟩, .inr ⟨mode, rfl⟩, .inl rfl, .inl ?_⟩
    simp only [FileState.view, hd]
    rfl

-- Every operation but a reset, whether it succeeds or not, leaves alone what it is not about.
theorem Reachable.isolation (r : Reachable v) (ha : op.Admissible v) (hr : op ≠ .reset)
    (hv : v.Head h) (hw : (op.perform v).2.Head h) :
    ∃ x y, v.view h = .ok x ∧ (op.perform v).2.view h = .ok y ∧
      (y = x ∨ ∃ op', op.Means v op' ∧ op'.Confines v h x y) := by
  have ⟨steps, r⟩ := r
  have ⟨files, hf, s⟩ := r.settled
  have ⟨files', hg, s'⟩ := (r.step ha).settled
  have ⟨_, a, _⟩ := s
  have ⟨_, a', _⟩ := s'
  have ⟨f, hfh⟩ := hf.head_iff.mp hv
  have ⟨g, hgh⟩ := hg.head_iff.mp hw
  refine ⟨f.view h, g.view h, a.view_eq hf hfh, a'.view_eq hg hgh, ?_⟩
  rcases hres : op.perform v with ⟨e | _, w⟩
  case error =>
    have ⟨hx, _⟩ := op.perform_fails s hf ha hres
    rw [hres] at hg
    obtain rfl := hg.unique hx
    exact .inl (by rw [Option.some.inj (hfh.symm.trans hgh)])
  case ok =>
    rcases op.means_cases a hf ha with ⟨e, he, _⟩ | ⟨op', hm, hl⟩
    case inl => simp [he] at hres
    case inr =>
      have hi := hl.direct.isolates s hf hl.admissible fun h => hr (hl.reset h)
      have ⟨files'', hx, hi⟩ := hi.of_ok (hm.perform_eq ▸ hres)
      rw [hres] at hg
      obtain rfl := hg.unique hx
      exact .inr ⟨op', hm, hi h f g hfh hgh⟩

theorem Reachable.head_root (r : Reachable v) : v.Head rootInode := by
  have ⟨_, r⟩ := r
  have ⟨_, hv, _, a, _⟩ := r.settled
  have ⟨f, hf, _⟩ := a.exists_root
  exact hv.head_iff.mpr ⟨f, hf⟩

theorem isolation_mkdir :
    let op := Operation.mkdirAt "/a" 0o755
    let w := (op.perform fresh).2
    (Reachable fresh ∧ op.Admissible fresh ∧ op ≠ .reset ∧ fresh.Head rootInode ∧
      w.Head rootInode) ∧
      ∃ x y, fresh.view rootInode = .ok x ∧ w.view rootInode = .ok y ∧
        (y = x ∨ ∃ op', op.Means fresh op' ∧ op'.Confines fresh rootInode x y) := by
  intro op w
  have ha : op.Admissible fresh := (by decide : Entry.Plain "/a")
  have r := Run.start_fresh.reachable
  have h := r.head_root
  have h' := (Run.fresh ha).reachable.head_root
  exact ⟨⟨r, ha, nofun, h, h'⟩, r.isolation ha nofun h h'⟩

end Tree
end InodeVolume
