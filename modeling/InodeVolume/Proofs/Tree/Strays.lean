import InodeVolume.Proofs.Tree.History

namespace InodeVolume.Tree

open VolumeM Volume

variable {strays crooked : Prop} {files : Nat → Option FileState} {v : Volume} {op : Operation}
variable {kind : NodeKind} {name : String} {mode : UInt32}

namespace Operation.Plants

theorem made (s : Settled strays crooked files) (hv : v.Holds files) (ha : op.Admissible v)
    (hp : op.Plants kind v) :
    ∃ i name mode files', op = .mknod i name mode ∧ Proper name ∧ Entry.fits name ∧
      Entry.Plain name ∧ NodeKind.ofMode mode = kind ∧ files i = none ∧
      Made files i name mode 1 i files' ∧ (op.perform v).2.Holds files' := by
  obtain ⟨parent, name, mode, i, hop, hk, hfree, hr⟩ := hp
  subst hop
  obtain ⟨_, a, _⟩ := s
  have hnone : files parent = none := by
    by_contra hf
    obtain ⟨f, hf⟩ := Option.ne_none_iff_exists'.mp hf
    have := hv.link?_isSome hf
    rw [isSome_link?, hfree] at this
    contradiction
  have h : (perform (.mknod parent name mode)).Ensures v
      (fun _ w => ∃ files' j, Proper name ∧ Entry.fits name ∧ Made files parent name mode 1 j files' ∧
        w.Holds files')
      (Directory.Refuses files) := by
    rw [perform, ensures_bind]
    apply (mknod_ensures a hv (hv.addresses ha.left) ha.right).barring (fun _ _ h => h.left)
    rintro j w ⟨hp, hf, files', hm, hw⟩
    exact ⟨files', j, hp, hf, hm, hw⟩
  obtain ⟨files', j, hp, hf, hm, hw⟩ := h.of_ok (Prod.ext hr rfl)
  refine ⟨parent, name, mode, files', rfl, hp, hf, ha.right, hk, hnone, ?_, hw⟩
  cases hm
  case file hf _ _ _ _      => simp [hnone] at hf
  case directory hf _ _ _ _ => simp [hnone] at hf
  case strayFile hk hn hlt      => exact .strayFile hk hn hlt
  case strayDirectory hk hn hlt => exact .strayDirectory hk hn hlt

theorem keeps (s : Settled strays crooked files) (hv : v.Holds files) (ha : op.Admissible v)
    (hp : op.Plants kind v) :
    ∃ files', (op.perform v).2.Holds files' ∧ Settled True True files' ∧
      ∀ h, Named files h → Named files' h := by
  have ⟨_, _, _, files', _, hproper, hfit, hplain, _, _, hm, hw⟩ := made s hv ha hp
  have s' := (hm.settled s hfit hplain hproper).mono (fun _ => trivial) fun _ => trivial
  have ⟨_, a, _⟩ := s
  exact ⟨files', hw, s', fun h hn => hm.named a hplain hfit hn⟩

theorem regular (s : Settled strays crooked files) (hv : v.Holds files) (ha : op.Admissible v)
    (hp : op.Plants .regular v) :
    ∃ files' i f, (op.perform v).2.Holds files' ∧ Settled True crooked files' ∧ i ≠ rootInode ∧
      files' i = some f ∧ ¬f.isDir ∧ ¬Named files' i := by
  have ⟨i, name, mode, files', _, hproper, hfit, hplain, hk, hnone, hm, hw⟩ := made s hv ha hp
  have s' := hm.settled s hfit hplain hproper
  have ⟨_, a, _⟩ := s
  have ⟨_, hroot, _⟩ := a.exists_root
  have h0 : i ≠ rootInode := by
    intro e
    simp [← e, hnone] at hroot
  cases hm
  case file hf _ _ _ _      => simp [hnone] at hf
  case directory hf _ _ _ _ => simp [hnone] at hf
  case strayDirectory hd _ _ => simp [hk] at hd
  case strayFile =>
    refine ⟨_, i, _, hw, s'.mono (fun _ => trivial) ?_, h0, Function.update_self ..,
      FileState.not_isDir_empty 1 mode, ?_⟩
    case refine_1 => exact fun h => h.resolve_right fun ⟨_, hd⟩ => by simp [hk] at hd
    case refine_2 =>
      intro ⟨d, x, n, hx, hp, hmem⟩
      rw [graph_update] at hx
      by_cases hd : d = i
      case pos =>
        subst hd
        rw [Function.update_self, Option.map_some, Option.some.injEq] at hx
        subst hx
        simp [FileState.node, FileState.not_isDir_empty] at hmem
      case neg =>
        rw [Function.update_of_ne hd] at hx
        have := a.consistent.named d x n i hx hmem
        simp [isSome_graph, hnone] at this

theorem directory (s : Settled strays crooked files) (hv : v.Holds files) (ha : op.Admissible v)
    (hp : op.Plants .directory v) :
    ∃ files' i f name, (op.perform v).2.Holds files' ∧ Settled strays True files' ∧
      files' i = some f ∧ f.isDir ∧ Proper name ∧ f.entries[1]? = some ⟨name, some i⟩ := by
  have ⟨i, name, mode, files', _, hproper, hfit, hplain, hk, hnone, hm, hw⟩ := made s hv ha hp
  have s' := hm.settled s hfit hplain hproper
  cases hm
  case file hf _ _ _ _      => simp [hnone] at hf
  case directory hf _ _ _ _ => simp [hnone] at hf
  case strayFile hr _ _     => simp [hk] at hr
  case strayDirectory hlt =>
    refine ⟨_, i, _, name, hw, s'.mono ?_ fun _ => trivial, Function.update_self ..,
      FileState.isDir_empty 1 mode, hproper, ?_⟩
    case refine_1 => exact fun h => h.resolve_right fun ⟨_, hr⟩ => by simp [hk] at hr
    case refine_2 =>
      rw [FileState.entries_withEntries (Entries.storable_self hfit hplain hlt)]
      rfl

end Operation.Plants

theorem place_self_ensures {bits : UInt32} {n i : Nat} (hs : Sparse n files) (hi : i < n)
    (hn : n + reservedBlocks < blockCount) (hlt : i < inodeCount) (hp : Proper name)
    (hfit : Entry.fits name) (hplain : Entry.Plain name)
    (hk : (NodeKind.ofMode mode).bits? = some bits)
    (hv : v.Holds (Function.update files i (some (.empty 0 bits mode)))) :
    (mknod.place i name (NodeKind.ofMode mode) i).Ensures v
      (fun _ w => ∃ f, f.refs = 0 ∧ w.Holds (Function.update files i (some f))) Never := by
  have hs₀ := hs.update hi (f := .empty 0 bits mode) (Nat.zero_le _)
  have hl := FileState.lists_empty 0 bits mode
  rw [mknod.place]
  cases hkind : NodeKind.ofMode mode
  case unknown => simp [hkind, NodeKind.bits?] at hk
  case regular =>
    simp only [hkind, NodeKind.bits?, Option.some.injEq] at hk
    subst hk
    rw [if_neg (by decide), ensures_discard, Directory.attach, ensures_bind]
    apply (Directory.add_sparse_ensures hv hs₀ hn (Function.update_self ..) hl (by decide) hfit
      (by simp)).mono_ok
    intro _ w hw
    rw [Function.update_idem] at hw
    rw [ensures_bind, ensures_query_ok (hw.isDir (Function.update_self ..)),
      FileState.isDir_withEntries, if_neg (FileState.not_isDir_empty 0 mode)]
    exact ⟨_, rfl, hw⟩
  case directory =>
    simp only [hkind, NodeKind.bits?, Option.some.injEq] at hk
    subst hk
    have hdot : Entry.Storable ⟨".", some i⟩ := .used (by decide) (by decide) hlt
    have hl₁ : ((FileState.empty 0 Mode.directory mode).withEntries
        (Entries.insert [] ⟨".", some i⟩)).Lists [⟨".", some i⟩] := hl.insert hdot
    -- the entry for the one above it comes last
    have hl₂ : (((FileState.empty 0 Mode.directory mode).withEntries
        (Entries.insert [] ⟨".", some i⟩)).withEntries
        (Entries.insert [⟨".", some i⟩] ⟨name, some i⟩)).Lists [⟨".", some i⟩, ⟨name, some i⟩] :=
      hl₁.insert (.used hfit hplain hlt)
    have hne : name ≠ "." ∧ name ≠ ".." := hp
    rw [if_pos rfl, ensures_bind, Directory.start, ensures_discard]
    apply (Directory.add_sparse_ensures hv hs₀ hn (Function.update_self ..) hl (by decide)
      (by decide) (by simp)).mono_ok
    intro _ x hx
    have hs₁ := hs₀.lists hi hl₁ (show 1 ≤ 64 by decide)
    rw [ensures_discard, Directory.attach, ensures_bind]
    apply (Directory.add_sparse_ensures hx hs₁ hn (Function.update_self ..) hl₁
      (show 1 < 64 by decide) hfit (by simp [Entries.used, Entry.naming, hne.left])).mono_ok
    intro _ y hy
    have hs₂ := hs₁.lists hi hl₂ (show 2 ≤ 64 by decide)
    rw [ensures_bind, ensures_query_ok (hy.isDir (Function.update_self ..)),
      FileState.isDir_withEntries, FileState.isDir_withEntries, if_pos (FileState.isDir_empty 0 mode),
      ensures_bind, ensures_attempt]
    apply (Directory.add_sparse_ensures hy hs₂ hn (Function.update_self ..) hl₂
      (show 2 < 64 by decide) (by decide)
      (by simp [Entries.used, Entry.naming, hne.right.symm])).mono_never
    intro _ w hw
    simp only [Function.update_idem] at hw
    exact ⟨_, rfl, hw⟩

structure Packed (n : Nat) (files : Nat → Option FileState) : Prop where
  sparse : Sparse n files
  dense  : ∀ h < n, ∃ f, files h = some f

theorem packed_rootFiles : Packed 1 rootFiles where
  sparse := sparse_rootFiles
  dense  := fun h hh => ⟨.root, by rw [Nat.lt_one_iff.mp hh]; exact Function.update_self ..⟩

theorem Packed.append {n : Nat} {f : FileState} (p : Packed n files)
    (hf : f.bytes.length ≤ blockSize) : Packed (n + 1) (Function.update files n (some f)) where
  sparse := by
    have hs : Sparse (n + 1) files := p.sparse.mono n.le_succ
    exact hs.update (Nat.lt_succ_self n) hf
  dense := by
    intro h hh
    by_cases hn : h = n
    case pos => exact ⟨f, by rw [hn, Function.update_self]⟩
    case neg =>
      have ⟨g, hg⟩ := p.dense h (by omega)
      exact ⟨g, by rw [Function.update_of_ne hn, hg]⟩

theorem mknod_next_ensures {bits : UInt32} {parent n : Nat} (hv : v.Holds files) (p : Packed n files)
    (hlt : n < inodeCount) (hp : Proper name) (h0 : name ≠ "")
    (hk : (NodeKind.ofMode mode).bits? = some bits)
    (habsent : lookup v parent name = .error (.errno .notFound))
    (hplace : ∀ y, y.Holds (Function.update files n (some (.empty 0 bits mode))) →
      (mknod.place parent name (NodeKind.ofMode mode) n).Ensures y
        (fun _ w => ∃ files' f, files' n = some f ∧ f.refs = 0 ∧ w.Holds files') Never) :
    (mknod parent name mode).Ensures v (fun i _ => i = n) Never := by
  have hfree : v.link? n = none := hv.link?_of_sparse p.sparse (Nat.le_refl n)
  rw [mknod, ensures_bind, ensures_guardName ⟨h0, hp⟩]
  dsimp only
  rw [hk]
  dsimp only
  rw [ensures_bind, Arranged.ensures_expectAbsent habsent, ensures_bind]
  apply (File.alloc_ensures hv).mono
  case he =>
    rintro e w ⟨_, _, hall⟩
    simpa [hfree] using hall n hlt
  rintro i x ⟨_, hi, _, hx, hleast, _⟩
  obtain rfl : i = n := by
    have h₁ : ¬n < i := fun hlt => by simpa [hfree] using hleast n hlt
    have h₂ : ¬i < n := fun hlt => by
      obtain ⟨f, hf⟩ := p.dense i hlt
      simpa [hi] using hv.link?_isSome hf
    omega
  obtain ⟨c, hc, hrefs, _, hput⟩ := File.exists_inode hx (Function.update_self ..)
  rw [ensures_bind, ensures_query_ok hc, ensures_bind]
  apply (hput c.refs (bits ||| Mode.permissions mode) (by rw [hrefs]; decide)).mono_ok
  rintro _ y ⟨hy, _⟩
  rw [Function.update_idem, hrefs] at hy
  rw [ensures_bind, ensures_attempt]
  apply (hplace y hy).mono_never
  rintro _ z ⟨files', f, hf, hr, hz⟩
  dsimp only
  rw [ensures_bind]
  exact (addReference_ensures hz hf (by rw [hr]; decide)).mono_ok fun _ _ _ => rfl

theorem link_sparse_ensures {n d i : Nat} {f g : FileState} {es : List Entry} (hv : v.Holds files)
    (hs : Sparse n files) (hn : n + reservedBlocks < blockCount) (hf : files d = some f)
    (hl : f.Lists es) (hd : f.isDir) (hlen : es.length < blockSize / entrySize)
    (habsent : ∀ u, (name, u) ∉ Entries.used es) (hname : name ≠ "" ∧ Proper name)
    (hfit : Entry.fits name) (hg : files i = some g) (hgd : ¬g.isDir)
    (hr : g.refs + 1 < 0x80000000) :
    (link i d name).Ensures v
      (fun _ w => w.Holds (Function.update (Function.update files d
        (some (f.withEntries (Entries.insert es ⟨name, some i⟩)))) i
        (some { g with refs := g.refs + 1 }))) Never := by
  have hne : i ≠ d := by
    rintro rfl
    obtain rfl := Option.some.inj (hf.symm.trans hg)
    exact hgd hd
  rw [link, ensures_bind, ensures_guardName hname, ensures_bind, ensures_query_ok (hv.isDir hg),
    if_neg hgd, ensures_bind, ensures_query_ok (hv.isDir hf), if_neg (by simp [hd]), ensures_bind,
    ensures_discard]
  apply (Directory.add_sparse_ensures hv hs hn hf hl hlen hfit habsent).mono_ok
  exact fun _ w hw => addReference_ensures hw ((Function.update_of_ne hne ..).trans hg) hr

theorem Operation.plants_next {n : Nat} (hv : v.Holds files) (p : Packed n files)
    (hn : n + 1 + reservedBlocks < blockCount) (hk : NodeKind.ofMode mode = kind)
    (hu : kind ≠ .unknown) (hp : Proper name) (h0 : name ≠ "") (hfit : Entry.fits name)
    (hplain : Entry.Plain name) : Plants (.mknod n name mode) kind v := by
  obtain ⟨bits, hbits⟩ : ∃ bits, (NodeKind.ofMode mode).bits? = some bits := by
    rw [hk]
    cases kind
    case regular   => exact ⟨_, rfl⟩
    case directory => exact ⟨_, rfl⟩
    case unknown   => contradiction
  have hfree : v.inodeTaken n = false := by
    rw [← isSome_link?, hv.link?_of_sparse p.sparse (Nat.le_refl n)]
    rfl
  have hlt : n < inodeCount := by lia
  have habsent : Tree.lookup v n name = .error (.errno .notFound) := by
    rw [Tree.lookup, isDir_of_free (hv.link?_of_sparse p.sparse (Nat.le_refl n))]
    rfl
  have hs : Sparse (n + 1) files := p.sparse.mono n.le_succ
  have h : (perform (.mknod n name mode)).Ensures v (fun r _ => ∃ i, r = .inode i) Never := by
    rw [perform, ensures_bind]
    refine (mknod_next_ensures hv p hlt hp h0 hbits habsent fun y hy => ?_).mono_ok
      fun i _ _ => ⟨i, rfl⟩
    apply (place_self_ensures hs n.lt_succ_self hn hlt hp hfit hplain hbits hy).mono_ok
    rintro _ w ⟨f, hf, hw⟩
    exact ⟨_, f, Function.update_self .., hf, hw⟩
  obtain ⟨r, w, hr, i, hi⟩ := h.exists_ok
  exact ⟨n, name, mode, i, rfl, hk, hfree, by rw [hr, hi]⟩

theorem Operation.admissible_next {n : Nat} (hv : v.Holds files) (p : Packed n files)
    (hplain : Entry.Plain name) : Admissible v (.mknod n name mode) :=
  ⟨hv.not_continues_of_sparse p.sparse, hplain⟩

theorem Operation.plants_fresh (kind : NodeKind) (mode : UInt32)
    (hk : NodeKind.ofMode mode = kind) (hu : kind ≠ .unknown) :
    Admissible fresh (.mknod 1 "x" mode) ∧ Plants (.mknod 1 "x" mode) kind fresh :=
  ⟨admissible_fresh (by decide), plants_next holds_fresh packed_rootFiles (by decide) hk hu (by decide)
    (by decide) (by decide) (by decide)⟩

-- Whatever ends where something is planted has ended after that.
theorem not_stray {P : Volume → Prop} (kind : NodeKind) (hk : NodeKind.ofMode mode = kind)
    (hu : kind ≠ .unknown)
    (hnot : Operation.Admissible fresh (.mknod 1 "x" mode) →
      Operation.Plants (.mknod 1 "x" mode) kind fresh →
      ¬P ((Operation.mknod 1 "x" mode).perform fresh).2) :
    let v := ((Operation.mknod 1 "x" mode).perform fresh).2
    Reachable v ∧ ¬P v :=
  have ⟨ha, hp⟩ := Operation.plants_fresh kind mode hk hu
  ⟨(Run.fresh ha).reachable, hnot ha hp⟩

-- A directory where all there is leads back to it, or a file whose bytes are an entry.
def planted (kind : NodeKind) (i : Nat) (name : String) (mode : UInt32) : FileState :=
  match kind with
  | .directory => (FileState.empty 1 Mode.directory mode).withEntries
      [⟨".", some i⟩, ⟨name, some i⟩, ⟨"..", some i⟩]
  | _          => (FileState.empty 1 Mode.regular mode).withEntries [⟨name, some i⟩]

theorem length_planted (kind : NodeKind) (i : Nat) (name : String) (mode : UInt32) :
    (planted kind i name mode).bytes.length ≤ 3 * entrySize := by
  have hlen : ∀ es : List Entry, es.length ≤ 3 → (Entries.bytes es).length ≤ 3 * entrySize :=
    fun es hes => (Entries.length_bytes es).symm ▸ Nat.mul_le_mul_right _ hes
  cases kind
  case directory         => exact hlen _ (Nat.le_refl _)
  case regular | unknown => exact hlen _ (Nat.le_add_left _ 2)

theorem plant_next (kind : NodeKind) {n : Nat} (s : Settled strays crooked files) (hv : v.Holds files)
    (p : Packed n files) (hn : n + 1 + reservedBlocks < blockCount)
    (hk : NodeKind.ofMode mode = kind) (hu : kind ≠ .unknown) (hp : Proper name) (h0 : name ≠ "")
    (hfit : Entry.fits name) (hplain : Entry.Plain name) :
    let files' := Function.update files n (some (planted kind n name mode))
    ((Operation.mknod n name mode).perform v).2.Holds files' ∧ Packed (n + 1) files' := by
  have hplants := Operation.plants_next hv p hn hk hu hp h0 hfit hplain
  have ⟨i, name', mode', files', hop, _, _, _, _, hnone, hm, hw⟩ :=
    hplants.made s hv (Operation.admissible_next hv p hplain)
  obtain ⟨rfl, rfl, rfl⟩ := Operation.mknod.inj hop
  have hp : Packed (n + 1) (Function.update files n (some (planted kind n name mode))) :=
    p.append (Nat.le_trans (length_planted ..) (by decide))
  cases hm
  case file hf _ _ _ _       => simp [hnone] at hf
  case directory hf _ _ _ _  => simp [hnone] at hf
  case strayFile hr _ _      => exact ⟨(hk ▸ hr : kind = .regular) ▸ hw, hp⟩
  case strayDirectory hd _ _ => exact ⟨(hk ▸ hd : kind = .directory) ▸ hw, hp⟩

end InodeVolume.Tree
