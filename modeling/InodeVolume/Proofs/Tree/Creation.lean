import InodeVolume.Proofs.Tree.Settled

namespace InodeVolume

open VolumeM Volume

namespace Mode

theorem kindBits_or_permissions {bits : UInt32} (hb : kindBits bits = bits) (mode : UInt32) :
    kindBits (bits ||| permissions mode) = bits := by
  have : permissions mode &&& kindMask = 0 := by
    rw [permissions, UInt32.and_assoc, UInt32.not_and_self, UInt32.and_zero]
  rw [kindBits] at *
  have hd : (bits ||| permissions mode) &&& kindMask =
      bits &&& kindMask ||| permissions mode &&& kindMask :=
    UInt32.toBitVec_inj.mp BitVec.and_or_distrib_right
  rw [hd, hb, this, UInt32.or_zero]

theorem kindBits_kindBits (mode : UInt32) : kindBits (kindBits mode) = kindBits mode := by
  rw [kindBits, kindBits, UInt32.and_assoc, UInt32.and_self]

end Mode

variable {strays crooked : Prop} {owed : Nat → Int} {files files' : Nat → Option FileState}
variable {v w : Volume} {parent i t : Nat} {f g : FileState} {name : String} {mode : UInt32}

def FileState.empty (refs : Nat) (bits mode : UInt32) : FileState :=
  ⟨refs, bits ||| Mode.permissions mode, []⟩

-- What making a file or directory makes of the files of a tree. It should end in one of the first
-- two ways. But where there is no parent at all and the number of it is the next one to be given
-- away, what is made becomes its own parent.
inductive Made (files : Nat → Option FileState) (parent : Nat) (name : String) (mode : UInt32)
    (refs : Nat) : Nat → (Nat → Option FileState) → Prop
  | file {f : FileState} {i : Nat} : NodeKind.ofMode mode = .regular → files parent = some f →
    f.isDir → (∀ u, (name, u) ∉ Entries.used f.entries) → files i = none → i < inodeCount →
    Made files parent name mode refs i (Function.update (Function.update files parent
      (some (f.withEntries (Entries.insert f.entries ⟨name, some i⟩)))) i
      (some (.empty refs Mode.regular mode)))
  | directory {f : FileState} {i : Nat} : NodeKind.ofMode mode = .directory → files parent = some f →
    f.isDir → (∀ u, (name, u) ∉ Entries.used f.entries) → files i = none → i < inodeCount →
    Made files parent name mode refs i (Function.update (Function.update files parent
      (some (f.withEntries (Entries.insert f.entries ⟨name, some i⟩)))) i
      (some ((FileState.empty refs Mode.directory mode).withEntries
        [⟨".", some i⟩, ⟨"..", some parent⟩])))
  | strayFile : NodeKind.ofMode mode = .regular → files parent = none → parent < inodeCount →
    Made files parent name mode refs parent (Function.update files parent
      (some ((FileState.empty refs Mode.regular mode).withEntries [⟨name, some parent⟩])))
  | strayDirectory : NodeKind.ofMode mode = .directory → files parent = none → parent < inodeCount →
    Made files parent name mode refs parent (Function.update files parent
      (some ((FileState.empty refs Mode.directory mode).withEntries
        [⟨".", some parent⟩, ⟨name, some parent⟩, ⟨"..", some parent⟩])))

namespace FileState

theorem kindBits_regular (refs : Nat) (mode : UInt32) :
    Mode.kindBits (empty refs Mode.regular mode).mode = Mode.regular :=
  Mode.kindBits_or_permissions (by decide) mode

theorem kindBits_directory (refs : Nat) (mode : UInt32) :
    Mode.kindBits (empty refs Mode.directory mode).mode = Mode.directory :=
  Mode.kindBits_or_permissions (by decide) mode

theorem not_isDir_empty (refs : Nat) (mode : UInt32) : ¬(empty refs Mode.regular mode).isDir := by
  rw [isDir, kindBits_regular]
  decide

theorem isDir_empty (refs : Nat) (mode : UInt32) : (empty refs Mode.directory mode).isDir := by
  rw [isDir, kindBits_directory]
  decide

theorem length_empty (refs : Nat) (bits mode : UInt32) : (empty refs bits mode).bytes.length = 0 :=
  rfl

theorem lists_empty (refs : Nat) (bits mode : UInt32) : (empty refs bits mode).Lists [] :=
  ⟨rfl, by simp⟩

def started (i : Nat) (mode : UInt32) : FileState :=
  (empty 0 Mode.directory mode).withEntries (Entries.insert [] ⟨".", some i⟩)

theorem isDir_started (i : Nat) (mode : UInt32) : (started i mode).isDir :=
  isDir_empty 0 mode

theorem lists_started (hi : i < inodeCount) (mode : UInt32) :
    (started i mode).Lists (Entries.insert [] ⟨".", some i⟩) :=
  (lists_empty 0 Mode.directory mode).insert (.used (by decide) (by decide) hi)

theorem length_started (i : Nat) (mode : UInt32) : (started i mode).bytes.length = entrySize :=
  Entries.length_bytes _

theorem takes_started (i : Nat) (mode : UInt32) :
    Directory.Takes (started i mode) (Entries.insert [] ⟨".", some i⟩) ".." := by
  refine ⟨by decide, by simp [Entries.insert, Entries.used, Entry.naming], ?_⟩
  rw [length_started]
  decide

end FileState

namespace Made

theorem refer {refs : Nat} (m : Made files parent name mode refs i files') (refs' : Nat) :
    ∃ g, files' i = some g ∧ g.refs = refs ∧
      Made files parent name mode refs' i
        (Function.update files' i (some { g with refs := refs' })) := by
  cases m
  case file hk hf hd hn hi hlt =>
    refine ⟨_, Function.update_self .., rfl, ?_⟩
    rw [Function.update_idem]
    exact .file hk hf hd hn hi hlt
  case directory hk hf hd hn hi hlt =>
    refine ⟨_, Function.update_self .., rfl, ?_⟩
    rw [Function.update_idem]
    exact .directory hk hf hd hn hi hlt
  case strayFile hk hn hlt =>
    refine ⟨_, Function.update_self .., rfl, ?_⟩
    rw [Function.update_idem]
    exact .strayFile hk hn hlt
  case strayDirectory hk hn hlt =>
    refine ⟨_, Function.update_self .., rfl, ?_⟩
    rw [Function.update_idem]
    exact .strayDirectory hk hn hlt

theorem settled (m : Made files parent name mode 1 i files') (s : Settled strays crooked files)
    (hfit : Entry.fits name) (hplain : Entry.Plain name) (hp : Proper name) :
    Settled (strays ∨ files parent = none ∧ NodeKind.ofMode mode = .regular)
      (crooked ∨ files parent = none ∧ NodeKind.ofMode mode = .directory) files' := by
  have ⟨owed, a, b⟩ := s
  have h0 : ∀ h, files h = none → h ≠ rootInode := by
    intro h hn e
    have ⟨_, hr, _⟩ := a.exists_root
    simp [← e, hn] at hr
  cases m
  case file f hk hf hd hn hi hlt =>
    suffices s' : Settled strays crooked _ from s'.mono .inl .inl
    have hne : parent ≠ i := by
      intro e
      simp [← e, hf] at hi
    have a₁ := a.create (f := .empty 0 Mode.regular mode) hi hlt (FileState.kindBits_regular ..)
    have a₂ := a₁.enter (d := parent) (f := f) (by rw [Function.update_of_ne hne, hf]) hd hfit hplain
      hp hn (t := i) (by simp)
    have a₃ := a₂.claim (h := i) (f := .empty 0 Mode.regular mode)
      (by rw [Function.update_of_ne hne.symm, Function.update_self]) (FileState.not_isDir_empty 0 mode) 1
    simp only [Function.update_comm hne.symm, Function.update_idem] at a₃
    refine ⟨_, a₃, (b.entries hf hd _).create ?_ fun _ => ⟨Nat.le_refl 1, .inl ?_⟩⟩
    case refine_1 => exact fun h => absurd h (FileState.not_isDir_empty 1 mode)
    case refine_2 => simp [FileState.empty]
  case directory f hk hf hd hn hi hlt =>
    suffices s' : Settled strays crooked _ from s'.mono .inl .inl
    have a₁ := a.make hf hd hfit hplain hp hn hi hlt (g := .empty 1 Mode.directory mode)
      (FileState.kindBits_directory ..) rfl rfl
    refine ⟨_, a₁, (b.entries hf hd _).create (fun _ => ?_) fun h => ?_⟩
    case refine_1 => rw [if_neg (h0 i hi)]
    case refine_2 => exact absurd (FileState.isDir_empty 1 mode) h
  case strayFile hk hn hlt =>
    suffices s' : Settled True crooked _ from s'.mono (fun _ => .inr ⟨hn, hk⟩) .inl
    have a₁ := a.create (f := (FileState.empty 1 Mode.regular mode).withEntries [⟨name, some parent⟩])
      hn hlt (FileState.kindBits_regular 1 mode)
    refine ⟨_, a₁, (b.mono fun _ => trivial).create ?_ fun _ => ⟨Nat.le_refl 1, .inr ⟨trivial, rfl⟩⟩⟩
    exact fun h => absurd h (FileState.not_isDir_empty 1 mode)
  case strayDirectory hk hn hlt =>
    suffices s' : Settled strays True _ from s'.mono .inl fun _ => .inr ⟨hn, hk⟩
    have a₁ := a.createCrooked (f := .empty 1 Mode.directory mode) hn hlt
      (FileState.kindBits_directory 1 mode) rfl hfit hplain hp rfl
    refine ⟨_, a₁, b.create (fun _ => ?_) fun h => absurd (FileState.isDir_empty 1 mode) h⟩
    rw [if_neg (h0 _ hn)]

theorem named {refs : Nat} (m : Made files parent name mode refs i files')
    (a : Arranged crooked owed files) (hplain : Entry.Plain name) (hfit : Entry.fits name) {h : Nat}
    (hn : Named files h) : Named files' h := by
  have hother : ∀ f x, files parent = some f → files i = none →
      Function.update files parent x i = none := by
    intro f x hf hi
    have hne : i ≠ parent := by
      intro e
      simp [e, hf] at hi
    rw [Function.update_of_ne hne, hi]
  refine hn.within ?_
  cases m
  case file hk hf hd _ hi hlt =>
    exact (a.within_enter hf hd (.used hfit hplain hlt)).trans (within_create (hother _ _ hf hi) _)
  case directory hk hf hd _ hi hlt =>
    exact (a.within_enter hf hd (.used hfit hplain hlt)).trans (within_create (hother _ _ hf hi) _)
  case strayFile hk hnone hlt      => exact within_create hnone _
  case strayDirectory hk hnone hlt => exact within_create hnone _

end Made

namespace Tree

theorem addReference_ensures (hv : v.Holds files) (hf : files i = some f)
    (hr : f.refs + 1 < 0x80000000) :
    (addReference i).Ensures v
      (fun _ w => w.Holds (Function.update files i (some { f with refs := f.refs + 1 }))) Never := by
  have ⟨c, hc, hrefs, hmode, hput⟩ := File.exists_inode hv hf
  rw [addReference, ensures_bind, ensures_query_ok hc]
  have := hput (c.refs + 1) c.mode (by omega)
  exact this.mono_ok fun _ w ⟨hw, _⟩ => by rwa [hrefs, hmode] at hw

def firstBlocks (mode : UInt32) : Nat :=
  if NodeKind.ofMode mode = .directory then 1 else 0

def Misplaced (v : Volume) (parent : Nat) (mode : UInt32) (i : Nat) (e : Fault) (w : Volume) : Prop :=
  ∀ k ≠ i, w.Trails k ↔
    v.Trails k ∨ e = .errno .noSpace ∧ k = parent ∧ v.Strands parent (firstBlocks mode) 0

namespace Misplaced

variable {u x : Volume} {e : Fault}

theorem of_spares (hs : v.Spares w i)
    (hn : parent ≠ i → e = .errno .noSpace → ¬v.Strands parent (firstBlocks mode) 0) :
    Misplaced v parent mode i e w := by
  intro k hk
  rw [hs k hk, iff_self_or]
  exact fun ⟨he, hkp, hst⟩ => absurd hst (hn (hkp ▸ hk) he)

theorem of_rejects {es : List Entry} (hs : v.Spares u i)
    (hst : u.Strands parent 0 0 ↔ v.Strands parent (firstBlocks mode) 0)
    (hr : Directory.Rejects u parent f es name e w) : Misplaced v parent mode i e w :=
  fun k hk => by rw [hr.trails_iff, hs k hk, hst]

theorem undo {bits : UInt32} (h : Misplaced u parent mode i e x) (hv : v.Holds files)
    (hu : u.Holds (Function.update files i (some (.empty 0 bits mode)))) (hi : files i = none)
    (hlt : i < inodeCount) (ht : ∀ k, u.Trails k ↔ v.Trails k) (hs : x.Spares w i)
    (hgone : ¬w.Trails i) (k : Nat) :
    w.Trails k ↔
      v.Trails k ∨ e = .errno .noSpace ∧ k = parent ∧ v.Strands parent (firstBlocks mode) 1 := by
  by_cases hk : k = i
  case pos =>
    -- nothing has been there before
    subst hk
    have hout : ¬v.Head k := fun h => by simpa [hi] using hv.head_iff.mp h
    refine iff_of_false hgone fun h => h.elim (fun ht => hout ht.left) fun ⟨_, hkp, hst⟩ => ?_
    exact hout (hkp ▸ hst.left.left)
  case neg =>
    rw [hs k hk, h k hk, ht]
    refine or_congr_right (and_congr_right fun _ => and_congr_right fun hkp => ?_)
    refine hv.strands_update hu hlt (hkp ▸ hk) ht 0 1 ?_ ?_ _ 0 <;> rw [hi]
    case refine_1 => exact (by decide : blocksFor 0 = 0 + 0)
    case refine_2 => exact (by decide : linksFor 0 = 0 + 1)

end Misplaced

theorem place_ensures (a : Arranged crooked owed files) (hi : files i = none) (hlt : i < inodeCount)
    (hp : files parent = some f) (hd : f.isDir) (hn : ∀ u, (name, u) ∉ Entries.used f.entries)
    {bits : UInt32} (hk : (NodeKind.ofMode mode).bits? = some bits)
    (hx : v.Holds (Function.update files i (some (.empty 0 bits mode)))) :
    (mknod.place parent name (NodeKind.ofMode mode) i).Ensures v
      (fun _ w => Entry.fits name ∧ ∃ files', Made files parent name mode 0 i files' ∧ w.Holds files')
      (fun e w => e.Ordinary ∧ (∃ g, w.Holds (Function.update files i (some g))) ∧
        Misplaced v parent mode i e w) := by
  have hne : i ≠ parent := by
    intro e
    simp [e, hp] at hi
  have hpx : Function.update files i (some (FileState.empty 0 bits mode)) parent = some f := by
    rw [Function.update_of_ne hne.symm, hp]
  rw [mknod.place]
  cases hkind : NodeKind.ofMode mode
  case unknown => simp [hkind, NodeKind.bits?] at hk
  case regular =>
    simp only [hkind, NodeKind.bits?, Option.some.injEq] at hk
    subst hk
    rw [if_neg (by decide), ensures_discard]
    apply (Directory.attach_file_ensures hx hpx (a.lists hp hd) (Function.update_self ..)
      (FileState.not_isDir_empty 0 mode)).mono
    case he =>
      rintro e w ⟨⟨he, hw⟩, hr⟩
      refine ⟨he, ⟨_, hw⟩, .of_rejects (.refl v i) ?_ hr⟩
      rw [firstBlocks, hkind, if_neg (by decide)]
    rintro _ w ⟨hfit, _, hw⟩
    rw [Function.update_comm hne] at hw
    exact ⟨hfit, _, .file hkind hp hd hn hi hlt, hw⟩
  case directory =>
    simp only [hkind, NodeKind.bits?, Option.some.injEq] at hk
    subst hk
    rw [if_pos rfl, ensures_bind, Directory.start, ensures_discard]
    apply (Directory.add_ensures hx (Function.update_self ..) (FileState.lists_empty ..)).mono
    case he =>
      rintro e w ⟨⟨he, hw⟩, hr⟩
      refine ⟨he, ⟨_, hw⟩, .of_spares hr.spares fun _ _ hst => ?_⟩
      have hc := hr.cramped (by decide) (by simp)
      have hzero := hc.freeBlocks hx (Function.update_self ..) (show 0 + blockSize ≤ _ by decide)
      rw [firstBlocks, hkind, if_pos rfl, Strands, hzero] at hst
      exact absurd hst.right.left (by decide)
    rintro _ y ⟨_, _, hy, _, hsy⟩
    rw [← FileState.started] at hy
    have ht := hsy.trails_iff (hx.not_trails (Function.update_self ..) (show 0 < _ by decide))
      (hy.not_trails (Function.update_self ..) (by rw [FileState.length_started]; decide))
    -- one block has gone to the new directory before there is an entry for it
    have hst : y.Strands parent 0 0 ↔ v.Strands parent 1 0 := by
      refine hx.strands_update hy hlt hne.symm ht 1 0 ?_ ?_ 0 0
      all_goals
        rw [Function.update_self, Option.elim_some, Option.elim_some, FileState.length_started,
          FileState.length_empty]
        decide
    rw [Function.update_idem] at hy
    have hpy : Function.update files i (some (FileState.started i mode)) parent = some f := by
      rw [Function.update_of_ne hne.symm, hp]
    rw [ensures_discard]
    apply (Directory.attach_dir_ensures hy hpy (a.lists hp hd) (Function.update_self ..)
      (FileState.lists_started hlt mode) (FileState.isDir_started i mode) hne
      (FileState.takes_started i mode)).mono
    case he =>
      rintro e w ⟨⟨he, hw⟩, hr⟩
      refine ⟨he, ⟨_, hw⟩, .of_rejects hsy ?_ hr⟩
      rw [hst, firstBlocks, hkind, if_pos rfl]
    rintro _ w ⟨hfit, _, hw⟩
    rw [Function.update_comm hne, Function.update_idem] at hw
    exact ⟨hfit, _, .directory hkind hp hd hn hi hlt, hw⟩

theorem place_free_ensures (hi : files i = none) (hlt : i < inodeCount) (hplain : Entry.Plain name)
    (hp : parent = i ∨ v.link? parent = none) {bits : UInt32}
    (hk : (NodeKind.ofMode mode).bits? = some bits)
    (hx : v.Holds (Function.update files i (some (.empty 0 bits mode)))) :
    (mknod.place parent name (NodeKind.ofMode mode) i).Ensures v
      (fun _ w => Entry.fits name ∧ ∃ files', Made files parent name mode 0 i files' ∧ w.Holds files')
      (fun e w => e.Ordinary ∧ (∃ g, w.Holds (Function.update files i (some g))) ∧
        Misplaced v parent mode i e w) := by
  have misplaced : ∀ e w, v.Spares w i → Misplaced v parent mode i e w := by
    refine fun e w hs => .of_spares hs fun hne _ hst => ?_
    have ht := hst.left.left.left
    rw [← isSome_link?, hp.resolve_left hne] at ht
    contradiction
  rw [mknod.place]
  cases hkind : NodeKind.ofMode mode
  case unknown => simp [hkind, NodeKind.bits?] at hk
  case regular =>
    simp only [hkind, NodeKind.bits?, Option.some.injEq] at hk
    subst hk
    rw [if_neg (by decide), ensures_discard]
    -- its own number may be what was given for the parent
    cases hp
    case inr hp =>
      apply (Directory.attach_free_ensures hp).mono
      case ho => exact fun _ _ => False.elim
      case he =>
        rintro e w ⟨he, rfl⟩
        exact ⟨he.ordinary, ⟨_, hx⟩, misplaced e w (.refl w i)⟩
    case inl hp =>
      subst hp
      apply (Directory.attach_file_ensures hx (Function.update_self ..) (FileState.lists_empty ..)
        (Function.update_self ..) (FileState.not_isDir_empty 0 mode)).mono
      case he => exact fun e w ⟨⟨he, hw⟩, hr⟩ => ⟨he, ⟨_, hw⟩, misplaced e w hr.spares⟩
      intro _ w ⟨hfit, _, hw⟩
      rw [Function.update_idem] at hw
      exact ⟨hfit, _, .strayFile hkind hi hlt, hw⟩
  case directory =>
    simp only [hkind, NodeKind.bits?, Option.some.injEq] at hk
    subst hk
    rw [if_pos rfl, ensures_bind, Directory.start, ensures_discard]
    apply (Directory.add_ensures hx (Function.update_self ..) (FileState.lists_empty ..)).mono
    case he => exact fun e w ⟨⟨he, hw⟩, hr⟩ => ⟨he, ⟨_, hw⟩, misplaced e w hr.spares⟩
    intro _ y ⟨_, _, hy, hr, hsy⟩
    rw [Function.update_idem, ← FileState.started] at hy
    rw [ensures_discard]
    cases hp
    case inr hp =>
      have hpy : y.link? parent = none := by
        by_contra hl
        have ⟨c, hc⟩ := Option.ne_none_iff_exists'.mp hl
        have ⟨d, hd, _⟩ := hr (show 0 + entrySize < inodeCapacity by decide) parent c hc
        simp [hp] at hd
      apply (Directory.attach_free_ensures hpy).mono
      case ho => exact fun _ _ => False.elim
      case he =>
        rintro e w ⟨he, rfl⟩
        exact ⟨he.ordinary, ⟨_, hy⟩, misplaced e w hsy⟩
    case inl hp =>
      subst hp
      apply (Directory.attach_self_ensures hy (Function.update_self ..)
        (FileState.lists_started hlt mode) (FileState.isDir_started parent mode) hplain hlt).mono
      case he =>
        intro e w ⟨he, ⟨g, hw⟩, hsw⟩
        rw [Function.update_idem] at hw
        exact ⟨he, ⟨g, hw⟩, misplaced e w (hsy.trans hsw)⟩
      intro _ w ⟨hfit, _, hw⟩
      rw [Function.update_idem] at hw
      exact ⟨hfit, _, .strayDirectory hkind hi hlt, hw⟩

-- Only where there is no parent it matters whether the name is read as it was written.
theorem mknod_any_ensures (a : Arranged crooked owed files) (hv : v.Holds files)
    (hp : Addresses v files parent) (hplain : files parent = none → Entry.Plain name) :
    (mknod parent name mode).Ensures v
      (fun i w => Proper name ∧ Entry.fits name ∧
        ∃ files', Made files parent name mode 1 i files' ∧ w.Holds files')
      (fun e w => Directory.Refuses files e w ∧ ∀ k, w.Trails k ↔
        v.Trails k ∨ e = .errno .noSpace ∧ k = parent ∧ v.Strands parent (firstBlocks mode) 1) := by
  have refused : ∀ e w, Refused v e w → Directory.Refuses files e w ∧ ∀ k, w.Trails k ↔
      v.Trails k ∨ e = .errno .noSpace ∧ k = parent ∧ v.Strands parent (firstBlocks mode) 1 := by
    rintro e w ⟨he, rfl⟩
    exact ⟨⟨he.ordinary, hv⟩, fun k => by simp [he.right]⟩
  rw [mknod, ensures_bind]
  apply (Arranged.guardName_ensures v name).barring refused
  rintro _ u ⟨hu, _, hproper⟩
  subst hu
  dsimp only
  cases hk : (NodeKind.ofMode mode).bits?
  case none => exact refused _ _ ⟨by decide, rfl⟩
  rename_i bits
  dsimp only
  rw [ensures_bind]
  apply (a.absent_ensures hv hp name).barring refused
  rintro _ u' ⟨hu, _, habsent⟩
  subst hu
  rw [ensures_bind]
  apply (File.alloc_ensures hv).mono
  case he =>
    rintro e w ⟨rfl, rfl, hall⟩
    refine ⟨⟨by decide, hv⟩, fun k => ?_⟩
    have hzero := exhausted_iff.mp hall
    simp [Strands, hzero]
  rintro i x ⟨hlt, hfree, hi, hx, _, hlinks, htx⟩
  obtain ⟨c, hc, hrefs, _, hput⟩ := File.exists_inode hx (Function.update_self ..)
  rw [ensures_bind, ensures_query_ok hc, ensures_bind]
  have hput := hput c.refs (bits ||| Mode.permissions mode) (by rw [hrefs]; decide)
  apply hput.mono_never
  rintro _ y ⟨hy, hry, hty⟩
  rw [Function.update_idem, hrefs] at hy
  -- what was no parent before may be one now, and then it is the new file itself
  have hplace : (mknod.place parent name (NodeKind.ofMode mode) i).Ensures y
      (fun _ w => Entry.fits name ∧ ∃ files', Made files parent name mode 0 i files' ∧ w.Holds files')
      (fun e w => e.Ordinary ∧ (∃ g, w.Holds (Function.update files i (some g))) ∧
        Misplaced y parent mode i e w) := by
    cases habsent
    case inl h =>
      obtain ⟨f, hf, hd, hn⟩ := h
      exact place_ensures a hi hlt hf hd hn hk hy
    case inr h =>
      have hnone : files parent = none := by
        by_contra hs
        obtain ⟨f, hf⟩ := Option.ne_none_iff_exists'.mp hs
        simpa [h] using hv.link?_isSome hf
      refine place_free_ensures hi hlt (hplain hnone) ?_ hk hy
      by_cases hpi : parent = i
      case pos => exact .inl hpi
      case neg =>
        refine .inr ?_
        by_contra hl
        obtain ⟨d, hd⟩ := Option.ne_none_iff_exists'.mp hl
        obtain ⟨e, he, _⟩ := hry parent d hd
        simp [hlinks parent hpi, h] at he
  rw [ensures_bind, ensures_attempt]
  apply hplace.mono
  case ho =>
    rintro _ z ⟨hfit, files', hm, hz⟩
    obtain ⟨g, hg, hgr, hm'⟩ := hm.refer 1
    dsimp only
    rw [ensures_bind]
    apply (addReference_ensures hz hg (by rw [hgr]; decide)).mono_never
    intro _ w hw
    rw [hgr] at hw
    exact ⟨hproper, hfit, _, hm', hw⟩
  case he =>
    rintro e z ⟨he, ⟨g, hz⟩, hmis⟩
    obtain ⟨n, rfl⟩ := he.exists_errno
    dsimp only
    -- the file goes again, and what it has taken with it
    rw [ensures_bind, ensures_discard, ensures_attempt]
    apply (File.delete_ensures hz (Function.update_self ..)).mono_never
    rintro _ w ⟨hw, _, hsw, hgone⟩
    rw [Function.update_idem, ← hi, Function.update_eq_self] at hw
    exact ⟨⟨he, hw⟩, hmis.undo hv hy hi hlt (fun k => (hty k).trans (htx k)) hsw hgone⟩

theorem mknod_ensures (a : Arranged crooked owed files) (hv : v.Holds files)
    (hp : Addresses v files parent) (hplain : Entry.Plain name) :
    (mknod parent name mode).Ensures v
      (fun i w => Proper name ∧ Entry.fits name ∧
        ∃ files', Made files parent name mode 1 i files' ∧ w.Holds files')
      (fun e w => Directory.Refuses files e w ∧ ∀ k, w.Trails k ↔
        v.Trails k ∨ e = .errno .noSpace ∧ k = parent ∧ v.Strands parent (firstBlocks mode) 1) :=
  mknod_any_ensures a hv hp fun _ => hplain

theorem link_ensures (s : Settled strays crooked files) (hv : v.Holds files)
    (hi : Addresses v files i) (hp : Addresses v files parent) :
    (link i parent name).Ensures v
      (fun _ w => Proper name ∧ Entry.fits name ∧ ∃ f g, files parent = some f ∧ f.isDir ∧
        (∀ u, (name, u) ∉ Entries.used f.entries) ∧ files i = some g ∧ ¬g.isDir ∧
        w.Holds (Function.update (Function.update files parent
          (some (f.withEntries (Entries.insert f.entries ⟨name, some i⟩)))) i
          (some { g with refs := g.refs + 1 })))
      (fun e w => Refused v e w ∨ Declined v files parent name i e w) := by
  have ⟨owed, a, _⟩ := s
  rw [link, ensures_bind]
  apply (Arranged.guardName_ensures v name).barring (fun _ _ => .inl)
  intro _ u ⟨hu, _, hproper⟩
  subst hu
  rw [ensures_bind]
  apply (isDir_ensures hv hi).barring (fun _ _ => .inl)
  intro b u' ⟨hu, g, hg, hgd⟩
  subst hu
  cases b
  case true => exact .inl ⟨by decide, rfl⟩
  rw [if_neg (by decide)]
  dsimp only
  rw [ensures_bind]
  apply (isDir_ensures hv hp).barring (fun _ _ => .inl)
  intro b u'' ⟨hu, f, hf, hfd⟩
  subst hu
  cases b
  case false => exact .inl ⟨by decide, rfl⟩
  rw [if_neg (by decide), ensures_bind, ensures_discard]
  apply (Directory.add_ensures hv hf (a.lists hf hfd)).with_result.mono
  case he => exact fun e w ⟨hr, _⟩ => .inr ⟨f, hf, hfd, hr⟩
  intro _ x ⟨_, hfit, habsent, hx, _⟩
  have hne : i ≠ parent := by
    intro e
    rw [e, hf, Option.some.injEq] at hg
    simp [hg, hgd] at hfd
  have hmax := s.refs_le hv hg
  apply (addReference_ensures hx (by rw [Function.update_of_ne hne, hg]) (by omega)).mono_never
  intro _ w hw
  exact ⟨hproper, hfit, f, g, hf, hfd, habsent, hg, by simp [hgd], hw⟩

theorem mknod_evolves (s : Settled strays crooked files) (hv : v.Holds files)
    (hp : Addresses v files parent) (hplain : Entry.Plain name) :
    (mknod parent name mode).Ensures v
      (fun _ w => Evolves (strays ∨ files parent = none ∧ NodeKind.ofMode mode = .regular)
        (crooked ∨ files parent = none ∧ NodeKind.ofMode mode = .directory) files v w)
      (Directory.Refuses files) := by
  have ⟨owed, a, _⟩ := s
  apply (mknod_ensures a hv hp hplain).barring (fun _ _ h => h.left)
  intro i w ⟨hproper, hfit, files', hm, hw⟩
  exact ⟨files', hw, hm.settled s hfit hplain hproper, .inl fun h hn => hm.named a hplain hfit hn⟩

theorem link_evolves (s : Settled strays crooked files) (hv : v.Holds files)
    (hi : Addresses v files i) (hp : Addresses v files parent) (hplain : Entry.Plain name) :
    (link i parent name).Ensures v (fun _ w => Evolves strays crooked files v w)
      (Directory.Refuses files) := by
  have ⟨owed, a, b⟩ := s
  apply (link_ensures s hv hi hp).barring
  case he => exact fun e w h => h.elim (Refused.refuses hv e w) (Declined.refuses a hv)
  intro _ w ⟨hproper, hfit, f, g, hf, hfd, habsent, hg, hgd, hw⟩
  have hne : i ≠ parent := by
    intro e
    rw [e, hf, Option.some.injEq] at hg
    exact hgd (hg ▸ hfd)
  have hgx : Function.update files parent
      (some (f.withEntries (Entries.insert f.entries ⟨name, some i⟩))) i = some g := by
    rw [Function.update_of_ne hne, hg]
  refine ⟨_, hw, ⟨owed, ?_, ?_⟩, .inl fun h hn => ?_⟩
  case refine_1 =>
    have a' := (a.enter hf hfd hfit hplain hproper habsent (by rw [hg]; rfl)).claim hgx hgd (g.refs + 1)
    rw [Function.update_idem, Function.update_self] at a'
    convert a'
    rw [eq_comm, Function.update_eq_self_iff]
    omega
  case refine_2 => exact (b.entries hf hfd _).revise hgx rfl fun _ => Nat.le_add_left 1 _
  case refine_3 =>
    have w := a.within_enter hf hfd (.used hfit hplain (a.lt hg))
    exact hn.within (w.trans (within_update hgx rfl (List.Subset.refl _)))

end Tree
end InodeVolume
