import InodeVolume.Proofs.Tree.Lookup

namespace InodeVolume

open VolumeM Volume

-- One reference to the root has no name, and one to every stray file.
structure Accounted (strays : Prop) (owed : Nat → Int) (files : Nat → Option FileState) : Prop where
  directory : ∀ h f, files h = some f → f.isDir → owed h = if h = rootInode then 1 else 0
  regular   : ∀ h f, files h = some f → ¬f.isDir → 1 ≤ f.refs ∧ (owed h = 0 ∨ strays ∧ owed h = 1)

def Settled (strays crooked : Prop) (files : Nat → Option FileState) : Prop :=
  ∃ owed, Arranged crooked owed files ∧ Accounted strays owed files

variable {strays crooked : Prop} {owed : Nat → Int} {files : Nat → Option FileState}
variable {v w : Volume} {d h k t : Nat} {f g : FileState}

namespace Accounted

theorem revise (a : Accounted strays owed files) (hf : files h = some f) (hd : g.isDir = f.isDir)
    (hr : ¬f.isDir → 1 ≤ g.refs) : Accounted strays owed (Function.update files h (some g)) := by
  have hg : ∀ k x, Function.update files h (some g) k = some x ↔
      k = h ∧ x = g ∨ k ≠ h ∧ files k = some x := fun _ _ => update_some_iff
  have := a.directory
  have := a.regular
  constructor <;> grind

theorem entries (a : Accounted strays owed files) (hf : files d = some f) (hd : f.isDir)
    (es : List Entry) : Accounted strays owed (Function.update files d (some (f.withEntries es))) :=
  a.revise hf rfl (absurd hd)

theorem create (a : Accounted strays owed files) {x : Int}
    (hd : g.isDir → x = if h = rootInode then 1 else 0)
    (hr : ¬g.isDir → 1 ≤ g.refs ∧ (x = 0 ∨ strays ∧ x = 1)) :
    Accounted strays (Function.update owed h x) (Function.update files h (some g)) := by
  have hg : ∀ k y, Function.update files h (some g) k = some y ↔
      k = h ∧ y = g ∨ k ≠ h ∧ files k = some y := fun _ _ => update_some_iff
  have ho : ∀ k, Function.update owed h x k = if k = h then x else owed k := by
    simp [Function.update_apply]
  have := a.directory
  have := a.regular
  constructor <;> grind

theorem drop (a : Accounted strays owed files) (h : Nat) :
    Accounted strays owed (Function.update files h none) := by
  have hg : ∀ k y, Function.update files h none k = some y ↔ k ≠ h ∧ files k = some y :=
    fun _ _ => update_none_iff
  have := a.directory
  have := a.regular
  constructor <;> grind

theorem mono (a : Accounted strays owed files) {strays' : Prop} (hs : strays → strays') :
    Accounted strays' owed files where
  directory := a.directory
  regular   := fun h f hf hd => (a.regular h f hf hd).imp_right fun ho =>
    ho.imp_right fun ⟨s, e⟩ => ⟨hs s, e⟩

end Accounted

theorem Settled.mono (s : Settled strays crooked files) {strays' crooked' : Prop}
    (hs : strays → strays') (hc : crooked → crooked') : Settled strays' crooked' files :=
  have ⟨owed, a, b⟩ := s
  ⟨owed, a.mono hc, b.mono hs⟩

theorem Arranged.count_pos_iff (a : Arranged crooked owed files) :
    0 < (graph files).count h ↔ Named files h := by
  rw [Nat.pos_iff_ne_zero, ne_eq, Graph.count_eq_zero a.consistent.bounded, not_forall_not]
  exact .rfl

theorem Arranged.count_eq_one (a : Arranged crooked owed files) (b : Accounted strays owed files)
    (hf : files h = some f) (hd : f.isDir) (h0 : h ≠ rootInode) : (graph files).count h = 1 := by
  have hr := a.refs_eq hf
  have ho := b.directory h f hf hd
  rw [a.refs hf hd] at hr
  rw [if_neg h0] at ho
  omega

theorem Settled.named (s : Settled False crooked files) (hf : files h = some f)
    (h0 : h ≠ rootInode) : Named files h := by
  have ⟨owed, a, b⟩ := s
  rw [← a.count_pos_iff]
  by_cases hd : f.isDir
  case pos => exact a.count_eq_one b hf hd h0 ▸ Nat.one_pos
  case neg =>
    have hr := a.refs_eq hf
    have ⟨hpos, ho⟩ := b.regular h f hf hd
    have := ho.resolve_right fun ⟨e, _⟩ => e
    omega

theorem Settled.refs_le (s : Settled strays crooked files) (hv : v.Holds files)
    (hf : files h = some f) : f.refs ≤ 0x1000001 := by
  have ⟨owed, a, b⟩ := s
  have hr := a.refs_eq hf
  have := a.count_le hv h
  by_cases hd : f.isDir
  case pos => exact Nat.le_trans (Nat.le_of_eq (a.refs hf hd)) (by decide)
  case neg =>
    have ⟨_, ho⟩ := b.regular h f hf hd
    omega

theorem Settled.ne_root (s : Settled strays crooked files) (hn : Named files h) : h ≠ rootInode := by
  have ⟨owed, a, b⟩ := s
  intro e
  subst e
  have ⟨f, hf, hd⟩ := a.exists_root
  have hr := a.refs_eq hf
  have := a.count_pos_iff.mpr hn
  have := a.refs hf hd
  have := b.directory _ f hf hd
  simp only [if_true] at this
  omega

theorem Settled.exists_of_named (s : Settled strays crooked files) (hn : Named files h) :
    ∃ f, files h = some f := by
  have ⟨_, a, _⟩ := s
  have ⟨_, _, _, hd, _, hm⟩ := hn
  exact Option.isSome_iff_exists.mp (isSome_graph ▸ a.consistent.named _ _ _ _ hd hm)

def SameReferences (files files' : Nat → Option FileState) : Prop :=
  ∀ h, (files' h).map (fun f => (f.isDir, f.refs)) = (files h).map fun f => (f.isDir, f.refs)

namespace SameReferences

variable {files' files'' : Nat → Option FileState}

theorem trans (h₁ : SameReferences files files') (h₂ : SameReferences files' files'') :
    SameReferences files files'' :=
  fun h => (h₂ h).trans (h₁ h)

theorem revise (hf : files d = some f) (hd : g.isDir = f.isDir) (hr : g.refs = f.refs) :
    SameReferences files (Function.update files d (some g)) := by
  intro h
  by_cases hh : h = d
  case pos => simp [hh, hf, hd, hr]
  case neg => rw [Function.update_of_ne hh]

theorem entries (hf : files d = some f) (es : List Entry) :
    SameReferences files (Function.update files d (some (f.withEntries es))) :=
  revise hf rfl rfl

theorem exists_file (r : SameReferences files files') (hf : files' h = some g) :
    ∃ f, files h = some f ∧ f.isDir = g.isDir ∧ f.refs = g.refs := by
  have := r h
  rw [hf, Option.map_some, eq_comm, Option.map_eq_some_iff] at this
  have ⟨f, hf, he⟩ := this
  exact ⟨f, hf, (Prod.mk.inj he).left, (Prod.mk.inj he).right⟩

theorem symm (r : SameReferences files files') : SameReferences files' files :=
  fun h => (r h).symm

theorem accounted (r : SameReferences files files') (a : Accounted strays owed files) :
    Accounted strays owed files' := by
  constructor
  case directory =>
    intro h g hg hd
    have ⟨f, hf, hfd, _⟩ := r.exists_file hg
    exact a.directory h f hf (hfd.trans hd)
  case regular =>
    intro h g hg hd
    have ⟨f, hf, hfd, hr⟩ := r.exists_file hg
    exact hr ▸ a.regular h f hf (hfd ▸ hd)

theorem named (r : SameReferences files files') (a : Arranged crooked owed files)
    (a' : Arranged crooked owed files') (hn : Named files h) : Named files' h := by
  have ⟨_, _, _, hx, _, hm⟩ := hn
  have ⟨f, hf⟩ := Option.isSome_iff_exists.mp (isSome_graph ▸ a.consistent.named _ _ _ _ hx hm)
  have ⟨g, hg, _, hr⟩ := r.symm.exists_file hf
  have h₁ := a.refs_eq hf
  have h₂ := a'.refs_eq hg
  rw [← a.count_pos_iff] at hn
  rw [← a'.count_pos_iff]
  omega

end SameReferences

-- What an operation makes of a volume. Either no file loses its last name, or else nothing gets
-- taken that was not.
def Evolves (strays crooked : Prop) (files : Nat → Option FileState) (v w : Volume) : Prop :=
  ∃ files', w.Holds files' ∧ Settled strays crooked files' ∧
    ((∀ h, Named files h → Named files' h) ∨ v.Recedes w)

theorem Settled.evolves (s : Settled strays crooked files) (hw : w.Holds files) :
    Evolves strays crooked files v w :=
  ⟨files, hw, s, .inl fun _ => id⟩

theorem Settled.evolves_revise (s : Settled strays crooked files) (hf : files h = some f)
    (hw : w.Holds (Function.update files h (some g)))
    (hk : Mode.kindBits g.mode = Mode.kindBits f.mode) (hr : g.refs = f.refs)
    (hb : f.isDir → g.bytes = f.bytes) : Evolves strays crooked files v w := by
  have ⟨owed, a, b⟩ := s
  have a' := a.revise hf hk hr hb
  have same : SameReferences files (Function.update files h (some g)) :=
    .revise hf (by rw [FileState.isDir, hk, FileState.isDir]) hr
  exact ⟨_, hw, ⟨owed, a', same.accounted b⟩, .inl fun k hn => same.named a a' hn⟩

theorem Evolves.mono (e : Evolves strays crooked files v w) {strays' crooked' : Prop}
    (hs : strays → strays') (hc : crooked → crooked') : Evolves strays' crooked' files v w :=
  have ⟨files', hw, s, hn⟩ := e
  ⟨files', hw, s.mono hs hc, hn⟩

end InodeVolume
