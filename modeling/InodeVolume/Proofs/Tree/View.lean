import InodeVolume.Proofs.Tree.Listing

namespace InodeVolume

structure View where
  stat    : Stat
  content : List UInt8
  entries : Option (List (String × Nat))
  deriving DecidableEq

-- The bytes are seen of every file, the entries of directories only.
def Volume.view (v : Volume) (h : Nat) : Except Fault View := do
  let stat ← Tree.stat v h
  let content ← v.readFile h 0 stat.size
  if stat.kind = .directory then return ⟨stat, content, some (← Tree.list v h)⟩
  else return ⟨stat, content, none⟩

def View.withContent (x : View) (content : List UInt8) : View :=
  { x with
    stat    := { x.stat with size := content.length, blocks := blocksFor content.length }
    content := content }

def FileState.view (f : FileState) (h : Nat) : View where
  stat    := ⟨h, f.bytes.length, blocksFor f.bytes.length, f.mode, f.refs⟩
  content := f.bytes
  entries := if f.isDir then some (Entries.used f.entries) else none

theorem FileState.view_bytes {f : FileState} {h : Nat} (hd : ¬f.isDir) (bytes : List UInt8) :
    FileState.view { f with bytes } h = (f.view h).withContent bytes := by
  have hd' : ¬FileState.isDir { f with bytes } := hd
  rw [FileState.view, if_neg hd', FileState.view, if_neg hd, View.withContent]

theorem NodeKind.ofMode_eq_directory {mode : UInt32} :
    ofMode mode = .directory ↔ Mode.kindBits mode = Mode.directory := by
  rw [ofMode]
  split
  case isTrue h =>
    simp only [reduceCtorEq, false_iff]
    intro hd
    rw [hd] at h
    exact absurd h (by decide)
  case isFalse =>
    split
    case isTrue h  => simp [h]
    case isFalse h => simp [h]

variable {v w : Volume} {crooked : Prop} {owed : Nat → Int} {files : Nat → Option FileState}
variable {h : Nat} {f : FileState}

theorem Volume.Holds.stat (hv : v.Holds files) (hf : files h = some f) :
    Tree.stat v h = .ok (f.view h).stat := by
  have ⟨c, hc, hr, hm⟩ := hv.inode hf
  rw [Tree.stat, hc, hv.fileSize hf, FileState.view, ← hr, ← hm]
  rfl

theorem FileState.kind_view : (f.view h).stat.kind = .directory ↔ f.isDir :=
  NodeKind.ofMode_eq_directory.trans decide_eq_true_iff.symm

theorem Volume.Holds.view_eq (hv : v.Holds files) (hf : files h = some f) (hd : ¬f.isDir) :
    v.view h = .ok (f.view h) := by
  have hread : v.readFile h 0 (f.view h).stat.size = .ok f.bytes := by
    rw [hv.readFile hf, List.drop_zero, FileState.view, List.take_length]
  simp only [Volume.view, hv.stat hf, hread, bind, Except.bind, FileState.kind_view, hd]
  simp [FileState.view, hd, pure, Except.pure]

theorem Arranged.view_eq (a : Arranged crooked owed files) (hv : v.Holds files)
    (hf : files h = some f) : v.view h = .ok (f.view h) := by
  by_cases hd : f.isDir
  case neg => exact hv.view_eq hf hd
  case pos =>
    have hread : v.readFile h 0 (f.view h).stat.size = .ok f.bytes := by
      rw [hv.readFile hf, List.drop_zero, FileState.view, List.take_length]
    simp only [Volume.view, hv.stat hf, hread, bind, Except.bind, FileState.kind_view, hd, if_true,
      a.list_eq hv hf hd]
    simp [FileState.view, hd, pure, Except.pure]

theorem Arranged.view_congr (a : Arranged crooked owed files) (hv : v.Holds files)
    (hw : w.Holds files) :
    (∀ h, w.Head h ↔ v.Head h) ∧ ∀ h, v.Head h → ∃ x, v.view h = .ok x ∧ w.view h = .ok x := by
  refine ⟨fun h => by rw [hv.head_iff, hw.head_iff], fun h hh => ?_⟩
  have ⟨f, hf⟩ := hv.head_iff.mp hh
  exact ⟨f.view h, a.view_eq hv hf, a.view_eq hw hf⟩

theorem Volume.Holds.unique {files' : Nat → Option FileState} (hv : v.Holds files)
    (hv' : v.Holds files') : files = files' := by
  funext h
  have hsome : (∃ f, files h = some f) ↔ ∃ f, files' h = some f := hv.head_iff.symm.trans hv'.head_iff
  cases hf : files h
  case none =>
    by_contra hne
    have ⟨g, hg⟩ := hsome.mpr (Option.ne_none_iff_exists'.mp (Ne.symm hne))
    simp [hf] at hg
  case some f =>
    have ⟨g, hg⟩ := hsome.mp ⟨f, hf⟩
    have ⟨c, hc, hr, hm⟩ := hv.inode hf
    have ⟨d, hd, hr', hm'⟩ := hv'.inode hg
    obtain rfl := Except.ok.inj (hc.symm.trans hd)
    have hlen := Except.ok.inj ((hv.fileSize hf).symm.trans (hv'.fileSize hg))
    have hb := Except.ok.inj
      ((hv.readFile hf 0 f.bytes.length).symm.trans (hv'.readFile hg 0 f.bytes.length))
    rw [List.drop_zero, List.drop_zero, List.take_length, hlen, List.take_length] at hb
    rw [hg, Option.some.injEq, FileState.mk.injEq]
    exact ⟨hr.symm.trans hr', hm.symm.trans hm', hb⟩

end InodeVolume
