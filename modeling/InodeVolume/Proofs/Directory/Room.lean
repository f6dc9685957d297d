import InodeVolume.Proofs.Directory.Confinement
import InodeVolume.Proofs.Directory.Mapping

namespace InodeVolume

open VolumeM Volume

def Entries.blocksWanted (es : List Entry) (size : Nat) : Nat :=
  if (∃ e ∈ es, e.isFree) ∨ size % blockSize ≠ 0 then 0 else 1

def Entries.linksWanted (es : List Entry) (last : Inode) : Nat :=
  if (∃ e ∈ es, e.isFree) ∨ last.size < inodeCapacity then 0 else 1

namespace Volume

-- There is a free slot in a directory, or there is what another one needs.
def Admits (v : Volume) (d : Nat) (es : List Entry) : Prop :=
  (∃ e ∈ es, e.isFree) ∨ v.Affords d ((es.length + 1) * entrySize)

variable {v : Volume} {d i j t : Nat} {files : Nat → Option FileState} {f g : FileState}
variable {es gs : List Entry} {l : Chain} {last : Inode} {name : String}

theorem admits_iff (hl : v.chain d = .ok (l ++ [(j, last)])) (hf : Chain.Formed (l ++ [(j, last)]))
    (hs : (l ++ [(j, last)] : Chain).size = es.length * entrySize) :
    v.Admits d es ↔ Entries.blocksWanted es (es.length * entrySize) ≤ v.freeBlocks ∧
      Entries.linksWanted es last ≤ v.freeInodes := by
  rw [Admits, Entries.blocksWanted, Entries.linksWanted]
  by_cases hfree : ∃ e ∈ es, e.isFree
  case pos => simp [hfree]
  case neg =>
    have hw := chain_eq_ok_iff.mp hl
    have e := Chain.ends_concat hw.leads hf
    have hsize := e.size
    have hle := e.le
    simp only [hfree, false_or]
    have ⟨hslot, hblock⟩ : last.size % entrySize = 0 ∧
        (l.length * inodeCapacity + last.size) % blockSize = last.size % blockSize := by
      simp only [entrySize, inodeCapacity, slotsPerInode, blockSize] at *
      omega
    rw [Nat.succ_mul, ← hs, e.affords_iff hw, hsize, hblock]
    refine and_congr ?_ ?_
    case refine_1 =>
      simp only [blocksFor, entrySize, blockSize] at *
      split <;> omega
    case refine_2 =>
      rw [linksFor_le_iff (by omega)]
      simp only [entrySize, inodeCapacity, slotsPerInode, blockSize] at *
      split <;> omega

theorem Holds.includes (hv : v.Holds files) : v.Includes fun h => (files h).map (·.bytes) := by
  constructor
  case consistent => exact hv.consistent
  case heads =>
    intro h
    rw [hv.head_iff, Option.isSome_map, Option.isSome_iff_exists]
  case content =>
    intro h bytes hb
    have ⟨f, hf, he⟩ := Option.map_eq_some_iff.mp hb
    have ⟨chains, hs, _, c, l, hl, _, _, hc⟩ := hv.exists_chain hf
    exact ⟨chains h, walks_chain hs (by simp [hl]), hc.trans he⟩

theorem Holds.shows (hv : v.Holds files) (hf : files d = some f) (hl : f.Lists es) :
    v.Shows (fun h => (files h).map (·.bytes)) d es := by
  have hmod : f.bytes.length % entrySize = 0 := by rw [hl.length, Nat.mul_mod_left]
  have hr := Entries.Reads.of_mod hmod
  refine hv.includes.shows (show _ = some f.bytes by rw [hf, Option.map_some]) ?_
  rwa [← FileState.entries, hl.entries] at hr

end Volume

namespace Directory

variable {v : Volume} {d i j t : Nat} {files : Nat → Option FileState} {f g : FileState}
variable {es gs : List Entry} {name : String}

section

variable (hv : v.Holds files) (hf : files d = some f) (hl : f.Lists es) (hfit : Entry.fits name)
variable (hp : Entry.Plain name) (ha : ∀ u, (name, u) ∉ Entries.used es) (hg : files t = some g)

include hv hf hl hfit hp ha hg

theorem add_admits :
    (add d name t).Ensures v (fun _ _ => v.Admits d es)
      (fun e _ => e = .errno .noSpace ∧ ¬v.Admits d es) := by
  have ht : t < 0x80000000 := by
    have := hv.lt hg
    lia
  apply (add_shows (hv.shows hf hl) hfit hp ht ha).mono
  case ho => exact fun _ _ ⟨_, hroom, _⟩ => hroom
  case he =>
    rintro e w ⟨he, hused, hroom, _⟩
    exact ⟨he, fun h => h.elim (fun ⟨x, hx, hfree⟩ => hused x hx hfree) hroom⟩

theorem attach_file_admits (hdir : ¬g.isDir) :
    (attach d name t).Ensures v (fun _ _ => v.Admits d es)
      (fun e _ => e = .errno .noSpace ∧ ¬v.Admits d es) := by
  rw [attach, ensures_bind]
  apply ((add_admits hv hf hl hfit hp ha hg).and (add_ensures hv hf hl)).mono
  case he => exact fun _ _ => And.left
  rintro _ w ⟨hroom, _, _, hw, _⟩
  obtain ⟨g', hg', hd⟩ := exists_update hf hg (Entries.insert es ⟨name, some t⟩)
  rw [ensures_bind, ensures_query_ok (hw.isDir hg'), if_neg (hd ▸ hdir)]
  exact hroom

theorem attach_dir_admits (hgl : g.Lists gs) (hdir : g.isDir) (hne : t ≠ d)
    (htakes : Takes g gs "..") :
    (attach d name t).Ensures v (fun _ _ => v.Admits d es)
      (fun e _ => e = .errno .noSpace ∧ ¬v.Admits d es) := by
  rw [attach, ensures_bind]
  apply ((add_admits hv hf hl hfit hp ha hg).and (add_ensures hv hf hl)).mono
  case he => exact fun _ _ => And.left
  rintro _ x ⟨hroom, _, _, hx, _⟩
  have hgx : Function.update files d
      (some (f.withEntries (Entries.insert es ⟨name, some t⟩))) t = some g := by
    rw [Function.update_of_ne hne, hg]
  rw [ensures_bind, ensures_query_ok (hx.isDir hgx), if_pos hdir, ensures_bind, ensures_attempt]
  apply (add_ensures hx hgx hgl).mono
  case ho => exact fun _ _ _ => hroom
  case he =>
    rintro _ _ ⟨_, hrej⟩
    exact absurd htakes hrej.not_takes

end

end Directory
end InodeVolume
