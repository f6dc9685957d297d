import InodeVolume.Proofs.Directory.Slots
import InodeVolume.Proofs.File.Confinement

namespace InodeVolume.Directory

open VolumeM Volume

variable {v : Volume} {files : Nat → Option FileState} {d i t : Nat} {f g : FileState}
variable {es : List Entry} {name : String}

theorem put_confined (d index : Nat) (e : Entry) : Confined {d} (put d index e) := by
  rw [put]
  split
  case isTrue => exact .crash_bind _
  case isFalse =>
    refine .bind (File.write_confined _ _ _) fun n => ?_
    split
    case isTrue  => exact .refuse _
    case isFalse => exact .pure ()

theorem extend_confined (d : Nat) : Confined {d} (extend d) := by
  rw [extend]
  refine .bind (File.grow_confined d entrySize) fun growth => ?_
  cases growth.cut
  case none => exact .pure ()
  case some e =>
    dsimp only
    split
    case isTrue  => exact .bind (File.shrink_confined _ _).discard fun _ => .refuse e
    case isFalse => exact .refuse e

theorem add_confined (d : Nat) (name : String) (t : Nat) : Confined {d} (add d name t) := by
  have hput : ∀ i, Confined {d} (do put d i ⟨name, some t⟩; return i) :=
    fun i => (put_confined d i _).bind fun _ => .pure i
  rw [add]
  split
  case isTrue => exact .refuse_bind _ _
  case isFalse =>
    refine .bind (.query _) fun slots => ?_
    by_cases hany : slots.any fun e => !e.isFree && e.name = name
    case pos =>
      rw [if_pos hany]
      exact .refuse_bind _ _
    case neg =>
      rw [if_neg hany]
      dsimp only
      split
      case h_1 => exact .bind (.pure _) hput
      case h_2 => exact .bind ((extend_confined d).seqRight (.pure _)) hput

theorem find_confined (s : Set Nat) (d : Nat) (name : String) : Confined s (find d name) := by
  rw [find]
  split
  case isTrue => exact .refuse_bind _ _
  case isFalse =>
    refine .bind (.query _) fun found => ?_
    cases found
    case none   => exact .refuse _
    case some p => exact .pure p

theorem trim_confined (d : Nat) : Confined {d} (trim d) := by
  rw [trim]
  refine .bind (.query _) fun slots => ?_
  dsimp only
  split
  case isTrue  => exact (File.shrink_confined _ _).discard
  case isFalse => exact .pure ()

theorem remove_confined (d : Nat) (name : String) : Confined {d} (remove d name) :=
  .bind (find_confined _ d name) fun _ => .bind (put_confined d _ _) fun _ =>
    .bind (trim_confined d) fun _ => .pure _

theorem attach_confined (d : Nat) (name : String) (t : Nat) : Confined {d, t} (attach d name t) := by
  rw [attach]
  refine .bind ((add_confined d name t).mono (by simp)) fun i => .bind (.query _) fun isDir => ?_
  split
  case isFalse => exact .pure i
  case isTrue =>
    refine .bind ((add_confined t ".." d).mono (by simp)).attempt fun r => ?_
    cases r
    case ok      => exact .pure i
    case error e =>
      exact .bind ((remove_confined d name).mono (by simp)).discard fun _ => .refuse e

section

variable (hv : v.Holds files) (hf : files d = some f) (hl : f.Lists es)
variable (hfind : Entries.find es name = some (i, t)) (hg : files t = some g)

include hv hf hl hfind hg

theorem detach_touches :
    (detach d name).Ensures v (fun _ w => v.Touches w {d, t}) fun _ w => v.Touches w {d, t} := by
  have hheads : ∀ k ∈ ({d, t} : Set Nat), v.Head k := by
    rintro k (rfl | rfl)
    case inl => exact hv.head_iff.mpr ⟨f, hf⟩
    case inr => exact hv.head_iff.mpr ⟨g, hg⟩
  rw [detach, ensures_bind]
  apply (find_ensures hv hf hl).mono
  case he =>
    rintro e w ⟨_, _, hnone⟩
    simp [hfind] at hnone
  rintro p u ⟨rfl, hp⟩
  obtain rfl := Option.some.inj (hfind.symm.trans hp)
  refine Confined.touches ?_ hv hheads
  have htrim : Confined {d, t} (do trim d; return i) :=
    .bind ((trim_confined d).mono (by simp)) fun _ => .pure i
  refine .bind ((put_confined d i .free).mono (by simp)) fun _ => .bind (.query _) fun isDir => ?_
  dsimp only
  split
  case isFalse => exact htrim
  case isTrue =>
    refine .bind ((remove_confined t "..").mono (by simp)).attempt fun r => ?_
    split
    case h_1 => exact htrim
    case h_2 => exact htrim
    case h_3 => exact .refuse_bind _ _

theorem detach_file_touches (hdir : ¬g.isDir) :
    (detach d name).Ensures v (fun _ w => v.Touches w {d}) fun _ w => v.Touches w {d} := by
  have hheads : ∀ k ∈ ({d} : Set Nat), v.Head k := fun k hk => hk ▸ hv.head_iff.mpr ⟨f, hf⟩
  rw [detach, ensures_bind]
  apply (find_ensures hv hf hl).mono
  case he =>
    rintro e w ⟨_, _, hnone⟩
    simp [hfind] at hnone
  rintro p u ⟨rfl, hp⟩
  obtain rfl := Option.some.inj (hfind.symm.trans hp)
  dsimp only
  rw [ensures_bind]
  apply ((set_ensures hv hf hl.writes (Entries.find_eq_some hfind) _).and
    ((put_confined d i .free).touches hv hheads)).mono
  case he => exact fun _ _ => And.right
  rintro _ x ⟨⟨hx, _⟩, htx⟩
  obtain ⟨g', hg', hd⟩ := exists_update hf hg (es.set i .free)
  rw [ensures_bind, ensures_query_ok (hx.isDir hg'), if_neg (hd ▸ hdir)]
  have htrim : Confined {d} (do trim d; return i) := .bind (trim_confined d) fun _ => .pure i
  apply (htrim.touches hx fun k hk => hk ▸ hx.head_iff.mpr ⟨_, Function.update_self ..⟩).mono
  case ho => exact fun _ _ => htx.trans
  case he => exact fun _ _ => htx.trans

end

end InodeVolume.Directory
