import InodeVolume.Proofs.Tree.Space

namespace InodeVolume

open VolumeM Volume

def overlay (bytes : List UInt8) (offset : Nat) (data : List UInt8) : List UInt8 :=
  bytes.take offset ++ .replicate (offset - bytes.length) 0 ++ data ++
    bytes.drop (offset + data.length)

section

variable {bytes data : List UInt8} {offset k : Nat}

theorem length_overlay :
    (overlay bytes offset data).length = max bytes.length (offset + data.length) := by
  simp only [overlay, List.length_append, List.length_take, List.length_replicate, List.length_drop]
  omega

theorem take_drop_overlay : ((overlay bytes offset data).drop offset).take data.length = data := by
  have hlen : (bytes.take offset ++ List.replicate (offset - bytes.length) 0).length = offset := by
    rw [List.length_append, List.length_take, List.length_replicate]
    omega
  rw [overlay, List.append_assoc _ data, List.drop_left' hlen, List.take_left]

theorem overwrite_append_replicate (hle : offset + data.length ≤ bytes.length + k)
    (hk : bytes.length + k ≤ max bytes.length (offset + data.length)) :
    overwrite (bytes ++ .replicate k 0) offset data = overlay bytes offset data := by
  have htake : (bytes ++ .replicate k 0).take offset =
      bytes.take offset ++ .replicate (offset - bytes.length) 0 := by
    rw [List.take_append, List.take_replicate, Nat.min_eq_left (by omega)]
  have hdrop : (bytes ++ .replicate k 0).drop (offset + data.length) =
      bytes.drop (offset + data.length) := by
    rw [List.drop_append, List.drop_replicate, Nat.sub_eq_zero_of_le (by omega),
      List.replicate_zero, List.append_nil]
  rw [overwrite, htake, hdrop, overlay]

end

namespace Tree

variable {files : Nat → Option FileState} {v : Volume} {i offset : Nat} {f : FileState}
variable {data : List UInt8}

theorem write_overlay_ensures (hv : v.Holds files) (hf : files i = some f) (hd : ¬f.isDir)
    (hdata : data ≠ []) :
    (write i offset data).Ensures v
      (fun n w => offset + data.length < wordLimit ∧ 0 < n ∧ n ≤ data.length ∧
        (n = data.length ↔ v.Affords i (offset + data.length)) ∧
        w.Holds (Function.update files i
          (some { f with bytes := overlay f.bytes offset (data.take n) })))
      (fun e w =>
        wordLimit ≤ offset + data.length ∧ e = .errno .tooBig ∧ w = v ∨
          offset + data.length < wordLimit ∧ e = .errno .noSpace ∧
            ¬v.Affords i (offset + data.length) ∧ w.Holds files) := by
  have hpos := List.length_pos_iff.mpr hdata
  apply (write_file_ensures hv hf hd hdata).mono
  case ho =>
    intro n w ⟨hlim, k, hgrants, hroom, hn, hw⟩
    have hle := hgrants.le
    have hclip : n = min data.length (f.bytes.length + k - offset) := hn
    have hlen : (data.take n).length = n := List.length_take_of_le (by omega)
    rw [overwrite_append_replicate (by omega) (by omega)] at hw
    refine ⟨hlim, by omega, by omega, ?_, hw⟩
    rw [← hgrants.whole]
    omega
  case he =>
    rintro e w (h | ⟨hlim, he, ⟨k, hgrants, hlt, _⟩, hw, _⟩)
    case inl => exact .inl h
    case inr => exact .inr ⟨hlim, he, mt hgrants.whole.mpr (Nat.not_le.mpr hlt), hw⟩

def Writes (v : Volume) (i offset : Nat) (data : List UInt8) (x : View) : Prop :=
  (write i offset data).Ensures v
    (fun n w => offset + data.length < wordLimit ∧ 0 < n ∧ n ≤ data.length ∧
      (n = data.length ↔ v.Affords i (offset + data.length)) ∧
      w.view i = .ok (x.withContent (overlay x.content offset (data.take n))) ∧
      (overlay x.content offset (data.take n)).length = max x.content.length (offset + n) ∧
      read w i offset n = .ok (data.take n))
    (fun e w =>
      wordLimit ≤ offset + data.length ∧ e = .errno .tooBig ∧ w = v ∨
        offset + data.length < wordLimit ∧ e = .errno .noSpace ∧
          ¬v.Affords i (offset + data.length) ∧ w.view i = .ok x)

-- What is written can be read, and it is less than all only if the volume does not have the room.
theorem Reachable.write_exact (r : Reachable v) (hh : v.Head i) (hd : v.isDir i = .ok false)
    (hdata : data ≠ []) : ∃ x, v.view i = .ok x ∧ Writes v i offset data x := by
  have ⟨_, f, hv, hf, hd⟩ := r.exists_regular hh hd
  refine ⟨f.view i, hv.view_eq hf hd, ?_⟩
  apply (write_overlay_ensures hv hf hd hdata).mono
  case ho =>
    intro n w ⟨hlim, hpos, hle, hwhole, hw⟩
    have hlen : (data.take n).length = n := List.length_take_of_le hle
    have hview := hw.view_eq (Function.update_self ..) hd
    have hread := read_eq hw (Function.update_self ..) hd offset n
    have htake : ((overlay f.bytes offset (data.take n)).drop offset).take (data.take n).length =
        data.take n := take_drop_overlay
    rw [hlen] at htake
    rw [FileState.view_bytes hd] at hview
    rw [htake] at hread
    exact ⟨hlim, hpos, hle, hwhole, hview, by rw [length_overlay, hlen], hread⟩
  case he =>
    rintro e w (h | ⟨hlim, he, ha, hw⟩)
    case inl => exact .inl h
    case inr => exact .inr ⟨hlim, he, ha, hw.view_eq hf hd⟩

theorem write_exact_filled :
    let v := ((Operation.truncate (.inode 1) 1032192).perform
      ((Operation.mknod rootInode "a" 0o100644).perform fresh).2).2
    ∃ x, (Reachable v ∧ v.Head 1 ∧ v.isDir 1 = .ok false ∧ [1, 2, 3] ≠ ([] : List UInt8)) ∧
      v.view 1 = .ok x ∧ Writes v 1 1032190 [1, 2, 3] x := by
  intro v
  have hv : Reachable v ∧ v.Head 1 ∧ v.isDir 1 = .ok false :=
    filled_regular 1032192 (by decide) (by decide)
  -- what the volume comes from is not to be computed
  clear_value v
  have ⟨r, hh, hd⟩ := hv
  have hdata : [1, 2, 3] ≠ ([] : List UInt8) := by decide
  have ⟨x, hx, hw⟩ : ∃ x, v.view 1 = .ok x ∧ Writes v 1 1032190 [1, 2, 3] x :=
    r.write_exact hh hd hdata
  exact ⟨x, ⟨r, hh, hd, hdata⟩, hx, hw⟩

end Tree
end InodeVolume
