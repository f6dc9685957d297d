import InodeVolume.Proofs.File.Provision
import InodeVolume.Proofs.Tree.Creation

namespace InodeVolume.Tree

open VolumeM Volume

variable {strays crooked : Prop} {owed : Nat → Int} {files : Nat → Option FileState}
variable {v : Volume} {i size offset : Nat} {f : FileState} {mode : UInt32}

def Foiled (v : Volume) (i : Nat) (e : Fault) (w : Volume) : Prop :=
  e ≠ .errno .noSpace ∧ w = v ∨ e = .errno .noSpace ∧ v.Undone w i

def Stunted (files : Nat → Option FileState) (i : Nat) (f : FileState) (size : Nat) : Prop :=
  ∃ (u : Volume) (n : Nat), u.Full ∧ blocksFor (f.bytes.length + n) < blocksFor size ∧
    u.Holds (Function.update files i (some { f with bytes := f.bytes ++ .replicate n 0 }))

theorem truncate_ensures (hv : v.Holds files) (hi : Addresses v files i) :
    (truncate i size).Ensures v
      (fun _ w => ∃ f, files i = some f ∧ ¬f.isDir ∧ w.Holds (Function.update files i (some
        { f with bytes := f.bytes.take size ++ .replicate (size - f.bytes.length) 0 })) ∧
        (w.Trails i → size = f.bytes.length ∧ v.Trails i))
      (fun e w => (e.Ordinary ∨ wordLimit ≤ size) ∧ w.Holds files ∧ Foiled v i e w ∧
        ∀ f, files i = some f → ¬f.isDir → size < wordLimit →
          e = .errno .noSpace ∧ Stunted files i f size) := by
  rw [truncate, ensures_bind]
  rcases hi with ⟨f, hf⟩ | hi
  case inr =>
    rw [ensures_query_error (isDir_of_free hi)]
    refine ⟨.inl (by decide), hv, .inl ⟨by decide, rfl⟩, fun f hf => ?_⟩
    simpa [hi] using hv.link?_isSome hf
  rw [ensures_query_ok (hv.isDir hf)]
  cases hd : f.isDir
  case true =>
    refine ⟨.inl (by decide), hv, .inl ⟨by decide, rfl⟩, fun g hg hgd => ?_⟩
    obtain rfl := Option.some.inj (hf.symm.trans hg)
    exact absurd hd hgd
  rw [if_neg (by decide)]
  dsimp only
  rw [ensures_bind, ensures_query_ok (hv.fileSize hf)]
  by_cases hlt : f.bytes.length < size
  case pos =>
    rw [if_pos hlt, ensures_bind]
    apply (File.growZeroed_ensures hv hf _).mono
    case he =>
      rintro e w ⟨rfl, rfl, hle⟩
      exact ⟨.inr (by omega), hv, .inl ⟨by decide, rfl⟩, fun _ _ _ hsize => absurd hle (by omega)⟩
    intro g x ⟨hg, hfull, htidies, hx⟩
    cases hg
    case inl hg =>
      rw [hg.left]
      refine ⟨f, hf, by simp [hd], ?_, fun ht => absurd (htidies.whole hg.left ht).left (by omega)⟩
      rw [hg.right, Nat.zero_add] at hx
      rwa [List.take_of_length_le (Nat.le_of_lt hlt)]
    case inr hg =>
      have hcut : g.cut ≠ none := by simp [hg.left]
      rw [hg.left]
      dsimp only
      rw [ensures_bind, ensures_discard]
      -- growth was cut short, so what it has added is taken off again
      apply (File.undo_ensures hf (by simp) hx hcut htidies).mono_never
      intro _ w ⟨hw, hundone⟩
      refine ⟨.inl (by decide), hw, .inr ⟨rfl, hundone⟩, fun f' hf' _ _ => ⟨rfl, x, g.grown, ?_⟩⟩
      obtain rfl := Option.some.inj (hf.symm.trans hf')
      have := (htidies.halts hcut).short
      exact ⟨hfull hcut, by rwa [Nat.add_sub_cancel' (Nat.le_of_lt hlt)] at this, hx⟩
  case neg =>
    rw [if_neg hlt, ensures_discard]
    apply (File.shrink_ensures hv hf _).mono_never
    intro _ w ⟨_, hw, _, _, ht⟩
    refine ⟨f, hf, by simp [hd], ?_, fun h => (ht.mp h).imp_left fun _ => by omega⟩
    rw [Nat.sub_sub_self (Nat.le_of_not_lt hlt)] at hw
    rwa [Nat.sub_eq_zero_of_le (Nat.le_of_not_lt hlt), List.replicate_zero, List.append_nil]

-- Room is made with zeros: all that is asked for, or else what there is, provided that some of the bytes
-- that are to come have their place then.
theorem makeRoom_ensures (hv : v.Holds files) (hf : files i = some f) {goal : Nat}
    (hgoal : goal < wordLimit) (hlt : f.bytes.length < goal) :
    (makeRoom i f.bytes.length offset goal).Ensures v
      (fun _ w => ∃ k, v.Grants i f.bytes.length goal k ∧
        (goal ≤ f.bytes.length + k ∨ offset < f.bytes.length + k) ∧
        w.Holds (Function.update files i (some { f with bytes := f.bytes ++ .replicate k 0 })))
      (fun e w => e = .errno .noSpace ∧
        (∃ k, v.Grants i f.bytes.length goal k ∧ f.bytes.length + k < goal ∧
          f.bytes.length + k ≤ offset) ∧
        w.Holds files ∧ v.Undone w i) := by
  have hsum : f.bytes.length + (goal - f.bytes.length) = goal := Nat.add_sub_cancel' (Nat.le_of_lt hlt)
  rw [makeRoom, ensures_bind]
  apply ((File.growZeroed_ensures hv hf _).and
    (File.growZeroed_provides hv hf (hsum.symm ▸ hgoal))).mono
  case he => exact fun _ _ h => h.right.elim
  intro g x ⟨⟨hg, _, htidies, hx⟩, hprovides⟩
  have hgrants := hprovides.grants hlt
  cases hg
  case inl hg =>
    rw [hg.left]
    exact ⟨g.grown, hgrants, .inl (by omega), hx⟩
  case inr hg =>
    have hcut : g.cut ≠ none := by simp [hg.left]
    rw [hg.left]
    dsimp only
    by_cases hroom : f.bytes.length + g.grown ≤ offset
    case pos =>
      rw [if_pos hroom, ensures_bind, ensures_discard]
      apply (File.undo_ensures hf (by simp) hx hcut htidies).mono_never
      exact fun _ w hw => ⟨rfl, ⟨g.grown, hgrants, by omega, hroom⟩, hw⟩
    case neg =>
      rw [if_neg hroom]
      exact ⟨g.grown, hgrants, .inr (by omega), hx⟩

theorem write_file_ensures (hv : v.Holds files) (hf : files i = some f) (hd : ¬f.isDir)
    {data : List UInt8} (hdata : data ≠ []) :
    (write i offset data).Ensures v
      (fun n w => offset + data.length < wordLimit ∧ ∃ k,
        v.Grants i f.bytes.length (offset + data.length) k ∧
        (offset + data.length ≤ f.bytes.length + k ∨ offset < f.bytes.length + k) ∧
        n = clip (f.bytes.length + k) offset data.length ∧
        w.Holds (Function.update files i (some { f with
          bytes := overwrite (f.bytes ++ .replicate k 0) offset (data.take n) })))
      (fun e w =>
        wordLimit ≤ offset + data.length ∧ e = .errno .tooBig ∧ w = v ∨
          offset + data.length < wordLimit ∧ e = .errno .noSpace ∧
            (∃ k, v.Grants i f.bytes.length (offset + data.length) k ∧
              f.bytes.length + k < offset + data.length ∧ f.bytes.length + k ≤ offset) ∧
            w.Holds files ∧ v.Undone w i) := by
  rw [write, ensures_bind, ensures_query_ok (hv.isDir hf), if_neg hd]
  dsimp only
  rw [if_neg (by simpa using hdata), ensures_bind, ensures_query_ok (hv.fileSize hf)]
  by_cases hbig : wordLimit ≤ offset + data.length
  case pos =>
    rw [if_pos hbig]
    exact .inl ⟨hbig, rfl, rfl⟩
  have hgoal := Nat.lt_of_not_le hbig
  rw [if_neg hbig]
  by_cases hlt : f.bytes.length < offset + data.length
  case neg =>
    rw [if_neg hlt]
    apply (File.write_ensures hv hf data).mono_never
    intro n w ⟨hn, hw, _⟩
    refine ⟨hgoal, 0, hv.grants hf (Nat.le_of_not_lt hlt), .inl (Nat.le_of_not_lt hlt),
      hn, ?_⟩
    rwa [List.replicate_zero, List.append_nil]
  case pos =>
    rw [if_pos hlt, ensures_bind]
    apply (makeRoom_ensures hv hf hgoal hlt).mono
    case he => exact fun _ _ h => .inr ⟨hgoal, h⟩
    intro _ x ⟨k, hgrants, hroom, hx⟩
    apply (File.write_ensures hx (Function.update_self ..) data).mono_never
    intro n w ⟨hn, hw, _⟩
    rw [Function.update_idem] at hw
    rw [List.length_append, List.length_replicate] at hn
    exact ⟨hgoal, k, hgrants, hroom, hn, hw⟩

theorem write_ensures (hv : v.Holds files) (hi : Addresses v files i) (data : List UInt8) :
    (write i offset data).Ensures v
      (fun n w => ∃ f, files i = some f ∧ ¬f.isDir ∧
        (data = [] ∧ n = 0 ∧ w = v ∨
          data ≠ [] ∧ ∃ k, f.bytes.length + k ≤ max f.bytes.length (offset + data.length) ∧
            (offset + data.length ≤ f.bytes.length + k ∨ offset < f.bytes.length + k) ∧
            n = clip (f.bytes.length + k) offset data.length ∧
            w.Holds (Function.update files i (some { f with
              bytes := overwrite (f.bytes ++ .replicate k 0) offset (data.take n) }))))
      (fun e w => Directory.Refuses files e w ∧ Foiled v i e w) := by
  have refused : ∀ e w, Refused v e w → Directory.Refuses files e w ∧ Foiled v i e w :=
    fun e w ⟨he, hw⟩ => ⟨⟨he.ordinary, hw ▸ hv⟩, .inl ⟨he.right, hw⟩⟩
  by_cases h : ∃ f, files i = some f ∧ ¬f.isDir ∧ data ≠ []
  case pos =>
    have ⟨f, hf, hd, hdata⟩ := h
    apply (write_file_ensures hv hf hd hdata).mono
    case ho =>
      intro n w ⟨_, k, hgrants, hroom, hn, hw⟩
      exact ⟨f, hf, hd, .inr ⟨hdata, k, hgrants.le, hroom, hn, hw⟩⟩
    case he =>
      rintro e w (⟨_, rfl, rfl⟩ | ⟨_, rfl, _, hw, hundone⟩)
      case inl => exact refused _ _ ⟨by decide, rfl⟩
      case inr => exact ⟨⟨by decide, hw⟩, .inr ⟨rfl, hundone⟩⟩
  case neg =>
    -- there is nothing to write, or no file for it
    rw [write, ensures_bind]
    apply (isDir_ensures hv hi).barring refused
    intro b u ⟨hu, f, hf, hd⟩
    subst hu
    cases b
    case true => exact refused _ _ ⟨by decide, rfl⟩
    have hd : ¬f.isDir := by simp [hd]
    have hdata : data = [] := by
      by_contra hne
      exact h ⟨f, hf, hd, hne⟩
    rw [if_neg (by decide)]
    dsimp only
    rw [if_pos (by simp [hdata])]
    exact ⟨f, hf, hd, .inl ⟨hdata, rfl, rfl⟩⟩

theorem chmod_ensures (s : Settled strays crooked files) (hv : v.Holds files)
    (hi : Addresses v files i) :
    (chmod i mode).Ensures v
      (fun _ w => ∃ f, files i = some f ∧ w.Holds (Function.update files i (some
        { f with mode := Mode.kindBits f.mode ||| Mode.permissions mode })))
      (Refused v) := by
  rw [chmod, ensures_bind]
  cases hi
  case inr hi =>
    rw [ensures_query_error (inode_of_not_link? hi)]
    exact ⟨by decide, rfl⟩
  case inl hi =>
    have ⟨f, hf⟩ := hi
    have ⟨c, hc, hr, hm, hput⟩ := File.exists_inode hv hf
    have := s.refs_le hv hf
    rw [ensures_query_ok hc]
    apply (hput c.refs _ (by omega)).mono_never
    intro _ w ⟨hw, _⟩
    exact ⟨f, hf, by rwa [hr, hm] at hw⟩

theorem truncate_evolves (s : Settled strays crooked files) (hv : v.Holds files)
    (hi : Addresses v files i) :
    (truncate i size).Ensures v (fun _ w => Evolves strays crooked files v w)
      (fun _ w => w.Holds files) := by
  apply (truncate_ensures hv hi).barring (fun _ _ h => h.right.left)
  intro _ w ⟨f, hf, hd, hw, _⟩
  exact s.evolves_revise hf hw rfl rfl (absurd · hd)

theorem write_evolves (s : Settled strays crooked files) (hv : v.Holds files)
    (hi : Addresses v files i) (data : List UInt8) :
    (write i offset data).Ensures v (fun _ w => Evolves strays crooked files v w)
      (Directory.Refuses files) := by
  apply (write_ensures hv hi data).barring (fun _ _ h => h.left)
  intro n w ⟨f, hf, hd, h⟩
  cases h
  case inl h => exact s.evolves (h.right.right ▸ hv)
  case inr h =>
    have ⟨_, k, _, _, _, hw⟩ := h
    exact s.evolves_revise hf hw rfl rfl (absurd · hd)

theorem chmod_evolves (s : Settled strays crooked files) (hv : v.Holds files)
    (hi : Addresses v files i) :
    (chmod i mode).Ensures v (fun _ w => Evolves strays crooked files v w)
      (Directory.Refuses files) := by
  apply (chmod_ensures s hv hi).barring (Refused.refuses hv)
  intro _ w ⟨f, hf, hw⟩
  have hk := Mode.kindBits_or_permissions (Mode.kindBits_kindBits f.mode) mode
  exact s.evolves_revise hf hw hk rfl fun _ => rfl

end InodeVolume.Tree
