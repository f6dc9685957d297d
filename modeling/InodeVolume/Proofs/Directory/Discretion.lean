import InodeVolume.Directory.Update
import InodeVolume.Proofs.File.Discretion

namespace InodeVolume

open VolumeM Volume

variable {first : Option Nat} {firm : Bool} {pre : Volume → Prop} {v w : Volume} {dir i : Nat}
variable {name : String} {es : List Entry}

namespace Volume.Alike

theorem slotCount (a : v.Alike first w) (dir : Nat) : v.slotCount dir = w.slotCount dir := by
  rw [Volume.slotCount, Volume.slotCount, a.same.fileSize]

theorem slotsFrom (a : v.Alike first w) {total : Nat} (ht : v.fileSize dir = .ok total)
    (i count : Nat) : v.slotsFrom dir total i count = w.slotsFrom dir total i count := by
  induction count generalizing i
  case zero          => rfl
  case succ count hi =>
    simp only [Volume.slotsFrom, slotWithin, a.readWithin ht, hi]

theorem slots (a : v.Alike first w) (dir : Nat) : v.slots dir = w.slots dir := by
  rw [Volume.slots, Volume.slots, ← a.slotCount]
  cases ht : v.fileSize dir
  case error e => simp [Volume.slotCount, ht, bind, Except.bind]
  case ok total =>
    by_cases hmod : total % entrySize = 0
    case neg => simp [Volume.slotCount, ht, hmod, bind, Except.bind]
    case pos =>
      have hmul := Nat.div_mul_cancel (Nat.dvd_of_mod_eq_zero hmod)
      simp only [Volume.slotCount, ht, hmod, bind, Except.bind, if_true, pure, Except.pure, hmul]
      exact a.slotsFrom ht _ _

theorem findSlot (a : v.Alike first w) (dir : Nat) (name : String) :
    v.findSlot dir name = w.findSlot dir name := by
  rw [Volume.findSlot, Volume.findSlot, a.slots]

theorem lookup (a : v.Alike first w) (dir : Nat) (name : String) :
    v.lookup dir name = w.lookup dir name := by
  rw [Volume.lookup, Volume.lookup, a.findSlot]

theorem isBare (a : v.Alike first w) (dir : Nat) : v.isBare dir = w.isBare dir := by
  rw [Volume.isBare, Volume.isBare, a.slots]

theorem listing (a : v.Alike first w) (dir : Nat) : v.listing dir = w.listing dir := by
  rw [Volume.listing, Volume.listing, a.slots]

end Volume.Alike

theorem Volume.fileSize_of_slots (h : v.slots dir = .ok es) :
    v.fileSize dir = .ok (es.length * entrySize) := by
  have hlen : ∀ {total i count es}, v.slotsFrom dir total i count = .ok es → es.length = count := by
    intro total i count es h
    induction count generalizing i es
    case zero          => rw [← Except.ok.inj h, List.length_nil]
    case succ count hi =>
      have ⟨e, _, h⟩ := Except.bind_eq_ok_iff.mp h
      have ⟨es, hes, h⟩ := Except.bind_eq_ok_iff.mp h
      rw [← Except.ok.inj h, List.length_cons, hi hes]
  have ⟨count, hcount, hes⟩ := Except.bind_eq_ok_iff.mp h
  have ⟨total, ht, hcount⟩ := Except.bind_eq_ok_iff.mp hcount
  split at hcount
  case isFalse => contradiction
  case isTrue hmod =>
    rw [hlen hes, ← Except.ok.inj hcount, Nat.div_mul_cancel (Nat.dvd_of_mod_eq_zero hmod), ht]

namespace Directory

theorem put_discreet (dir i : Nat) (e : Entry) :
    Discreet first (Firm firm) (put dir i e) fun _ => Firm firm := by
  rw [put]
  split
  case isTrue  => exact .crash_bind
  case isFalse =>
    refine .bind (File.write_discreet _ _ _) fun n => ?_
    split
    case isTrue  => exact .refuse _
    case isFalse => exact .pure fun _ => id

theorem extend_put_discreet (entry : Entry) :
    Discreet first (fun v => v.Firm true ∧ v.slots dir = .ok es)
      (do extend dir; put dir es.length entry) fun _ => Firm true := by
  intro v w a ⟨hf, hes⟩
  have ⟨l, hw, hl⟩ := exists_walk_of_fileSize (fileSize_of_slots hes)
  have hmax : es.length * entrySize < wordLimit := by
    have := Chain.size_le (hw.formed a.tended)
    have := hw.length_le
    lia
  refine .bind ?_
  rw [extend]
  refine .bind (((File.grow_concurs dir entrySize v.Live v w a.same).and_ensures
    ((File.grow_lengthens a.tended (hf rfl) hw entrySize).and
      (File.grow_whole a.tended hw (by rw [← hl, Nat.mul_mod_left])))).mono
        (fun g x y ⟨m, ⟨k, hs, e⟩, hg⟩ => ?ok) ?error)
  case error =>
    rintro _ x y ⟨m, rfl, -⟩
    exact ⟨m, a.tended⟩
  case ok =>
    cases hcut : g.cut
    case some n =>
      -- nothing has been added, so there is nothing to cover
      have hg := hg.resolve_left fun h => by simp [hcut] at h
      dsimp only
      rw [if_neg (by omega)]
      refine .error rfl rfl ⟨m.mono fun b hb => ?_, e.tended⟩
      exact (e.live b hb).resolve_right fun ⟨p, hle, hlt, _⟩ => by omega
    case none =>
      refine .ok rfl rfl ?_
      rw [put, if_neg (Nat.not_le.mpr hmax)]
      refine .bind ((File.write_agrees m e.tended e.walks fun b hb => ?_).mono
        (fun n x' y' ⟨a, hx⟩ => ?_) fun _ _ _ => False.elim)
      case refine_1 =>
        refine (e.live b hb).imp_right fun ⟨p, hle, hlt, he⟩ => ⟨p, hl ▸ hle, ?_, he⟩
        rw [clip, Entry.length_bytes]
        omega
      case refine_2 =>
        split
        case isTrue  => exact .error rfl rfl a
        case isFalse => exact .ok rfl rfl ⟨a, Firm.of_links (fun _ => e.rooted) hx⟩

theorem add_discreet (dir : Nat) (name : String) (target : Nat) :
    Discreet first (Firm true) (add dir name target) fun _ => Firm true := by
  rw [add]
  split
  case isTrue  => exact .refuse_bind _
  case isFalse =>
    refine .bind (.query fun _ _ a => a.slots dir) fun es => ?_
    by_cases hany : es.any fun e => !e.isFree && e.name = name
    case pos =>
      rw [if_pos hany]
      exact .refuse_bind _
    case neg =>
      rw [if_neg hany]
      cases es.findIdx? Entry.isFree
      case some i =>
        dsimp only
        rw [pure_bind]
        exact .bind ((put_discreet dir i _).mono (fun _ => And.left) fun _ _ => id) fun _ =>
          .pure fun _ => id
      case none =>
        dsimp only
        rw [seqRight_eq_bind, bind_assoc]
        simp only [pure_bind]
        rw [← bind_assoc]
        exact .bind (extend_put_discreet _) fun _ => .pure fun _ => id

theorem start_discreet (dir : Nat) :
    Discreet first (Firm true) (start dir) fun _ => Firm true :=
  .discard (add_discreet dir "." dir)

theorem find_discreet (dir : Nat) (name : String) :
    Discreet first pre (find dir name) fun _ => pre := by
  rw [find]
  split
  case isTrue  => exact .refuse_bind _
  case isFalse =>
    refine .query_bind (fun _ _ a => a.findSlot dir name) fun found => ?_
    cases found
    case none   => exact .refuse _
    case some p => exact .pure fun _ => id

theorem trim_discreet (dir : Nat) : Discreet first pre (trim dir) fun _ => Firm false := by
  refine .query_bind (fun _ _ a => a.slots dir) fun es => ?_
  dsimp only
  split
  case isTrue  => exact .discard (File.shrink_discreet dir _)
  case isFalse => exact .pure fun v _ => v.firm_false

theorem remove_discreet (dir : Nat) (name : String) :
    Discreet first (Firm firm) (remove dir name) fun _ => Firm false :=
  .bind (find_discreet dir name) fun (i, _) => .bind (put_discreet dir i .free) fun _ =>
    .bind (trim_discreet dir) fun _ => .pure fun _ => id

theorem redirect_discreet (dir : Nat) (name : String) (target : Nat) :
    Discreet first (Firm firm) (redirect dir name target) fun _ => Firm firm :=
  .bind (find_discreet dir name) fun (i, _) => .bind (put_discreet dir i _) fun _ =>
    .pure fun _ => id

theorem attach_discreet (dir : Nat) (name : String) (target : Nat) :
    Discreet first (Firm true) (attach dir name target) fun _ => Firm true := by
  refine .bind (add_discreet dir name target) fun i =>
    .query_bind (fun _ _ a => congrFun a.same.isDir target) fun isDir => ?_
  split
  case isFalse => exact .pure fun _ => id
  case isTrue  =>
    refine .attempt_bind (add_discreet target ".." dir) (fun _ => .pure fun _ => id) fun e => ?_
    exact .bind (.discard (remove_discreet dir name)) fun _ => .refuse e

theorem detach_discreet (dir : Nat) (name : String) :
    Discreet first (Firm firm) (detach dir name) fun _ => Firm false := by
  refine .bind (find_discreet dir name) fun (i, target) => .bind (put_discreet dir i .free) fun _ =>
    .query_bind (fun _ _ a => congrFun a.same.isDir target) fun isDir => ?_
  have rest : ∀ {pre}, Discreet first pre (do trim dir; return i) fun _ => Firm false :=
    .bind (trim_discreet dir) fun _ => .pure fun _ => id
  split
  case isFalse => exact rest
  case isTrue  =>
    refine .attempt_bind (remove_discreet target "..") (fun _ => rest) fun e => ?_
    split
    case h_1 => exact rest
    case h_2 => exact rest
    case h_3 => exact .refuse_bind _

end Directory
end InodeVolume
