import InodeVolume.Proofs.Directory.Places
import InodeVolume.Proofs.File.Access

namespace InodeVolume

open VolumeM Volume

namespace Volume

def Shows (v : Volume) (files : Nat → Option (List UInt8)) (d : Nat) (es : List Entry) : Prop :=
  ∃ bytes, Entries.Reads bytes es ∧ v.Includes (Function.update files d (some bytes))

-- One file has changed. The volume is as consistent as before, and the others are read as before.
structure Confines (v w : Volume) (d : Nat) : Prop where
  consistent : w.Consistent
  heads      : ∀ k, w.Head k ↔ v.Head k
  others     : ∀ k ≠ d, v.Head k → ∀ offset len, w.readFile k offset len = v.readFile k offset len

variable {v w x : Volume} {files : Nat → Option (List UInt8)} {d i t u n : Nat} {es fs : List Entry}
variable {e : Entry} {name : String} {bytes : List UInt8}

theorem Includes.shows (hv : v.Includes files) (hf : files d = some bytes)
    (hr : Entries.Reads bytes es) : v.Shows files d es :=
  ⟨bytes, hr, by rwa [← hf, Function.update_eq_self]⟩

namespace Shows

theorem slotWithin (hv : v.Shows files d es) (hi : i < es.length) :
    v.slotWithin d (es.length * entrySize) i = .ok es[i] := by
  have ⟨bytes, hr, hv⟩ := hv
  have hle : i * entrySize + entrySize ≤ es.length * entrySize := by lia
  rw [Volume.slotWithin, ← hr.length, hv.readWithin (Function.update_self ..), hr.getElem hi]
  have : ((bytes.drop (i * entrySize)).take entrySize).length = entrySize := by
    rw [List.length_take, List.length_drop, hr.length]
    omega
  simp only [bind, Except.bind, this, if_true]
  rfl

theorem slots (hv : v.Shows files d es) : v.slots d = .ok es := by
  refine slots_eq ?_ fun i hi => hv.slotWithin hi
  have ⟨bytes, hr, hv⟩ := hv
  rw [hv.fileSize (Function.update_self ..), hr.length]

theorem length_lt (hv : v.Shows files d es) : es.length * entrySize + entrySize < wordLimit := by
  have ⟨bytes, hr, hi⟩ := hv
  have := hi.length_le (Function.update_self ..)
  rw [hr.length] at this
  lia

theorem confines (hw : w.Shows files d es) (hv : v.Includes files) (hf : files d = some bytes) :
    v.Confines w d := by
  have ⟨b, _, hi⟩ := hw
  constructor
  case consistent => exact hi.consistent
  case heads =>
    intro k
    rw [hi.heads, hv.heads, Function.update_apply]
    split
    case isTrue hk => simp [hk, hf]
    case isFalse   => rfl
  case others =>
    intro k hk hkh offset len
    have ⟨c, hc⟩ := hv.exists_file hkh
    rw [hv.readFile hc, hi.readFile (by rwa [Function.update_of_ne hk])]

end Shows
end Volume

namespace Directory

variable {v : Volume} {files : Nat → Option (List UInt8)} {d i t : Nat} {es : List Entry}
variable {e : Entry} {name : String}

theorem put_shows (hv : v.Shows files d es) (hi : i < es.length) (he : e.Storable) :
    (put d i e).Ensures v (fun _ w => w.Shows files d (es.set i e)) Never := by
  have hlim := hv.length_lt
  obtain ⟨bytes, hr, hv⟩ := hv
  have hlen := hr.length
  have hle : i * entrySize + entrySize ≤ es.length * entrySize := by lia
  rw [put, if_neg (by omega), ensures_bind]
  apply (File.write_includes hv (Function.update_self ..) _ e.bytes).mono_ok
  rintro n w ⟨hn, hw⟩
  have hn : n = entrySize := by rw [hn, clip, Entry.length_bytes]; omega
  rw [if_neg (by simp [hn])]
  rw [hn, List.take_of_length_le (by simp), Function.update_idem] at hw
  exact ⟨_, hr.set hi he, hw⟩

theorem extend_shows (hv : v.Shows files d es) :
    (extend d).Ensures v
      (fun _ w => v.Affords d ((es.length + 1) * entrySize) ∧ ∃ e, w.Shows files d (es ++ [e]))
      (fun e w => e = .errno .noSpace ∧ ¬v.Affords d ((es.length + 1) * entrySize) ∧
        w.Shows files d es) := by
  have hlim := hv.length_lt
  obtain ⟨bytes, hr, hv⟩ := hv
  have hgoal : bytes.length + entrySize = (es.length + 1) * entrySize := by
    rw [hr.length, Nat.succ_mul]
  rw [extend, ensures_bind]
  apply (File.grow_includes hv (Function.update_self ..) (by rwa [hr.length])).mono_never
  rintro g w ⟨hg, new, hnew, hw⟩
  rw [Function.update_idem] at hw
  have hwhole := hg.whole
  rw [hgoal] at hwhole
  rcases hg.fits with hf | hf
  case inl =>
    rw [hf.left]
    have hnew : new.length = entrySize := by rw [hnew, hf.right, Nat.zero_add]
    exact ⟨hwhole.mp hf.left, _, _, hr.append (.single hnew), hw⟩
  case inr =>
    have hcut : ¬v.Affords d ((es.length + 1) * entrySize) := by simp [← hwhole, hf.left]
    rw [hf.left]
    dsimp only
    by_cases hz : 0 < g.grown
    case pos =>
      rw [if_pos hz, ensures_bind, ensures_discard]
      apply (File.shrink_includes hw (Function.update_self ..) g.grown).mono_never
      intro _ x hx
      rw [Function.update_idem, List.length_append, hnew, Nat.add_sub_cancel, List.take_left] at hx
      exact ⟨rfl, hcut, bytes, hr, hx⟩
    case neg =>
      rw [if_neg hz]
      have hnil : new = [] := List.length_eq_zero_iff.mp (by omega)
      rw [hnil, List.append_nil] at hw
      exact ⟨rfl, hcut, bytes, hr, hw⟩

theorem trim_shows (hv : v.Shows files d es) :
    (trim d).Ensures v (fun _ w => w.Shows files d (es.rdropWhile Entry.isFree)) Never := by
  rw [trim, ensures_bind, ensures_query_ok hv.slots]
  have hsplit := List.rdropWhile_append_rtakeWhile (p := Entry.isFree) (l := es)
  have hlen : (es.reverse.takeWhile Entry.isFree).length = (es.rtakeWhile Entry.isFree).length := by
    rw [List.rtakeWhile, List.length_reverse]
  dsimp only
  rw [hlen]
  generalize es.rtakeWhile Entry.isFree = gs at *
  generalize es.rdropWhile Entry.isFree = fs at *
  by_cases hz : 0 < gs.length
  case pos =>
    rw [if_pos hz, ensures_discard]
    obtain ⟨bytes, hr, hv⟩ := hv
    apply (File.shrink_includes hv (Function.update_self ..) _).mono_ok
    intro _ w hw
    have hfs : bytes.length - gs.length * entrySize = fs.length * entrySize := by
      rw [hr.length, ← hsplit, List.length_append, Nat.add_mul, Nat.add_sub_cancel]
    rw [Function.update_idem, hfs] at hw
    have hsub : fs.length ≤ es.length := by rw [← hsplit, List.length_append]; omega
    have := (hr.split hsub).left
    rw [← hsplit, List.take_left] at this
    exact ⟨_, this, hw⟩
  case neg =>
    rw [if_neg hz]
    have hgs : gs = [] := List.length_eq_zero_iff.mp (by omega)
    rwa [← hsplit, hgs, List.append_nil] at hv

theorem add_shows (hv : v.Shows files d es) (hfit : Entry.fits name) (hp : Entry.Plain name)
    (ht : t < 0x80000000) (ha : ∀ u, (name, u) ∉ Entries.used es) :
    (add d name t).Ensures v
      (fun i w => i = Entries.place es ∧
        ((∃ e ∈ es, e.isFree) ∨ v.Affords d ((es.length + 1) * entrySize)) ∧
        w.Shows files d (Entries.insert es ⟨name, some t⟩))
      (fun e w => e = .errno .noSpace ∧ (∀ e ∈ es, ¬e.isFree) ∧
        ¬v.Affords d ((es.length + 1) * entrySize) ∧ w.Shows files d es) := by
  have hany : ¬(es.any fun e => !e.isFree && e.name = name) := by
    rw [Entries.any_name_iff]
    exact fun ⟨u, hu⟩ => ha u hu
  have hstore : (⟨name, some t⟩ : Entry).Storable :=
    ⟨hfit, hp, fun n hn => Option.some.inj hn ▸ ht, by simp [Entry.isFree]⟩
  rw [add, if_neg (by simpa using hfit), ensures_bind, ensures_query_ok hv.slots, if_neg hany,
    Entries.place, Entries.insert]
  cases hidx : es.findIdx? Entry.isFree
  case some i =>
    obtain ⟨hlt, hfree, _⟩ := List.findIdx?_eq_some_iff_getElem.mp hidx
    dsimp only
    rw [pure_bind, ensures_bind]
    apply (put_shows hv hlt hstore).mono_never
    exact fun _ w hw => ⟨rfl, .inl ⟨_, List.getElem_mem hlt, hfree⟩, hw⟩
  case none =>
    have hused : ∀ e ∈ es, ¬e.isFree := fun e he => by
      simpa using List.findIdx?_eq_none_iff.mp hidx e he
    dsimp only
    rw [ensures_bind, ensures_seqRight]
    apply (extend_shows hv).mono
    case he =>
      rintro e w ⟨he, hcut, hw⟩
      exact ⟨he, hused, hcut, hw⟩
    rintro _ w ⟨hroom, e, hw⟩
    rw [ensures_pure, ensures_bind]
    apply (put_shows hw (by simp) hstore).mono_never
    intro _ x hx
    rw [List.set_append_right _ _ (Nat.le_refl _), Nat.sub_self, List.set_cons_zero] at hx
    exact ⟨rfl, .inr hroom, hx⟩

theorem add_taken (hs : v.slots d = .ok es) (hfit : Entry.fits name)
    (ha : ∃ u, (name, u) ∈ Entries.used es) : add d name t v = (.error (.errno .fileExists), v) := by
  apply Ensures.eq_error
  rw [add, if_neg (by simpa using hfit), ensures_bind, ensures_query_ok hs,
    if_pos (Entries.any_name_iff.mpr ha)]
  exact ⟨rfl, rfl⟩

theorem remove_absent (hv : v.Shows files d es) (ha : ∀ u, (name, u) ∉ Entries.used es) :
    remove d name v = (.error (.errno .notFound), v) := by
  apply Ensures.eq_error
  rw [remove, find, ensures_bind]
  by_cases hfit : Entry.fits name
  case neg =>
    rw [if_pos (by simpa using hfit)]
    exact ⟨rfl, rfl⟩
  case pos =>
    rw [if_neg (by simpa using hfit), ensures_bind, ensures_query_ok (findSlot_eq hv.slots name),
      Entries.find_eq_none.mpr ha]
    exact ⟨rfl, rfl⟩

theorem remove_shows (hv : v.Shows files d es) (hfit : Entry.fits name)
    (hfind : Entries.find es name = some (i, t)) :
    (remove d name).Ensures v (fun k w => k = i ∧ w.Shows files d (Entries.clear es i)) Never := by
  have ⟨hi, _⟩ := List.getElem?_eq_some_iff.mp (Entries.find_eq_some hfind)
  rw [remove, find, if_neg (by simpa using hfit), ensures_bind, ensures_bind,
    ensures_query_ok (findSlot_eq hv.slots name), hfind]
  dsimp only
  rw [ensures_pure, ensures_bind]
  apply (put_shows hv hi .free).mono_ok
  intro _ u hu
  rw [ensures_bind]
  apply (trim_shows hu).mono_ok
  exact fun _ w hw => ⟨rfl, hw⟩

end Directory

namespace Volume

variable {v w x : Volume} {files : Nat → Option (List UInt8)} {d i t u n : Nat} {es fs : List Entry}
variable {name : String} {bytes : List UInt8}

structure Added (v w : Volume) (d : Nat) (es : List Entry) (name : String) (t : Nat) : Prop where
  confines : v.Confines w d
  slots    : w.slots d = .ok (Entries.insert es ⟨name, some t⟩)
  orderly  : Entries.Orderly (Entries.insert es ⟨name, some t⟩)
  vacant   : ∀ e, es[Entries.place es]? = some e → e.isFree
  lowest   : ∀ k < Entries.place es, ∃ e, es[k]? = some e ∧ ¬e.isFree
  new      : (Entries.insert es ⟨name, some t⟩)[Entries.place es]? = some ⟨name, some t⟩
  kept     : ∀ k ≠ Entries.place es, (Entries.insert es ⟨name, some t⟩)[k]? = es[k]?
  lookup   : ∀ other, w.lookup d other = if other = name then .ok t else v.lookup d other
  listing  : ∃ before after, v.listing d = .ok (before ++ after) ∧
    w.listing d = .ok (before ++ (name, t) :: after)

structure Removed (v w : Volume) (d : Nat) (es : List Entry) (name : String) (i u : Nat) : Prop where
  confines : v.Confines w d
  slots    : w.slots d = .ok (Entries.clear es i)
  orderly  : Entries.Orderly (Entries.clear es i)
  trimmed  : ∃ gs, es.set i .free = Entries.clear es i ++ gs ∧ ∀ e ∈ gs, e.isFree
  kept     : ∀ k < (Entries.clear es i).length, k ≠ i → (Entries.clear es i)[k]? = es[k]?
  lookup   : ∀ other, w.lookup d other =
    if other = name then .error (.errno .notFound) else v.lookup d other
  listing  : ∃ before after, v.listing d = .ok (before ++ (name, u) :: after) ∧
    w.listing d = .ok (before ++ after)

-- A name has been added and removed again. A slot that was free before may have lost what was left of
-- an older name in it.
structure Readjusted (v x : Volume) (d : Nat) (es : List Entry) : Prop where
  confines : v.Confines x d
  slots    : x.slots d = .ok (es.set (Entries.place es) .free)
  lookup   : ∀ other, x.lookup d other = v.lookup d other
  listing  : x.listing d = v.listing d

-- What comes of adding a name. It is refused where the name is there already, or where there is neither
-- a free slot nor room for another one.
structure Adds (v : Volume) (d : Nat) (es : List Entry) (name : String) (t : Nat) : Prop where
  taken : (∃ u, (name, u) ∈ Entries.used es) →
    Directory.add d name t v = (.error (.errno .fileExists), v)
  full  : (∀ u, (name, u) ∉ Entries.used es) → (∀ e ∈ es, ¬e.isFree) →
    ¬v.Affords d ((es.length + 1) * entrySize) →
    ∃ w, Directory.add d name t v = (.error (.errno .noSpace), w) ∧ v.Confines w d ∧
      w.slots d = .ok es
  done  : (∀ u, (name, u) ∉ Entries.used es) →
    (∃ e ∈ es, e.isFree) ∨ v.Affords d ((es.length + 1) * entrySize) →
    ∃ w x, Directory.add d name t v = (.ok (Entries.place es), w) ∧ v.Added w d es name t ∧
      Directory.remove d name w = (.ok (Entries.place es), x) ∧ v.Readjusted x d es

structure Removes (v : Volume) (d : Nat) (es : List Entry) (name : String) : Prop where
  absent  : (∀ u, (name, u) ∉ Entries.used es) →
    Directory.remove d name v = (.error (.errno .notFound), v)
  present : ∀ i u, es[i]? = some ⟨name, some u⟩ →
    ∃ w, Directory.remove d name v = (.ok i, w) ∧ v.Removed w d es name i u

theorem lookup_congr (hv : v.slots d = .ok es) (hw : w.slots d = .ok fs) {other : String}
    (hf : ((Entries.used fs).map (·.1)).Nodup)
    (h : ∀ u, (other, u) ∈ Entries.used es ↔ (other, u) ∈ Entries.used fs) :
    w.lookup d other = v.lookup d other := by
  rw [lookup_eq hv, lookup_eq hw, Entries.map_find_eq hf h]

namespace Shows

theorem added (hw : w.Shows files d (Entries.insert es ⟨name, some t⟩)) (hv : v.Includes files)
    (hf : files d = some bytes) (hs : v.slots d = .ok es) (ho : Entries.Orderly es)
    (hfit : Entry.fits name) (ha : ∀ u, (name, u) ∉ Entries.used es) : v.Added w d es name t := by
  have horderly := ho.insert ha t
  constructor
  case confines => exact hw.confines hv hf
  case slots    => exact hw.slots
  case orderly  => exact horderly
  case new      => exact Entries.getElem?_insert_place ..
  case kept     => exact fun _ => Entries.getElem?_insert_of_ne _
  case vacant   => exact fun _ => Entries.isFree_place
  case lowest =>
    intro k hk
    have hlt : k < es.length := Nat.lt_of_lt_of_le hk Entries.place_le
    have he := List.getElem?_eq_getElem hlt
    exact ⟨es[k], he, Entries.not_isFree_of_lt_place hk he⟩
  case lookup =>
    intro other
    split
    case isTrue h =>
      subst h
      rw [lookup_eq hw.slots, if_pos hfit,
        Entries.find_of_getElem? horderly.distinct (Entries.getElem?_insert_place ..)]
      rfl
    case isFalse h =>
      refine lookup_congr hs hw.slots horderly.distinct fun u => ?_
      rw [(Entries.used_insert rfl).mem_iff, List.mem_cons, Prod.mk.injEq]
      simp [h]
  case listing =>
    have ⟨before, after, hb, hn⟩ := Entries.used_insert_split es ⟨name, some t⟩
    exact ⟨before, after, hb ▸ listing_eq hs, hn ▸ listing_eq hw.slots⟩

theorem removed (hw : w.Shows files d (Entries.clear es i)) (hv : v.Includes files)
    (hf : files d = some bytes) (hs : v.slots d = .ok es) (ho : Entries.Orderly es)
    (hi : es[i]? = some ⟨name, some u⟩) : v.Removed w d es name i u := by
  have horderly := ho.clear hi
  have hperm := Entries.used_clear hi rfl
  constructor
  case confines => exact hw.confines hv hf
  case slots    => exact hw.slots
  case orderly  => exact horderly
  case trimmed  => exact Entries.clear_append es i
  case kept     => exact fun _ => Entries.getElem?_clear_of_ne
  case lookup =>
    intro other
    split
    case isTrue h =>
      subst h
      have hdistinct := ho.distinct
      rw [(hperm.map _).nodup_iff, List.map_cons, List.nodup_cons] at hdistinct
      have hnone : Entries.find (Entries.clear es i) other = none :=
        Entries.find_eq_none.mpr fun u hu =>
          hdistinct.left (List.mem_map.mpr ⟨_, hu, rfl⟩)
      rw [lookup_eq hw.slots, hnone]
      exact ite_self _
    case isFalse h =>
      refine lookup_congr hs hw.slots horderly.distinct fun u => ?_
      rw [hperm.mem_iff, List.mem_cons, Prod.mk.injEq]
      simp [h]
  case listing =>
    have ⟨before, after, hb, hn⟩ := Entries.used_clear_split hi
    exact ⟨before, after, hb ▸ listing_eq hs, hn ▸ listing_eq hw.slots⟩

theorem readjusted (hx : x.Shows files d (es.set (Entries.place es) .free)) (hv : v.Includes files)
    (hf : files d = some bytes) (hs : v.slots d = .ok es) (ho : Entries.Orderly es) :
    v.Readjusted x d es := by
  have hused := Entries.used_set_place es
  constructor
  case confines => exact hx.confines hv hf
  case slots    => exact hx.slots
  case lookup =>
    exact fun other => lookup_congr hs hx.slots (hused ▸ ho.distinct) fun u => by rw [hused]
  case listing => rw [listing_eq hs, listing_eq hx.slots, hused]

end Shows

-- A directory without a gap at its end maps names to inodes. Adding a name puts it into the first
-- free slot, or else into a new one; removing a name frees its slot and cuts off the free ones at
-- the end. No other slot changes by that, and no other file.
theorem Consistent.directory_exact (c : v.Consistent) (hd : v.Head d) (hn : v.fileSize d = .ok n)
    (hm : n % entrySize = 0) :
    ∃ es, v.slots d = .ok es ∧ n = es.length * entrySize ∧ (Entries.Orderly es →
      ∀ name t, Entry.fits name → Entry.Plain name → t < 0x80000000 →
        v.Adds d es name t ∧ v.Removes d es name) := by
  have ⟨files, hv⟩ := c.exists_files
  have ⟨bytes, hf⟩ := hv.exists_file hd
  have hsize : n = bytes.length := Except.ok.inj (hn.symm.trans (hv.fileSize hf))
  have hr := Entries.Reads.of_mod (hsize ▸ hm)
  have hshows := hv.shows hf hr
  have hs := hshows.slots
  refine ⟨Entries.ofBytes bytes, hs, hsize.trans hr.length, ?_⟩
  generalize Entries.ofBytes bytes = es at hshows hs
  intro ho name t hfit hp ht
  -- removal is needed twice: for a name that was there, and for the one that has been added
  have removes : ∀ {u : Volume} {gs : List Entry} {i k : Nat}, u.Shows files d gs →
      Entries.Orderly gs → gs[i]? = some ⟨name, some k⟩ →
      ∃ w, Directory.remove d name u = (.ok i, w) ∧ w.Shows files d (Entries.clear gs i) := by
    intro u gs i k hu hgs hi
    have ⟨_, w, hw, hiw, hshow⟩ :=
      (Directory.remove_shows hu hfit (Entries.find_of_getElem? hgs.distinct hi)).exists_ok
    exact ⟨w, hiw ▸ hw, hshow⟩
  refine ⟨⟨?taken, ?full, ?done⟩, ⟨?absent, ?present⟩⟩
  case taken  => exact Directory.add_taken hs hfit
  case absent => exact Directory.remove_absent hshows
  case present =>
    intro i u hi
    have ⟨w, hw, hshow⟩ := removes hshows ho hi
    exact ⟨w, hw, hshow.removed hv hf hs ho hi⟩
  case full =>
    intro ha hused hroom
    have h := Directory.add_shows hshows hfit hp ht ha
    rcases hadd : Directory.add d name t v with ⟨_ | i, w⟩
    case error =>
      have ⟨he, _, _, hw⟩ := h.of_error hadd
      exact ⟨w, by rw [he], hw.confines hv hf, hw.slots⟩
    case ok =>
      have ⟨_, hfree, _⟩ := h.of_ok hadd
      refine (hfree.elim ?_ hroom).elim
      exact fun ⟨e, he, hefree⟩ => hused e he hefree
  case done =>
    intro ha hroom
    have h := Directory.add_shows hshows hfit hp ht ha
    rcases hadd : Directory.add d name t v with ⟨_ | i, w⟩
    case error =>
      have ⟨_, hused, hfull, _⟩ := h.of_error hadd
      refine (hroom.elim ?_ hfull).elim
      exact fun ⟨e, he, hefree⟩ => hused e he hefree
    case ok =>
      have ⟨hi, _, hw⟩ := h.of_ok hadd
      have ⟨x, hx, hshow⟩ := removes hw (ho.insert ha t) (Entries.getElem?_insert_place ..)
      rw [Entries.clear_insert ho.tight] at hshow
      exact ⟨w, x, by rw [hi], hw.added hv hf hs ho hfit ha, hx, hshow.readjusted hv hf hs ho⟩

theorem directory_exact_fresh :
    ∃ es, (fresh.Consistent ∧ fresh.Head rootInode ∧
      fresh.fileSize rootInode = .ok FileState.root.bytes.length ∧
      FileState.root.bytes.length % entrySize = 0) ∧
      fresh.slots rootInode = .ok es ∧ Entries.Orderly es ∧
      fresh.Adds rootInode es "a" 1 ∧ fresh.Removes rootInode es "a" := by
  have hroot : rootFiles rootInode = some .root := Function.update_self ..
  have c := holds_fresh.consistent
  have hh : fresh.Head rootInode := holds_fresh.head_root
  have hs := holds_fresh.fileSize hroot
  have hlen : FileState.root.bytes.length = 2 * entrySize := Entries.length_bytes _
  have hmod : FileState.root.bytes.length % entrySize = 0 := by rw [hlen, Nat.mul_mod_left]
  have hslots := holds_fresh.slots hroot ⟨rfl, FileState.storable_root⟩
  have ho : Entries.Orderly [⟨".", some rootInode⟩, (⟨"..", some rootInode⟩ : Entry)] :=
    ⟨by decide, by simp [Entries.Tight, Entry.isFree]⟩
  obtain ⟨es, hes, _, h⟩ := c.directory_exact hh hs hmod
  obtain rfl := Except.ok.inj (hes.symm.trans hslots)
  exact ⟨_, ⟨c, hh, hs, hmod⟩, hslots, ho, h ho "a" 1 (by decide) (by decide) (by decide)⟩

end Volume
end InodeVolume
