import InodeVolume.Proofs.Directory.Entries
import InodeVolume.Proofs.File.Lifetime

namespace InodeVolume

open VolumeM Volume

structure FileState.Lists (f : FileState) (es : List Entry) : Prop where
  bytes    : f.bytes = Entries.bytes es
  storable : ∀ e ∈ es, e.Storable

def FileState.entries (f : FileState) : List Entry :=
  Entries.ofBytes f.bytes

def FileState.withEntries (f : FileState) (es : List Entry) : FileState :=
  { f with bytes := Entries.bytes es }

variable {v : Volume} {files : Nat → Option FileState} {d i t : Nat} {f : FileState}
variable {es : List Entry} {name : String}

@[simp]
theorem FileState.isDir_withEntries : (f.withEntries es).isDir = f.isDir :=
  rfl

-- The bytes of a file were written as these entries, though not all names need to be read like that.
structure FileState.Writes (f : FileState) (es : List Entry) : Prop where
  bytes : f.bytes = Entries.bytes es
  inode : ∀ e ∈ es, ∀ n, e.inode = some n → n < 0x80000000

theorem FileState.Writes.length (hw : f.Writes es) : f.bytes.length = es.length * entrySize := by
  rw [hw.bytes, Entries.length_bytes]

theorem FileState.Lists.writes (hl : f.Lists es) : f.Writes es where
  bytes := hl.bytes
  inode := fun e he => (hl.storable e he).inode

theorem FileState.Lists.map_stored (hl : f.Lists es) : es.map Entry.stored = es :=
  List.map_congr_left (fun e he => (hl.storable e he).stored_eq) |>.trans (List.map_id es)

theorem FileState.Writes.eq (hw : f.Writes es) : f.withEntries es = f := by
  rw [withEntries, ← hw.bytes]

theorem FileState.Lists.eq (hl : f.Lists es) : f.withEntries es = f :=
  hl.writes.eq

theorem FileState.Lists.entries (hl : f.Lists es) : f.entries = es := by
  rw [FileState.entries, hl.bytes, Entries.ofBytes_bytes hl.storable]

theorem FileState.Lists.length (hl : f.Lists es) : f.bytes.length = es.length * entrySize :=
  hl.writes.length

theorem Entries.length_takeWhile_stored (h : ∀ e ∈ es, ∀ n, e.inode = some n → n < 0x80000000) :
    ((es.map Entry.stored).takeWhile Entry.isFree).length = (es.takeWhile Entry.isFree).length := by
  induction es
  case nil => rfl
  case cons e es hi =>
    have hi := hi fun x hx => h x (List.mem_cons_of_mem _ hx)
    simp only [List.map_cons, List.takeWhile_cons, Entry.isFree_stored (h e List.mem_cons_self)]
    split
    case isTrue  => rw [List.length_cons, List.length_cons, hi]
    case isFalse => rfl

namespace FileState

theorem Writes.set (hw : f.Writes es) {e : Entry} (he : ∀ n, e.inode = some n → n < 0x80000000) :
    (f.withEntries (es.set i e)).Writes (es.set i e) where
  bytes := rfl
  inode := fun _ hm => (List.mem_or_eq_of_mem_set hm).elim (hw.inode _) fun h => h ▸ he

theorem Writes.insert (hw : f.Writes es) {e : Entry} (he : ∀ n, e.inode = some n → n < 0x80000000) :
    (f.withEntries (Entries.insert es e)).Writes (Entries.insert es e) where
  bytes := rfl
  inode := fun _ hm => (Entries.mem_insert hm).elim (hw.inode _) fun h => h ▸ he

theorem lists_withEntries (hs : ∀ e ∈ es, e.Storable) : (f.withEntries es).Lists es :=
  ⟨rfl, hs⟩

namespace Lists

theorem set (hl : f.Lists es) {e : Entry} (he : e.Storable) :
    (f.withEntries (es.set i e)).Lists (es.set i e) :=
  lists_withEntries fun _ hm => (List.mem_or_eq_of_mem_set hm).elim (hl.storable _) fun h => h ▸ he

theorem insert (hl : f.Lists es) {e : Entry} (he : e.Storable) :
    (f.withEntries (Entries.insert es e)).Lists (Entries.insert es e) :=
  lists_withEntries fun _ hm => (Entries.mem_insert hm).elim (hl.storable _) fun h => h ▸ he

theorem clear (hl : f.Lists es) : (f.withEntries (Entries.clear es i)).Lists (Entries.clear es i) :=
  lists_withEntries fun _ hm => (Entries.mem_clear hm).elim (hl.storable _) fun h => h ▸ .free

end Lists
end FileState

namespace Volume

theorem fileSize_of_free (h : v.link? d = none) : v.fileSize d = .error (.errno .notFound) := by
  rw [fileSize, chain, chainFrom, inode_of_not_link? h]
  rfl

theorem slots_of_free (h : v.link? d = none) : v.slots d = .error (.errno .notFound) := by
  rw [slots, slotCount, fileSize_of_free h]
  rfl

theorem slotsFrom_eq {total count : Nat}
    (h : ∀ i (hi : i < es.length), v.slotWithin d total i = .ok es[i]) (hc : i + count = es.length) :
    v.slotsFrom d total i count = .ok (es.drop i) := by
  induction count generalizing i
  case zero => rw [slotsFrom, List.drop_of_length_le (by omega)]
  case succ count hi =>
    have hlt : i < es.length := by omega
    rw [slotsFrom, h i hlt, hi (by omega), List.drop_eq_getElem_cons hlt]
    rfl

theorem slots_eq (hn : v.fileSize d = .ok (es.length * entrySize))
    (h : ∀ i (hi : i < es.length), v.slotWithin d (es.length * entrySize) i = .ok es[i]) :
    v.slots d = .ok es := by
  rw [slots, slotCount, hn]
  simp only [bind, Except.bind, Nat.mul_mod_left, if_true, pure, Except.pure,
    Nat.mul_div_cancel _ (show 0 < entrySize by decide)]
  exact slotsFrom_eq h (Nat.zero_add _)

theorem findSlot_eq (hs : v.slots d = .ok es) (name : String) :
    v.findSlot d name = .ok (Entries.find es name) := by
  rw [findSlot, hs]
  rfl

theorem lookup_eq (hs : v.slots d = .ok es) (name : String) :
    v.lookup d name = if Entry.fits name then
      ((Entries.find es name).map (·.2)).elim (.error (.errno .notFound)) .ok
    else .error (.errno .notFound) := by
  rw [lookup, findSlot_eq hs]
  by_cases hfit : Entry.fits name
  case neg => simp [hfit, bind, Except.bind]
  case pos =>
    simp only [hfit, if_true, bind, Except.bind, pure, Except.pure]
    cases Entries.find es name <;> rfl

theorem listing_eq (hs : v.slots d = .ok es) : v.listing d = .ok (Entries.used es) := by
  rw [listing, hs]
  rfl

namespace Holds

theorem slotWithin (hv : v.Holds files) (hf : files d = some f) (hw : f.Writes es) {e : Entry}
    (he : es[i]? = some e) : v.slotWithin d f.bytes.length i = .ok e.stored := by
  rw [Volume.slotWithin, hv.readWithin hf, hw.bytes, Entries.slice he]
  simp only [bind, Except.bind, Entry.length_bytes, if_true]
  rfl

theorem slots_stored (hv : v.Holds files) (hf : files d = some f) (hw : f.Writes es) :
    v.slots d = .ok (es.map Entry.stored) := by
  have hlen : f.bytes.length = (es.map Entry.stored).length * entrySize := by
    rw [hw.length, List.length_map]
  refine slots_eq (by rw [hv.fileSize hf, hlen]) fun i hi => ?_
  have he := List.getElem?_eq_getElem (List.length_map .. ▸ hi : i < es.length)
  rw [← hlen, hv.slotWithin hf hw he, List.getElem_map]

theorem slots (hv : v.Holds files) (hf : files d = some f) (hl : f.Lists es) :
    v.slots d = .ok es := by
  rw [hv.slots_stored hf hl.writes, hl.map_stored]

end Holds

theorem find_of_not_fits (hl : f.Lists es) (h : ¬Entry.fits name) : Entries.find es name = none := by
  rw [Entries.find_eq_none]
  exact fun t hm => h (hl.storable _ (Entries.mem_used.mp hm)).fits

theorem Holds.lookup (hv : v.Holds files) (hf : files d = some f) (hl : f.Lists es) (name : String) :
    v.lookup d name =
      match Entries.find es name with
      | some (_, t) => .ok t
      | none        => .error (.errno .notFound) := by
  rw [lookup_eq (hv.slots hf hl)]
  by_cases h : Entry.fits name
  case pos =>
    rw [if_pos h]
    cases Entries.find es name <;> rfl
  case neg => rw [if_neg h, find_of_not_fits hl h]

end Volume

namespace Directory

theorem put_ensures (hv : v.Holds files) (hf : files d = some f) (e : Entry)
    (hi : i * entrySize + entrySize ≤ f.bytes.length) :
    (put d i e).Ensures v
      (fun _ w => w.Holds (Function.update files d
        (some { f with bytes := overwrite f.bytes (i * entrySize) e.bytes })) ∧ v.SameChains w)
      Never := by
  have hmax := hv.length_le hf
  rw [put, if_neg (by lia), ensures_bind]
  apply (File.write_ensures hv hf e.bytes).mono_ok
  intro n w ⟨hn, hw, hr⟩
  have : n = entrySize := by rw [hn, clip, Entry.length_bytes]; omega
  rw [if_neg (by simp [this])]
  refine ⟨?_, hr⟩
  rwa [this, List.take_of_length_le (by simp)] at hw

theorem set_ensures (hv : v.Holds files) (hf : files d = some f) (hw : f.Writes es) {old : Entry}
    (hi : es[i]? = some old) (e : Entry) :
    (put d i e).Ensures v
      (fun _ w => w.Holds (Function.update files d (some (f.withEntries (es.set i e)))) ∧
        v.SameChains w) Never := by
  have ⟨hlt, _⟩ := List.getElem?_eq_some_iff.mp hi
  have hle : i * entrySize + entrySize ≤ f.bytes.length := by rw [hw.length]; lia
  have := put_ensures hv hf e hle
  rwa [hw.bytes, Entries.overwrite_set hi] at this

structure Cramped (v : Volume) (d : Nat) (f : FileState) : Prop where
  short : blocksFor f.bytes.length < blocksFor (f.bytes.length + entrySize)
  room  : f.bytes.length % inodeCapacity + blockSize ≤ inodeCapacity →
    v.freeBlocks = 0 ∨ v.Brims d ∧ v.freeInodes = 0

theorem Cramped.trails_iff {w : Volume} (hv : v.Holds files) (hf : files d = some f)
    (c : Cramped v d f) (hw : v.Undone w d) (k : Nat) :
    w.Trails k ↔ v.Trails k ∨ k = d ∧ v.Strands d 0 0 := by
  rw [hw k]
  refine or_congr_left (and_iff_left_of_imp fun ht ⟨hk, hfree⟩ => ?_)
  subst hk
  have ⟨_, hmod⟩ := hv.size_of_trails hf ht
  cases c.room (by rw [hmod]; decide)
  case inl h => exact hfree h
  case inr h => exact ((hv.brims_iff hf).mp h.left).right.right ht

theorem Cramped.freeBlocks (hv : v.Holds files) (hf : files d = some f) (c : Cramped v d f)
    (hlt : f.bytes.length + blockSize ≤ inodeCapacity) : v.freeBlocks = 0 := by
  refine (c.room (by lia)).resolve_right fun h => ?_
  have := (hv.brims_iff hf).mp h.left
  lia

theorem extend_ensures (hv : v.Holds files) (hf : files d = some f) :
    (extend d).Ensures v
      (fun _ w => (∃ new : List UInt8, new.length = entrySize ∧
        w.Holds (Function.update files d (some { f with bytes := f.bytes ++ new }))) ∧
        (f.bytes.length + entrySize < inodeCapacity → v.Recedes w) ∧ v.Spares w d)
      (fun e w => e = .errno .noSpace ∧ w.Holds files ∧ Cramped v d f ∧
        ∀ k, w.Trails k ↔ v.Trails k ∨ k = d ∧ v.Strands d 0 0) := by
  have hmax := hv.length_le hf
  rw [extend, ensures_bind]
  apply (File.grow_ensures hv hf entrySize).mono
  case he => exact fun e w ⟨_, _, hle⟩ => absurd hle (by lia)
  intro g w ⟨hg, _, ht, new, hnew, hw, hr⟩
  cases hg
  case inl hg =>
    rw [hg.left]
    exact ⟨⟨new, by rw [hnew, hg.right, Nat.zero_add], hw⟩, hr, ht.spares⟩
  case inr hg =>
    have hcut : g.cut ≠ none := by simp [hg.left]
    have hcramped : Cramped v d f := {
      short := Nat.lt_of_le_of_lt (blocksFor_mono (Nat.le_add_right ..)) (ht.halts hcut).short
      room  := (ht.halts hcut).block (by decide)
    }
    have hundo := File.undo_ensures hf hnew hw hcut ht
    rw [hg.left]
    dsimp only
    by_cases hz : 0 < g.grown
    case pos =>
      rw [if_pos hz, ensures_bind, ensures_discard]
      apply hundo.mono_never
      exact fun _ x ⟨hx, hundone⟩ => ⟨rfl, hx, hcramped, hcramped.trails_iff hv hf hundone⟩
    case neg =>
      rw [if_neg hz]
      rw [Nat.eq_zero_of_not_pos hz, File.shrink, if_pos rfl] at hundo
      obtain ⟨hx, hundone⟩ := hundo
      exact ⟨rfl, hx, hcramped, hcramped.trails_iff hv hf hundone⟩

def Refuses (files : Nat → Option FileState) (e : Fault) (w : Volume) : Prop :=
  e.Ordinary ∧ w.Holds files

inductive Rejects (v : Volume) (d : Nat) (f : FileState) (es : List Entry) (name : String) :
    Fault → Volume → Prop
  | name {e : Fault} : e.Amiss → ¬Entry.fits name ∨ (∃ u, (name, u) ∈ Entries.used es) →
    Rejects v d f es name e v
  | space {w : Volume} : Cramped v d f → (∀ k, w.Trails k ↔ v.Trails k ∨ k = d ∧ v.Strands d 0 0) →
    Rejects v d f es name (.errno .noSpace) w

def Takes (f : FileState) (es : List Entry) (name : String) : Prop :=
  Entry.fits name ∧ (∀ u, (name, u) ∉ Entries.used es) ∧
    blocksFor (f.bytes.length + entrySize) ≤ blocksFor f.bytes.length

namespace Rejects

variable {e : Fault} {w : Volume}

theorem cramped (r : Rejects v d f es name e w) (hfit : Entry.fits name)
    (habsent : ∀ u, (name, u) ∉ Entries.used es) : Cramped v d f := by
  cases r
  case name hn _  => exact hn.elim (absurd hfit) fun ⟨u, hu⟩ => absurd hu (habsent u)
  case space hc _ => exact hc

theorem not_takes (r : Rejects v d f es name e w) : ¬Takes f es name :=
  fun ⟨hfit, habsent, hroom⟩ => absurd (r.cramped hfit habsent).short (Nat.not_lt.mpr hroom)

theorem trails_iff (r : Rejects v d f es name e w) (k : Nat) :
    w.Trails k ↔ v.Trails k ∨ e = .errno .noSpace ∧ k = d ∧ v.Strands d 0 0 := by
  cases r
  case name ha  => simp [ha.right]
  case space ht => simp [ht]

theorem spares (r : Rejects v d f es name e w) : v.Spares w d :=
  fun k hk => by simp [r.trails_iff, hk]

end Rejects

theorem add_ensures (hv : v.Holds files) (hf : files d = some f) (hl : f.Lists es) :
    (add d name t).Ensures v
      (fun _ w => Entry.fits name ∧ (∀ u, (name, u) ∉ Entries.used es) ∧
        w.Holds (Function.update files d (some (f.withEntries (Entries.insert es ⟨name, some t⟩)))) ∧
        (f.bytes.length + entrySize < inodeCapacity → v.Recedes w) ∧ v.Spares w d)
      (fun e w => Refuses files e w ∧ Rejects v d f es name e w) := by
  rw [add]
  by_cases hfit : Entry.fits name
  case neg =>
    rw [if_pos (by simpa using hfit)]
    exact ⟨⟨by decide, hv⟩, .name (by decide) (.inl hfit)⟩
  rw [if_neg (by simpa using hfit), ensures_bind, ensures_query_ok (hv.slots hf hl)]
  by_cases hany : es.any fun e => !e.isFree && e.name = name
  case pos =>
    rw [if_pos hany]
    exact ⟨⟨by decide, hv⟩, .name (by decide) (.inr (Entries.any_name_iff.mp hany))⟩
  have habsent : ∀ u, (name, u) ∉ Entries.used es := by
    intro u hu
    exact hany (Entries.any_name_iff.mpr ⟨u, hu⟩)
  rw [if_neg hany]
  simp only [Entries.insert]
  cases hidx : es.findIdx? Entry.isFree
  case some i =>
    have ⟨hlt, _⟩ := List.findIdx?_eq_some_iff_getElem.mp hidx
    dsimp only
    rw [pure_bind, ensures_bind]
    apply (set_ensures hv hf hl.writes (List.getElem?_eq_getElem hlt) _).mono_never
    exact fun _ w ⟨hw, hs⟩ => ⟨hfit, habsent, hw, fun _ => hs.recedes, hs.spares hv d⟩
  case none =>
    dsimp only
    rw [ensures_bind, ensures_seqRight]
    apply (extend_ensures hv hf).mono
    case he =>
      rintro e w ⟨rfl, hw, hc, ht⟩
      exact ⟨⟨by decide, hw⟩, .space hc ht⟩
    intro _ u ⟨⟨new, hnew, hu⟩, hru, hsu⟩
    rw [ensures_pure, ensures_bind]
    have hlen : es.length * entrySize + entrySize ≤ (f.bytes ++ new).length := by
      rw [List.length_append, hl.length, hnew]
    apply (put_ensures hu (Function.update_self ..) _ hlen).mono_never
    intro _ w ⟨hw, hsw⟩
    refine ⟨hfit, habsent, ?_, fun hlt => (hru hlt).trans hsw.recedes, hsu.trans (hsw.spares hu d)⟩
    rwa [Function.update_idem, hl.bytes, Entries.overwrite_append hnew] at hw

theorem add_free_ensures (hd : v.link? d = none) :
    (add d name t).Ensures v (fun _ _ => False) (fun e w => e.Amiss ∧ w = v) := by
  rw [add]
  by_cases hfit : Entry.fits name
  case neg =>
    rw [if_pos (by simpa using hfit)]
    exact ⟨by decide, rfl⟩
  rw [if_neg (by simpa using hfit), ensures_bind, ensures_query_error (slots_of_free hd)]
  exact ⟨by decide, rfl⟩

theorem find_ensures (hv : v.Holds files) (hf : files d = some f) (hl : f.Lists es) :
    (find d name).Ensures v (fun p w => w = v ∧ Entries.find es name = some p)
      (fun e w => e = .errno .notFound ∧ w = v ∧ Entries.find es name = none) := by
  rw [find]
  by_cases hfit : Entry.fits name
  case neg =>
    rw [if_pos (by simpa using hfit)]
    exact ⟨rfl, rfl, find_of_not_fits hl hfit⟩
  rw [if_neg (by simpa using hfit), ensures_bind, ensures_query_ok (findSlot_eq (hv.slots hf hl) name)]
  cases h : Entries.find es name
  case none   => exact ⟨rfl, rfl, rfl⟩
  case some p => exact ⟨rfl, rfl⟩

theorem trim_stored_ensures (hv : v.Holds files) (hf : files d = some f) (hw : f.Writes es) :
    (trim d).Ensures v
      (fun _ w => w.Holds (Function.update files d
        (some (f.withEntries (es.rdropWhile Entry.isFree)))) ∧ v.Recedes w ∧ v.Spares w d) Never := by
  rw [trim, ensures_bind, ensures_query_ok (hv.slots_stored hf hw)]
  have hsplit := List.rdropWhile_append_rtakeWhile (p := Entry.isFree) (l := es)
  have hlen : ((es.map Entry.stored).reverse.takeWhile Entry.isFree).length =
      (es.rtakeWhile Entry.isFree).length := by
    rw [← List.map_reverse, List.rtakeWhile, List.length_reverse]
    exact Entries.length_takeWhile_stored fun e he => hw.inode e (List.mem_reverse.mp he)
  dsimp only
  rw [hlen]
  generalize es.rtakeWhile Entry.isFree = gs at *
  generalize es.rdropWhile Entry.isFree = fs at *
  by_cases hz : 0 < gs.length
  case pos =>
    rw [if_pos hz, ensures_discard]
    apply (File.shrink_ensures hv hf _).mono_ok
    intro _ w ⟨_, hw', hr, hs, _⟩
    refine ⟨?_, hr, hs⟩
    rw [hw.bytes, ← hsplit, Entries.bytes_append, List.length_append, Entries.length_bytes gs,
      Nat.add_sub_cancel, List.take_left] at hw'
    exact hw'
  case neg =>
    rw [if_neg hz]
    have hgs : gs = [] := List.length_eq_zero_iff.mp (by omega)
    have : fs = es := by rw [← hsplit, hgs, List.append_nil]
    refine ⟨?_, .refl v, .refl v d⟩
    rwa [this, hw.eq, ← hf, Function.update_eq_self]

theorem trim_ensures (hv : v.Holds files) (hf : files d = some f) (hl : f.Lists es) :
    (trim d).Ensures v
      (fun _ w => w.Holds (Function.update files d
        (some (f.withEntries (es.rdropWhile Entry.isFree)))) ∧ v.Recedes w ∧ v.Spares w d) Never :=
  trim_stored_ensures hv hf hl.writes

theorem remove_stored_ensures (hv : v.Holds files) (hf : files d = some f) (hw : f.Writes es)
    (hfit : Entry.fits name) (hfind : Entries.find (es.map Entry.stored) name = some (i, t)) :
    (remove d name).Ensures v
      (fun _ w => w.Holds (Function.update files d (some (f.withEntries (Entries.clear es i)))))
      Never := by
  have hslot : v.findSlot d name = .ok (some (i, t)) :=
    hfind ▸ findSlot_eq (hv.slots_stored hf hw) name
  have ⟨e, he, _⟩ : ∃ e, es[i]? = some e ∧ e.stored = ⟨name, some t⟩ := by
    simpa using Entries.find_eq_some hfind
  rw [remove, find, if_neg (by simpa using hfit), ensures_bind, ensures_bind,
    ensures_query_ok hslot]
  dsimp only
  rw [ensures_pure, ensures_bind]
  apply (set_ensures hv hf hw he _).mono_ok
  intro _ x ⟨hx, _⟩
  rw [ensures_bind]
  apply (trim_stored_ensures hx (Function.update_self ..) (hw.set nofun)).mono_ok
  intro _ w ⟨hw', _⟩
  rw [Function.update_idem] at hw'
  exact hw'

theorem remove_ensures (hv : v.Holds files) (hf : files d = some f) (hl : f.Lists es) :
    (remove d name).Ensures v
      (fun i w => (∃ t, Entries.find es name = some (i, t)) ∧
        w.Holds (Function.update files d (some (f.withEntries (Entries.clear es i)))) ∧
        v.Recedes w ∧ v.Spares w d)
      (fun e w => e = .errno .notFound ∧ w = v ∧ Entries.find es name = none) := by
  rw [remove, ensures_bind]
  apply (find_ensures hv hf hl).mono_ok
  intro (i, t) u ⟨hu, hfind⟩
  subst hu
  dsimp only
  rw [ensures_bind]
  apply (set_ensures hv hf hl.writes (Entries.find_eq_some hfind) _).mono_never
  intro _ x ⟨hx, hsx⟩
  rw [ensures_bind]
  apply (trim_ensures hx (Function.update_self ..) (hl.set .free)).mono_never
  intro _ w ⟨hw, hrw, hsw⟩
  rw [Function.update_idem] at hw
  exact ⟨⟨t, hfind⟩, hw, hsx.recedes.trans hrw, (hsx.spares hv d).trans hsw⟩

theorem redirect_ensures (hv : v.Holds files) (hf : files d = some f) (hl : f.Lists es) :
    (redirect d name t).Ensures v
      (fun i w => (∃ u, Entries.find es name = some (i, u)) ∧
        w.Holds (Function.update files d (some (f.withEntries (es.set i ⟨name, some t⟩)))))
      (fun e w => e = .errno .notFound ∧ w = v ∧ Entries.find es name = none) := by
  rw [redirect, ensures_bind]
  apply (find_ensures hv hf hl).mono_ok
  intro (i, u) x ⟨hx, hfind⟩
  subst hx
  dsimp only
  rw [ensures_bind]
  apply (set_ensures hv hf hl.writes (Entries.find_eq_some hfind) _).mono_never
  exact fun _ w hw => ⟨⟨u, hfind⟩, hw.left⟩

variable {g : FileState} {gs : List Entry}

theorem exists_update (hf : files d = some f) (hg : files t = some g) (es : List Entry) :
    ∃ g', Function.update files d (some (f.withEntries es)) t = some g' ∧ g'.isDir = g.isDir := by
  by_cases ht : t = d
  case pos =>
    subst ht
    rw [hf, Option.some.injEq] at hg
    exact ⟨_, Function.update_self .., hg ▸ rfl⟩
  case neg => exact ⟨g, by rw [Function.update_of_ne ht, hg], rfl⟩

theorem attach_free_ensures (hd : v.link? d = none) :
    (attach d name t).Ensures v (fun _ _ => False) (fun e w => e.Amiss ∧ w = v) := by
  rw [attach, ensures_bind]
  exact (add_free_ensures hd).mono_ok fun _ _ => False.elim

theorem attach_file_ensures (hv : v.Holds files) (hf : files d = some f) (hl : f.Lists es)
    (hg : files t = some g) (hdir : ¬g.isDir) :
    (attach d name t).Ensures v
      (fun _ w => Entry.fits name ∧ (∀ u, (name, u) ∉ Entries.used es) ∧
        w.Holds (Function.update files d (some (f.withEntries (Entries.insert es ⟨name, some t⟩)))))
      (fun e w => Refuses files e w ∧ Rejects v d f es name e w) := by
  rw [attach, ensures_bind]
  apply (add_ensures hv hf hl).mono_ok
  intro _ w ⟨hfit, habsent, hw, _⟩
  have ⟨g', hg', hd⟩ := exists_update hf hg (Entries.insert es ⟨name, some t⟩)
  rw [ensures_bind, ensures_query_ok (hw.isDir hg'), if_neg (hd ▸ hdir)]
  exact ⟨hfit, habsent, hw⟩

theorem attach_dir_ensures (hv : v.Holds files) (hf : files d = some f) (hl : f.Lists es)
    (hg : files t = some g) (hgl : g.Lists gs) (hdir : g.isDir) (hne : t ≠ d)
    (htakes : Takes g gs "..") :
    (attach d name t).Ensures v
      (fun _ w => Entry.fits name ∧ (∀ u, (name, u) ∉ Entries.used es) ∧
        w.Holds (Function.update
          (Function.update files d (some (f.withEntries (Entries.insert es ⟨name, some t⟩)))) t
          (some (g.withEntries (Entries.insert gs ⟨"..", some d⟩)))))
      (fun e w => Refuses files e w ∧ Rejects v d f es name e w) := by
  rw [attach, ensures_bind]
  apply (add_ensures hv hf hl).mono_ok
  intro _ x ⟨hfit, habsent, hx, _⟩
  have hgx : Function.update files d
      (some (f.withEntries (Entries.insert es ⟨name, some t⟩))) t = some g := by
    rw [Function.update_of_ne hne, hg]
  rw [ensures_bind, ensures_query_ok (hx.isDir hgx), if_pos hdir, ensures_bind, ensures_attempt]
  apply (add_ensures hx hgx hgl).mono
  case ho => exact fun _ w ⟨_, _, hw, _⟩ => ⟨hfit, habsent, hw⟩
  case he => exact fun _ _ ⟨_, hrej⟩ => absurd htakes hrej.not_takes

-- A directory that is put into itself: if that fails, it is not said what it holds.
theorem attach_self_ensures (hv : v.Holds files) (hf : files d = some f) (hl : f.Lists es)
    (hdir : f.isDir) (hp : Entry.Plain name) (ht : d < inodeCount) :
    (attach d name d).Ensures v
      (fun _ w => Entry.fits name ∧ (∀ u, (name, u) ∉ Entries.used es) ∧
        w.Holds (Function.update files d (some (f.withEntries
          (Entries.insert (Entries.insert es ⟨name, some d⟩) ⟨"..", some d⟩)))))
      (fun e w => e.Ordinary ∧ (∃ f', w.Holds (Function.update files d (some f'))) ∧
        v.Spares w d) := by
  have hself : Function.update files d (some f) = files := by rw [← hf, Function.update_eq_self]
  rw [attach, ensures_bind]
  apply (add_ensures hv hf hl).mono
  case he => exact fun e w ⟨⟨he, hw⟩, hr⟩ => ⟨he, ⟨f, hself.symm ▸ hw⟩, hr.spares⟩
  intro _ x ⟨hfit, habsent, hx, _, hsx⟩
  have hlx := hl.insert (.used hfit hp ht)
  rw [ensures_bind, ensures_query_ok (hx.isDir (Function.update_self ..)),
    FileState.isDir_withEntries, if_pos hdir, ensures_bind, ensures_attempt]
  apply (add_ensures hx (Function.update_self ..) hlx).mono
  case ho =>
    intro _ w ⟨_, _, hw, _⟩
    rw [Function.update_idem] at hw
    exact ⟨hfit, habsent, hw⟩
  intro e y ⟨⟨he, hy⟩, hr⟩
  have hsy := hsx.trans hr.spares
  obtain ⟨n, rfl⟩ := he.exists_errno
  dsimp only
  rw [ensures_bind, ensures_discard]
  apply (remove_ensures hy (Function.update_self ..) hlx).mono
  case ho =>
    intro _ w ⟨_, hw, _, hsw⟩
    rw [Function.update_idem] at hw
    exact ⟨he, ⟨_, hw⟩, hsy.trans hsw⟩
  case he =>
    rintro e w ⟨rfl, rfl, _⟩
    exact ⟨by decide, ⟨_, hy⟩, hsy⟩

theorem detach_file_ensures (hv : v.Holds files) (hf : files d = some f) (hl : f.Lists es)
    (hfind : Entries.find es name = some (i, t)) (hg : files t = some g) (hdir : ¬g.isDir) :
    (detach d name).Ensures v
      (fun _ w => w.Holds (Function.update files d (some (f.withEntries (Entries.clear es i)))) ∧
        v.Recedes w) Never := by
  rw [detach, ensures_bind]
  apply (find_ensures hv hf hl).mono
  case he => exact fun e w ⟨_, _, hnone⟩ => by simp [hfind] at hnone
  intro p u ⟨hu, hp⟩
  subst hu
  obtain rfl := Option.some.inj (hfind.symm.trans hp)
  dsimp only
  rw [ensures_bind]
  apply (set_ensures hv hf hl.writes (Entries.find_eq_some hfind) _).mono_ok
  intro _ x ⟨hx, hsx⟩
  have hrx := hsx.recedes
  have ⟨g', hg', hd⟩ := exists_update hf hg (es.set i .free)
  rw [ensures_bind, ensures_query_ok (hx.isDir hg'), if_neg (hd ▸ hdir)]
  rw [ensures_bind]
  apply (trim_ensures hx (Function.update_self ..) (hl.set .free)).mono_ok
  intro _ w ⟨hw, hrw, _⟩
  rw [Function.update_idem] at hw
  exact ⟨hw, hrx.trans hrw⟩

theorem detach_dir_ensures (hv : v.Holds files) (hf : files d = some f) (hl : f.Lists es)
    (hfind : Entries.find es name = some (i, t)) (hg : files t = some g) (hgl : g.Lists gs)
    (hdir : g.isDir) (hne : t ≠ d) :
    (detach d name).Ensures v
      (fun _ w => ∃ gs', w.Holds (Function.update
        (Function.update files d (some (f.withEntries (Entries.clear es i)))) t
        (some (g.withEntries gs'))) ∧ v.Recedes w) Never := by
  rw [detach, ensures_bind]
  apply (find_ensures hv hf hl).mono
  case he => exact fun e w ⟨_, _, hnone⟩ => by simp [hfind] at hnone
  intro p u ⟨hu, hp⟩
  subst hu
  obtain rfl := Option.some.inj (hfind.symm.trans hp)
  dsimp only
  rw [ensures_bind]
  apply (set_ensures hv hf hl.writes (Entries.find_eq_some hfind) _).mono_ok
  intro _ x ⟨hx, hsx⟩
  have hrx := hsx.recedes
  have hgx : Function.update files d (some (f.withEntries (es.set i .free))) t = some g := by
    rw [Function.update_of_ne hne, hg]
  -- whatever becomes of the target, the directory is trimmed after it
  have hrest : ∀ y gs', y.Holds (Function.update
      (Function.update files d (some (f.withEntries (es.set i .free)))) t
      (some (g.withEntries gs'))) → x.Recedes y →
      (do trim d; return i).Ensures y
        (fun _ w => ∃ gs', w.Holds (Function.update
          (Function.update files d (some (f.withEntries (Entries.clear es i)))) t
          (some (g.withEntries gs'))) ∧ u.Recedes w) Never := by
    intro y gs' hy hry
    rw [ensures_bind]
    have hfy : Function.update (Function.update files d (some (f.withEntries (es.set i .free)))) t
        (some (g.withEntries gs')) d = some (f.withEntries (es.set i .free)) := by
      rw [Function.update_of_ne hne.symm, Function.update_self]
    apply (trim_ensures hy hfy (hl.set .free)).mono_ok
    intro _ w ⟨hw, hrw, _⟩
    refine ⟨gs', ?_, hrx.trans (hry.trans hrw)⟩
    rwa [Function.update_comm hne, Function.update_idem] at hw
  rw [ensures_bind, ensures_query_ok (hx.isDir hgx), if_pos hdir, ensures_bind, ensures_attempt]
  apply (remove_ensures hx hgx hgl).mono
  case ho => exact fun j y ⟨_, hy, hry, _⟩ => hrest y _ hy hry
  case he =>
    intro e y ⟨he, hy, _⟩
    subst he hy
    refine hrest y gs ?_ (.refl y)
    rwa [hgl.eq, ← hgx, Function.update_eq_self]

end Directory
end InodeVolume
