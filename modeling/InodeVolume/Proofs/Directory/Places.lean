import InodeVolume.Proofs.Directory.Entries

namespace InodeVolume

namespace Entries

variable {bytes new : List UInt8} {es fs : List Entry} {e : Entry} {i k n t u : Nat}
variable {name other : String}

@[simp]
theorem length_ofBytes (bytes : List UInt8) : (ofBytes bytes).length = bytes.length / entrySize := by
  simp [ofBytes]

theorem ofBytes_append (h : bytes.length = k * entrySize) (new : List UInt8) :
    ofBytes (bytes ++ new) = ofBytes bytes ++ ofBytes new := by
  rw [ofBytes, ofBytes, ofBytes, List.length_append, h, Nat.mul_comm, Nat.mul_add_div (by decide),
    Nat.mul_div_cancel_left _ (by decide), List.range_add, List.map_append, List.map_map]
  refine congrArg₂ (· ++ ·) (List.map_congr_left fun i hi => ?_) (List.map_congr_left fun i _ => ?_)
  case refine_1 =>
    have hi := List.mem_range.mp hi
    have hle : i * entrySize + entrySize ≤ bytes.length := by rw [h]; lia
    rw [List.drop_append_of_le_length (by omega), List.take_append_of_le_length]
    rw [List.length_drop]
    omega
  case refine_2 =>
    rw [Function.comp_apply, List.drop_append, List.drop_of_length_le (by rw [h]; lia), h,
      List.nil_append, Nat.add_mul, Nat.add_sub_cancel_left]

structure Reads (bytes : List UInt8) (es : List Entry) : Prop where
  length : bytes.length = es.length * entrySize
  eq     : ofBytes bytes = es

namespace Reads

theorem of_mod (h : bytes.length % entrySize = 0) : Reads bytes (ofBytes bytes) where
  length := by rw [length_ofBytes, Nat.div_mul_cancel (Nat.dvd_of_mod_eq_zero h)]
  eq     := rfl

theorem append (hb : Reads bytes es) (hn : Reads new fs) : Reads (bytes ++ new) (es ++ fs) where
  length := by rw [List.length_append, hb.length, hn.length, List.length_append, Nat.add_mul]
  eq     := by rw [ofBytes_append hb.length, hb.eq, hn.eq]

theorem single (h : new.length = entrySize) : Reads new [.ofBytes new] where
  length := by rw [h, List.length_singleton, Nat.one_mul]
  eq     := by
    rw [ofBytes, h, Nat.div_self (by decide), ← h]
    simp

theorem storable (h : e.Storable) : Reads e.bytes [e] := by
  have := single (Entry.length_bytes e)
  rwa [Entry.ofBytes_bytes h] at this

theorem split (hb : Reads bytes es) (hk : k ≤ es.length) :
    Reads (bytes.take (k * entrySize)) (es.take k) ∧ Reads (bytes.drop (k * entrySize)) (es.drop k) := by
  have hle : k * entrySize ≤ es.length * entrySize := Nat.mul_le_mul_right _ hk
  have htake : (bytes.take (k * entrySize)).length = k * entrySize := by
    rw [List.length_take, hb.length, Nat.min_eq_left hle]
  have hsplit := ofBytes_append htake (bytes.drop (k * entrySize))
  rw [List.take_append_drop, hb.eq] at hsplit
  have hlen : (ofBytes (bytes.take (k * entrySize))).length = k := by
    rw [length_ofBytes, htake, Nat.mul_div_cancel _ (by decide)]
  rw [hsplit]
  constructor
  case left =>
    rw [List.take_left' hlen]
    exact ⟨by rw [htake, hlen], rfl⟩
  case right =>
    rw [List.drop_left' hlen]
    refine ⟨?_, rfl⟩
    rw [length_ofBytes, List.length_drop, hb.length, ← Nat.sub_mul, Nat.mul_div_cancel _ (by decide)]

theorem set (hb : Reads bytes es) (hi : i < es.length) (he : e.Storable) :
    Reads (overwrite bytes (i * entrySize) e.bytes) (es.set i e) := by
  have hset : es.set i e = es.take i ++ [e] ++ es.drop (i + 1) := by
    rw [List.set_eq_take_append_cons_drop, if_pos hi, List.append_assoc, List.singleton_append]
  rw [hset, overwrite, Entry.length_bytes, ← Nat.succ_mul]
  exact ((hb.split (Nat.le_of_lt hi)).left.append (storable he)).append (hb.split hi).right

theorem getElem (hb : Reads bytes es) (hi : i < es.length) :
    es[i] = .ofBytes ((bytes.drop (i * entrySize)).take entrySize) := by
  have := hb.eq
  subst this
  simp [ofBytes]

end Reads

structure Orderly (es : List Entry) : Prop where
  distinct : ((used es).map (·.1)).Nodup
  tight    : Tight es

theorem place_le : place es ≤ es.length := by
  rcases place_cases es .free with ⟨fs, x, gs, hes, _, hp, _⟩ | ⟨_, hp, _⟩
  case inl =>
    rw [hp, hes]
    simp
  case inr => exact Nat.le_of_eq hp

theorem isFree_place (h : es[place es]? = some e) : e.isFree := by
  rcases place_cases es .free with ⟨fs, x, gs, hes, hx, hp, _⟩ | ⟨_, hp, _⟩
  case inl =>
    rw [hp, hes, List.getElem?_append_right (Nat.le_refl _), Nat.sub_self] at h
    exact Option.some.inj h ▸ hx
  case inr =>
    rw [hp, List.getElem?_eq_none (Nat.le_refl _)] at h
    contradiction

theorem not_isFree_of_lt_place (hk : k < place es) (he : es[k]? = some e) : ¬e.isFree := by
  rw [place] at hk
  cases h : es.findIdx? Entry.isFree
  case none => simpa using List.findIdx?_eq_none_iff.mp h e (List.mem_of_getElem? he)
  case some i =>
    rw [h, Option.getD_some] at hk
    obtain ⟨_, _, hlow⟩ := List.findIdx?_eq_some_iff_getElem.mp h
    obtain ⟨hlt, hek⟩ := List.getElem?_eq_some_iff.mp he
    exact hek ▸ hlow k hk

theorem getElem?_insert_place (es : List Entry) (e : Entry) : (insert es e)[place es]? = some e := by
  rcases place_cases es e with ⟨fs, x, gs, _, _, hp, hi⟩ | ⟨_, hp, hi⟩ <;> simp [hp, hi]

theorem used_set_place (es : List Entry) : used (es.set (place es) .free) = used es := by
  rcases place_cases es .free with ⟨fs, x, gs, hes, hx, hp, _⟩ | ⟨_, hp, _⟩
  case inl =>
    have hset : es.set (place es) .free = fs ++ .free :: gs := by rw [hp, hes]; simp
    rw [hset, hes, used_append, used_append, used_cons, used_cons, Entry.isFree_iff.mp hx]
    rfl
  case inr => rw [hp, List.set_eq_of_length_le (Nat.le_refl _)]

theorem clear_insert (h : Tight es) (e : Entry) :
    clear (insert es e) (place es) = es.set (place es) .free := by
  rcases place_cases es e with ⟨fs, x, gs, hes, hx, hp, hi⟩ | ⟨_, hp, hi⟩
  case inl =>
    have hset : (fs ++ e :: gs).set fs.length .free = es.set (place es) .free := by rw [hp, hes]; simp
    rw [clear, hi, hp, hset, ← hp]
    refine rdropWhile_of_tight fun y hy => h y ?_
    have hgs : gs ≠ [] := by
      rintro rfl
      exact h x (by simp [hes]) hx
    rw [hp, hes] at hy
    rw [hes]
    simpa [List.getLast?_append, List.getLast?_cons, List.getLast?_eq_some_getLast hgs] using hy
  case inr =>
    rw [clear, hi, hp, List.set_append_right _ _ (Nat.le_refl _), Nat.sub_self, List.set_cons_zero,
      List.rdropWhile_concat_pos _ _ _ rfl, rdropWhile_of_tight h, List.set_eq_of_length_le (Nat.le_refl _)]

theorem clear_append (es : List Entry) (i : Nat) :
    ∃ gs, es.set i .free = clear es i ++ gs ∧ ∀ e ∈ gs, e.isFree :=
  ⟨_, (List.rdropWhile_append_rtakeWhile (p := Entry.isFree)).symm, fun _ => List.mem_rtakeWhile_imp⟩

theorem length_clear_le (es : List Entry) (i : Nat) : (clear es i).length ≤ es.length := by
  have ⟨gs, hgs, _⟩ := clear_append es i
  have := congrArg List.length hgs
  rw [List.length_set, List.length_append] at this
  omega

theorem getElem?_clear_of_ne (hk : k < (clear es i).length) (hne : k ≠ i) :
    (clear es i)[k]? = es[k]? := by
  have ⟨gs, hgs, _⟩ := clear_append es i
  have hset : (es.set i .free)[k]? = es[k]? := List.getElem?_set_ne hne.symm
  rw [← hset, hgs, List.getElem?_append_left hk]

theorem Orderly.insert (h : Orderly es) (ha : ∀ u, (name, u) ∉ used es) (t : Nat) :
    Orderly (insert es ⟨name, some t⟩) where
  tight    := tight_insert h.tight (by simp [Entry.isFree])
  distinct := by
    rw [((used_insert rfl).map _).nodup_iff, List.map_cons, List.nodup_cons]
    refine ⟨fun hm => ?_, h.distinct⟩
    obtain ⟨⟨n, u⟩, hu, rfl⟩ := List.mem_map.mp hm
    exact ha u hu

theorem Orderly.clear (h : Orderly es) (hi : es[i]? = some ⟨name, some u⟩) : Orderly (clear es i) where
  tight    := tight_clear es i
  distinct := by
    have := h.distinct
    rw [((used_clear hi rfl).map _).nodup_iff, List.map_cons, List.nodup_cons] at this
    exact this.right

theorem find_of_getElem? (hn : ((used es).map (·.1)).Nodup) (hi : es[i]? = some ⟨name, some t⟩) :
    find es name = some (i, t) := by
  obtain ⟨j, hj⟩ := find_of_mem hn (mem_used.mpr (List.mem_of_getElem? hi))
  rw [hj]
  by_contra hne
  have hji : j ≠ i := fun e => hne (e ▸ rfl)
  have hmem : (name, t) ∈ used (es.eraseIdx i) :=
    mem_used.mpr (List.mem_eraseIdx_iff_getElem?.mpr ⟨j, hji, find_eq_some hj⟩)
  rw [((used_perm hi).map _).nodup_iff] at hn
  exact (List.nodup_cons.mp hn).left (List.mem_map_of_mem hmem)

theorem map_find_eq (hf : ((used fs).map (·.1)).Nodup)
    (h : ∀ u, (name, u) ∈ used es ↔ (name, u) ∈ used fs) :
    (find es name).map (·.2) = (find fs name).map (·.2) := by
  cases hx : find es name
  case none => rw [find_eq_none.mpr fun u hu => find_eq_none.mp hx u ((h u).mpr hu)]
  case some p =>
    have ⟨j, hj⟩ := find_of_mem hf ((h p.2).mp (mem_used_of_find hx))
    rw [hj]
    rfl

theorem getElem?_place_ne : es[place es]? ≠ some ⟨other, some u⟩ := by
  intro h
  simpa [Entry.isFree] using isFree_place h

theorem getElem?_insert_iff : (insert es ⟨name, some t⟩)[k]? = some ⟨other, some u⟩ ↔
    (k = place es ∧ other = name ∧ u = t) ∨ es[k]? = some ⟨other, some u⟩ := by
  by_cases hk : k = place es
  case pos =>
    rw [hk, getElem?_insert_place, or_iff_left getElem?_place_ne]
    simp [eq_comm]
  case neg => rw [getElem?_insert_of_ne _ hk, or_iff_right fun h => hk h.left]

theorem getElem?_clear_iff :
    (clear es i)[k]? = some ⟨other, some u⟩ ↔ es[k]? = some ⟨other, some u⟩ ∧ k ≠ i := by
  constructor
  case mp =>
    intro h
    have ⟨hlt, _⟩ := List.getElem?_eq_some_iff.mp h
    have hne : k ≠ i := by
      rintro rfl
      have ⟨gs, hgs, _⟩ := clear_append es k
      have hset : (es.set k .free)[k]? = some ⟨other, some u⟩ := by
        rw [hgs, List.getElem?_append_left hlt, h]
      rw [List.getElem?_set] at hset
      split at hset
      case isTrue  => simp [Entry.free] at hset
      case isFalse => contradiction
    exact ⟨getElem?_clear_of_ne hlt hne ▸ h, hne⟩
  case mpr =>
    rintro ⟨h, hne⟩
    exact getElem?_clear h (by simp [Entry.isFree]) hne.symm

theorem getElem?_set_iff (hi : es[i]? = some e) : (es.set i ⟨name, some t⟩)[k]? = some ⟨other, some u⟩ ↔
    (k = i ∧ other = name ∧ u = t) ∨ es[k]? = some ⟨other, some u⟩ ∧ k ≠ i := by
  have ⟨hlt, _⟩ := List.getElem?_eq_some_iff.mp hi
  by_cases hk : k = i
  case pos => simp [hk, List.getElem?_set_self hlt, eq_comm]
  case neg => simp [hk, List.getElem?_set_ne (Ne.symm hk)]

end Entries
end InodeVolume
