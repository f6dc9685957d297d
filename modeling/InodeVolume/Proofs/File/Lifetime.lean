import InodeVolume.Proofs.File.Shrinkage

namespace InodeVolume.File

open VolumeM Volume

variable {v : Volume} {files : Nat → Option FileState} {h : Nat} {f : FileState}

theorem alloc_ensures (hv : v.Holds files) :
    Inode.alloc.Ensures v
      (fun i w => i < inodeCount ∧ v.link? i = none ∧ files i = none ∧
        w.Holds (Function.update files i (some ⟨0, Mode.fresh, []⟩)) ∧
        (∀ j < i, (v.link? j).isSome) ∧ (∀ j ≠ i, w.link? j = v.link? j) ∧
        ∀ k, w.Trails k ↔ v.Trails k)
      (fun e w => e = .errno .noSpace ∧ w = v ∧ ∀ j < inodeCount, (v.link? j).isSome) := by
  have ⟨chains, hs, hc⟩ := hv
  apply (Inode.alloc_ensures v).mono_ok
  intro i w ⟨hlt, hi, hleast, r⟩
  have hs' := hs.create hi .default rfl Inode.owned_default
  have hr := r.reshaped hs'
  refine ⟨hlt, hi, ?_, hr.holds hc, hleast, fun j hj => ?_, fun k => ?_⟩
  case refine_1 =>
    by_contra hf
    have ⟨f, hf⟩ := Option.ne_none_iff_exists'.mp hf
    simpa [hi] using hv.link?_isSome hf
  case refine_2 => rw [r.links, Function.update_of_ne hj]
  case refine_3 =>
    by_cases hk : k = i
    case neg => exact hr.spares hs k hk
    case pos =>
      subst hk
      refine iff_of_false (fun ht => Chain.not_trails_singleton (hr.trails_iff.mp ht)) fun ht => ?_
      have ⟨_, hl⟩ := Option.isSome_iff_exists.mp (isSome_link? ▸ ht.left.left)
      simp [hi] at hl

variable {chains : Nat → Chain} {l : Chain} {c : Inode}

theorem put_chain_ensures (hs : Sound v.link? v.blockTaken chains) (hc : chains h = (h, c) :: l)
    {refs : Nat} (mode : UInt32) (hr : refs < 0x80000000) :
    (Inode.put h { c with refs, mode }).Ensures v
      (fun _ w => v.Reshaped w chains h ((h, { c with refs, mode }) :: l) ∧ v.Recedes w ∧
        ∀ k, w.Trails k ↔ v.Trails k) Never := by
  have hlink := hs.link_of_eq (l := []) hc
  have hst := storable_of_link? hlink
  have hw := (hs.formed_of_eq (l := []) hc).right.left
  have hst' : Inode.Storable { c with refs, mode } := ⟨hr, hst.size, hst.blocks, hst.next⟩
  apply (Inode.put_ensures (by rw [hlink]; rfl) hst').mono_ok
  intro _ w r
  have hw' : Inode.WellFormed { c with refs, mode } := ⟨hw.bounded, hw.filled, hw.packed⟩
  have hr := r.reshaped (hs.revise (l := []) hc hw' rfl rfl)
  refine ⟨hr, fun i d hd => ?recedes, fun k => ?trails⟩
  case recedes =>
    rw [r.links] at hd
    by_cases hi : i = h
    case pos =>
      subst hi
      rw [Function.update_self, Option.some.injEq] at hd
      exact ⟨c, hlink, .inr (hd ▸ rfl)⟩
    case neg =>
      rw [Function.update_of_ne hi] at hd
      exact ⟨d, hd, .inr rfl⟩
  case trails =>
    by_cases hk : k = h
    case pos => rw [hk, hr.trails_iff, hs.trails_iff, hc]; exact Chain.trails_cons_congr
    case neg => exact hr.spares hs k hk

theorem exists_inode (hv : v.Holds files) (hf : files h = some f) :
    ∃ c, v.inode h = .ok c ∧ c.refs = f.refs ∧ c.mode = f.mode ∧
      ∀ refs mode, refs < 0x80000000 → (Inode.put h { c with refs, mode }).Ensures v
        (fun _ w => w.Holds (Function.update files h (some { f with refs, mode })) ∧ v.Recedes w ∧
          ∀ k, w.Trails k ↔ v.Trails k) Never := by
  have ⟨chains, hs, hc, c, l, hl, hr, hm, hb⟩ := hv.exists_chain hf
  refine ⟨c, inode_of_link? (hs.link_of_eq (l := []) hl), hr, hm, fun refs mode hlt => ?_⟩
  apply (put_chain_ensures hs hl mode hlt).mono_ok
  intro _ w ⟨hx, hrec⟩
  have hfile : Chain.file ((h, { c with refs, mode }) :: l) v.byte = some { f with refs, mode } := by
    rw [← hb, hl]
    rfl
  exact ⟨hfile ▸ hx.holds hc, hrec⟩

theorem delete_chain_ensures (hs : Sound v.link? v.blockTaken chains) (hc : chains h ≠ []) :
    (delete h).Ensures v (fun _ w => v.Reshaped w chains h [] ∧ v.Recedes w) Never := by
  rw [delete, ensures_bind, ensures_query_ok (fileSize_eq hs hc), ensures_bind, ensures_discard]
  apply (shrink_chain_ensures hs hc _).mono_ok
  rintro _ u ⟨-, m, hm, hr, -⟩
  have hsize : m.size = 0 := by rw [hm.size, Nat.sub_self]
  have hu := Function.update_self h m chains
  cases m
  case nil =>
    have ⟨_, _, hl⟩ := List.exists_cons_of_ne_nil hc
    have := hm.head
    simp [hl] at this
  case cons a k =>
    obtain ⟨i, d⟩ := a
    have ⟨hi, hk⟩ := hu ▸ hr.sound.leads h (by rw [hu]; simp)
    obtain rfl := Option.some.inj hi
    have hw : d.WellFormed := (hu ▸ hr.sound.formed h) _ List.mem_cons_self
    have hd : d.size = 0 := by rw [Chain.size_cons] at hsize; omega
    have hn : d.next = none := by
      by_contra hn
      have := hw.packed (Option.isSome_iff_ne_none.mpr hn)
      lia
    obtain rfl := Chain.Leads.eq_nil (hn ▸ hk)
    have hlink := hr.sound.link_of_eq (l := []) hu
    apply (Inode.free_ensures hlink (Inode.isEmpty_of_size hw hd hn)).mono_ok
    intro _ w r
    refine ⟨hr.trans (r.reshaped (hr.sound.delete hu (owned_of_size hd))), (hr.recedes hs hm).trans ?_⟩
    intro j c hj
    rw [r.links] at hj
    by_cases hji : j = h
    case pos => simp [hji] at hj
    case neg =>
      rw [Function.update_of_ne hji] at hj
      exact ⟨c, hj, .inr rfl⟩

theorem delete_ensures (hv : v.Holds files) (hf : files h = some f) :
    (delete h).Ensures v
      (fun _ w => w.Holds (Function.update files h none) ∧ v.Recedes w ∧ v.Spares w h ∧ ¬w.Trails h)
      Never := by
  have ⟨chains, hs, hc, c, l, hl, _⟩ := hv.exists_chain hf
  apply (delete_chain_ensures hs (by simp [hl])).mono_ok
  intro _ w ⟨hr, hrec⟩
  exact ⟨hr.holds hc, hrec, hr.spares hs, fun ht => (hr.trails_iff.mp ht).ne_nil rfl⟩

end InodeVolume.File
