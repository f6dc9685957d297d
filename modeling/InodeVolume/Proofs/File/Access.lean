import InodeVolume.Proofs.File.Release

namespace InodeVolume

open VolumeM Volume

namespace Volume

structure Includes (v : Volume) (files : Nat → Option (List UInt8)) : Prop where
  consistent : v.Consistent
  heads      : ∀ h, v.Head h ↔ (files h).isSome
  content    : ∀ h bytes, files h = some bytes → ∃ l, v.Walks h l ∧ l.content v.byte = bytes

variable {v w : Volume} {h n : Nat} {l m : Chain} {bs js : List Nat}
variable {files : Nat → Option (List UInt8)} {bytes new : List UInt8}

theorem Consistent.exists_files (c : v.Consistent) : ∃ files, v.Includes files := by
  have : ∀ h, ∃ o : Option (List UInt8), (v.Head h ↔ o.isSome) ∧
      ∀ bytes, o = some bytes → ∃ l, v.Walks h l ∧ l.content v.byte = bytes := by
    intro h
    by_cases hh : v.Head h
    case pos =>
      have ⟨l, hl, _⟩ := c.exists_chain hh
      exact ⟨some (l.content v.byte), iff_of_true hh rfl, fun _ e => ⟨l, hl, Option.some.inj e⟩⟩
    case neg => exact ⟨none, iff_of_false hh nofun, nofun⟩
  choose files heads content using this
  exact ⟨files, c, heads, content⟩

namespace Includes

theorem head (hv : v.Includes files) (hf : files h = some bytes) : v.Head h :=
  (hv.heads h).mpr (hf ▸ rfl)

theorem exists_file (hv : v.Includes files) (hh : v.Head h) : ∃ bytes, files h = some bytes :=
  Option.isSome_iff_exists.mp ((hv.heads h).mp hh)

theorem exists_chain (hv : v.Includes files) (hf : files h = some bytes) :
    ∃ l, v.Walks h l ∧ v.Stands l ∧ l.content v.byte = bytes := by
  have ⟨l, hl, hb⟩ := hv.content h bytes hf
  have ⟨_, hx, hs⟩ := hv.consistent.exists_chain (hv.head hf)
  obtain rfl := hl.unique hx
  exact ⟨l, hl, hs, hb⟩

theorem fileSize (hv : v.Includes files) (hf : files h = some bytes) :
    v.fileSize h = .ok bytes.length := by
  have ⟨l, hl, _, hb⟩ := hv.exists_chain hf
  rw [hl.fileSize_eq, ← hb, Chain.length_content]

theorem length_le (hv : v.Includes files) (hf : files h = some bytes) :
    bytes.length ≤ inodeCount * inodeCapacity := by
  have ⟨l, hl, hs, hb⟩ := hv.exists_chain hf
  rw [← hb, Chain.length_content]
  exact Nat.le_trans (Chain.size_le hs.formed) (Nat.mul_le_mul_right _ hl.length_le)

theorem readWithin (hv : v.Includes files) (hf : files h = some bytes) (offset len : Nat) :
    v.readWithin h bytes.length offset len = .ok ((bytes.drop offset).take len) := by
  have ⟨l, hl, hs, hb⟩ := hv.exists_chain hf
  rw [← hb, Chain.length_content]
  exact hl.readWithin_eq hs.formed.laden hs.bounds offset len

theorem readFile (hv : v.Includes files) (hf : files h = some bytes) (offset len : Nat) :
    v.readFile h offset len = .ok ((bytes.drop offset).take len) := by
  rw [Volume.readFile, hv.fileSize hf]
  exact hv.readWithin hf offset len

theorem update (hv : v.Includes files) (hf : files h = some bytes) (c : w.Consistent)
    (heads : ∀ k, w.Head k ↔ v.Head k) (hw : w.Walks h m)
    (others : ∀ k ≠ h, ∀ x, v.Head k → v.Walks k x → v.Stands x →
      w.Walks k x ∧ x.content w.byte = x.content v.byte) :
    w.Includes (Function.update files h (some (m.content w.byte))) where
  consistent := c
  heads      := by
    intro k
    rw [heads, hv.heads, Function.update_apply]
    split
    case isTrue e  => simp [e, hf]
    case isFalse _ => rfl
  content    := by
    intro k b hb
    by_cases hk : k = h
    case pos =>
      subst hk
      rw [Function.update_self, Option.some.injEq] at hb
      exact ⟨m, hw, hb⟩
    case neg =>
      rw [Function.update_of_ne hk] at hb
      have ⟨x, hx, hs, hc⟩ := hv.exists_chain hb
      have ⟨hwx, hsame⟩ := others k hk x (hv.head hb) hx hs
      exact ⟨x, hwx, hsame.trans hc⟩

end Includes

theorem Gains.includes (t : v.Gains w h l m n bs js) (hv : v.Includes files)
    (hf : files h = some bytes) (hl : v.Walks h l) :
    ∃ new : List UInt8, new.length = n ∧ w.Includes (Function.update files h (some (bytes ++ new))) := by
  have ⟨_, hx, hs, hb⟩ := hv.exists_chain hf
  obtain rfl := hl.unique hx
  have hnew : m.content w.byte = bytes ++ (m.content w.byte).drop l.size := by
    rw [← hb, ← t.take_content hl hs, List.take_append_drop]
  refine ⟨(m.content w.byte).drop l.size, by simp [t.size], ?_⟩
  rw [← hnew]
  refine hv.update hf (hv.consistent.gains (hv.head hf) hl t) (fun _ => t.head_iff hl) t.walks ?_
  intro k hk x hkh hx hxs
  have hd := hv.consistent.apart h k l x (hv.head hf) hkh (Ne.symm hk) hl.chain_eq hx.chain_eq
  exact ⟨t.chain_congr hx hd.left, hxs.content_congr (Chain.length_blocks hx.leads hxs.formed) t.data⟩

theorem Loses.includes (t : v.Loses w h l m n bs js) (hv : v.Includes files)
    (hf : files h = some bytes) :
    w.Includes (Function.update files h (some (bytes.take (bytes.length - n)))) := by
  have ⟨_, hx, hs, hb⟩ := hv.exists_chain hf
  obtain rfl := t.back.walks.unique hx
  have hm := t.back.stands_back t.formed hs
  have htake : bytes.take (bytes.length - n) = m.content w.byte := by
    rw [← t.back.take_content t.walks hm, hb, ← hb, Chain.length_content, t.back.size,
      Nat.add_sub_cancel]
  rw [htake]
  refine hv.update hf (hv.consistent.loses (hv.head hf) t) (fun _ => t.head_iff) t.walks ?_
  intro k hk x hkh hx hxs
  have ⟨_, hy, hyw, _⟩ := t.others hv.consistent (hv.head hf) hkh hk
  obtain rfl := hx.unique hy
  exact ⟨hyw, hxs.content_congr (Chain.length_blocks hx.leads hxs.formed) fun a ha =>
    (t.back.data a ha).symm⟩

section

variable {byte : Nat → UInt8}

theorem Rewritten.walks (r : v.Rewritten w byte) (hl : v.Walks h l) : w.Walks h l :=
  hl.congr fun _ _ => congrFun r.links _

theorem Rewritten.head_iff (r : v.Rewritten w byte) {k : Nat} : w.Head k ↔ v.Head k := by
  rw [Head, Head, ← isSome_link?, ← isSome_link?, Continues, Continues, r.links]

theorem Rewritten.consistent (r : v.Rewritten w byte) (c : v.Consistent) (hh : v.Head h) :
    w.Consistent := by
  have stands : ∀ {l : Chain}, v.Stands l → w.Stands l :=
    fun s => ⟨s.formed, s.nodup, fun b hb => r.taken ▸ s.held b hb⟩
  have ⟨l, hl, hs⟩ := c.exists_chain hh
  refine c.rechain (fun b hb => r.taken ▸ c.reserved b hb) (r.walks hl) (stands hs) fun k hk hkh => ?_
  have hkh := r.head_iff.mp hkh
  have ⟨x, hx, hxs⟩ := c.exists_chain hkh
  exact ⟨hkh, x, hx, r.walks hx, stands hxs,
    c.apart h k l x hh hkh (Ne.symm hk) hl.chain_eq hx.chain_eq⟩

theorem Rewritten.includes (hv : v.Includes files) (hf : files h = some bytes) (hl : v.Walks h l)
    {offset : Nat} (hn : new.length = 0 ∨ offset + new.length ≤ l.size)
    (r : v.Rewritten w (assign v.byte ((List.range' offset new.length).map l.address) new)) :
    w.Includes (Function.update files h (some (overwrite bytes offset new))) := by
  have c := hv.consistent
  have hh := hv.head hf
  have ⟨_, hx, hs, hb⟩ := hv.exists_chain hf
  obtain rfl := hl.unique hx
  have hlen := Chain.length_blocks hl.leads hs.formed
  have hnew : overwrite bytes offset new = l.content w.byte := by
    rw [← hb, ← Chain.content_assign hlen hs.nodup hn, hs.content_congr hlen r.data]
  rw [hnew]
  refine hv.update hf (r.consistent c hh) (fun _ => r.head_iff) (r.walks hl) ?_
  intro k hk x hkh hx hxs
  have hxlen := Chain.length_blocks hx.leads hxs.formed
  have hd := c.apart h k l x hh hkh (Ne.symm hk) hl.chain_eq hx.chain_eq
  exact ⟨r.walks hx, (hxs.content_congr hxlen r.data).trans
    (Chain.content_assign_of_disjoint hlen hxlen hd.right hn _ _)⟩

end
end Volume

namespace File

variable {v : Volume} {h : Nat} {files : Nat → Option (List UInt8)} {bytes : List UInt8}

theorem write_includes (hv : v.Includes files) (hf : files h = some bytes) (offset : Nat)
    (data : List UInt8) :
    (write h offset data).Ensures v
      (fun n w => n = clip bytes.length offset data.length ∧
        w.Includes (Function.update files h (some (overwrite bytes offset (data.take n))))) Never := by
  have ⟨l, hl, hs, hb⟩ := hv.exists_chain hf
  have hsize : bytes.length = l.size := by rw [← hb, Chain.length_content]
  apply (write_rewrites hl hs.formed.laden hs.bounds offset data).mono_ok
  rintro n w ⟨hn, hin, r⟩
  exact ⟨hsize ▸ hn, Rewritten.includes hv hf hl hin r⟩

theorem grow_includes (hv : v.Includes files) (hf : files h = some bytes) {n : Nat}
    (hn : bytes.length + n < wordLimit) :
    (grow h n).Ensures v
      (fun g w => g.Provides v h bytes.length n ∧ ∃ new : List UInt8, new.length = g.grown ∧
        w.Includes (Function.update files h (some (bytes ++ new)))) Never := by
  have ⟨l, hl, hs, hb⟩ := hv.exists_chain hf
  have hsize : bytes.length = l.size := by rw [← hb, Chain.length_content]
  apply (grow_takes hv.consistent.reserved hl hs.formed (hsize ▸ hn)).mono_ok
  rintro g w ⟨k, last, c, m, bs, js, rfl, hr, t, _⟩
  exact ⟨hsize ▸ hr.provides (Chain.ends_concat hl.leads hs.formed) hl,
    (t.gains hl hs.formed).includes hv hf hl⟩

theorem shrink_includes (hv : v.Includes files) (hf : files h = some bytes) (n : Nat) :
    (shrink h n).Ensures v
      (fun _ w => w.Includes (Function.update files h (some (bytes.take (bytes.length - n))))) Never := by
  have ⟨l, hl, hs, hb⟩ := hv.exists_chain hf
  have hsize : bytes.length = l.size := by rw [← hb, Chain.length_content]
  apply (shrink_loses hl hs n).mono_ok
  rintro k w ⟨hk, m, bs, js, t, _⟩
  have := t.includes hv hf
  rwa [hk, ← hsize, show bytes.length - min n bytes.length = bytes.length - n by omega] at this

end File
end InodeVolume
