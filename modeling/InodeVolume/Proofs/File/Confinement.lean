import InodeVolume.Proofs.File.Lifetime

namespace InodeVolume

open VolumeM Volume

namespace Volume

variable {u v w : Volume} {chains chains' : Nat → Chain} {s s' : Set Nat} {h k d t : Nat}
variable {files : Nat → Option FileState} {l m : Chain} {c : Inode}

theorem chains_unique (hs : Sound v.link? v.blockTaken chains)
    (hs' : Sound v.link? v.blockTaken chains') : chains = chains' := by
  funext h
  by_cases hc : chains h = []
  case pos =>
    have : ¬v.Head h := fun hh => hs.head_iff.mp hh hc
    rw [hs'.head_iff, not_not] at this
    rw [hc, this]
  case neg =>
    have hc' := hs'.head_iff.mp (hs.head_iff.mpr hc)
    exact Except.ok.inj ((chain_eq hs hc).symm.trans (chain_eq hs' hc'))

-- Only these files have another chain than before. They may have come or gone.
def Touches (v w : Volume) (s : Set Nat) : Prop :=
  ∃ chains chains', Sound v.link? v.blockTaken chains ∧ Sound w.link? w.blockTaken chains' ∧
    ∀ k ∉ s, chains' k = chains k

def Keeps (w : Volume) (s : Set Nat) (chains : Nat → Chain) : Prop :=
  ∃ chains', Sound w.link? w.blockTaken chains' ∧ (∀ k ∉ s, chains' k = chains k) ∧
    ∀ d ∈ s, chains' d ≠ []

theorem Reshaped.touches (r : v.Reshaped w chains h l) (hs : Sound v.link? v.blockTaken chains) :
    v.Touches w {h} :=
  ⟨_, _, hs, r.sound, fun _ hk => Function.update_of_ne hk ..⟩

theorem Holds.of_chain {f : FileState} (hv : v.Holds files) (hf : files h = some f)
    (hl : v.chain h = .ok l) : l.Formed ∧ l.size = f.bytes.length := by
  have ⟨chains, hs, _, c, k, hk, _, _, hb⟩ := hv.exists_chain hf
  obtain rfl := Except.ok.inj ((chain_eq hs (h := h) (by simp [hk])).symm.trans hl)
  exact ⟨hs.formed h, by rw [← hb, Chain.length_content]⟩

namespace Touches

theorem trans (h₁ : v.Touches u s) (h₂ : u.Touches w s) : v.Touches w s := by
  have ⟨chains, mid, hs, hm, hk⟩ := h₁
  have ⟨mid', chains', hm', hs', hk'⟩ := h₂
  obtain rfl := chains_unique hm hm'
  exact ⟨chains, chains', hs, hs', fun k h => (hk' k h).trans (hk k h)⟩

theorem mono (ht : v.Touches w s) (hs : s ⊆ s') : v.Touches w s' :=
  have ⟨chains, chains', hv, hw, hk⟩ := ht
  ⟨chains, chains', hv, hw, fun k h => hk k (mt (@hs k) h)⟩

theorem chain (ht : v.Touches w s) (hk : k ∉ s) (hh : v.Head k) : w.chain k = v.chain k := by
  have ⟨_, _, hv, hw, hsame⟩ := ht
  have hne := hv.head_iff.mp hh
  rw [chain_eq hv hne, chain_eq hw (hsame k hk ▸ hne), hsame k hk]

end Touches

theorem sum_update (cost : Chain → Nat) (chains : Nat → Chain) (hh : h < inodeCount) (m : Chain) :
    ∑ k ∈ Finset.range inodeCount, cost (Function.update chains h m k) + cost (chains h) =
      ∑ k ∈ Finset.range inodeCount, cost (chains k) + cost m := by
  have hm := Finset.mem_range.mpr hh
  rw [← Finset.add_sum_erase _ _ hm, ← Finset.add_sum_erase _ _ hm, Function.update_self]
  have hrest : ∀ k ∈ (Finset.range inodeCount).erase h,
      cost (Function.update chains h m k) = cost (chains k) := by
    intro k hk
    rw [Function.update_of_ne (Finset.ne_of_mem_erase hk)]
  rw [Finset.sum_congr rfl hrest]
  omega

theorem eq_update_two (hk : ∀ k ∉ ({d, t} : Set Nat), chains' k = chains k) :
    chains' = Function.update (Function.update chains d (chains' d)) t (chains' t) := by
  funext k
  rw [Function.update_apply, Function.update_apply]
  split
  case isTrue hkt => rw [hkt]
  case isFalse hkt =>
    split
    case isTrue hkd  => rw [hkd]
    case isFalse hkd => exact hk k (by simp [hkd, hkt])

theorem sum_two (cost : Chain → Nat) (hk : ∀ k ∉ ({d, t} : Set Nat), chains' k = chains k)
    (hne : d ≠ t) (hd : d < inodeCount) (ht : t < inodeCount) :
    ∑ k ∈ Finset.range inodeCount, cost (chains' k) + cost (chains d) + cost (chains t) =
      ∑ k ∈ Finset.range inodeCount, cost (chains k) + cost (chains' d) + cost (chains' t) := by
  have h₁ := sum_update cost chains hd (chains' d)
  have h₂ := sum_update cost (Function.update chains d (chains' d)) ht (chains' t)
  rw [← eq_update_two hk, Function.update_of_ne hne.symm] at h₂
  omega

end Volume

namespace Sound

variable {v w : Volume} {chains chains' : Nat → Chain} {d t : Nat}

theorem sum_heads_eq (hs : Sound v.link? v.blockTaken chains) (cost : Chain → Nat) (h0 : cost [] = 0) :
    ∑ h ∈ v.heads, cost (chains h) = ∑ k ∈ Finset.range inodeCount, cost (chains k) := by
  rw [heads, Finset.sum_filter]
  refine Finset.sum_congr rfl fun h _ => ?_
  split
  case isTrue  => rfl
  case isFalse hh =>
    rw [hs.head_iff, not_not] at hh
    rw [hh, h0]

theorem free_two (hs : Sound v.link? v.blockTaken chains) (hs' : Sound w.link? w.blockTaken chains')
    (hk : ∀ k ∉ ({d, t} : Set Nat), chains' k = chains k) (hne : d ≠ t) (hd : d < inodeCount)
    (ht : t < inodeCount) :
    w.freeBlocks + blocksFor (chains' d).size + blocksFor (chains' t).size =
      v.freeBlocks + blocksFor (chains d).size + blocksFor (chains t).size ∧
    w.freeInodes + (chains' d).length + (chains' t).length =
      v.freeInodes + (chains d).length + (chains t).length := by
  constructor
  case left =>
    have hv := hs.freeBlocks_add
    have hw := hs'.freeBlocks_add
    rw [hs.sum_heads_eq (fun l => blocksFor l.size) rfl] at hv
    rw [hs'.sum_heads_eq (fun l => blocksFor l.size) rfl] at hw
    have := sum_two (fun l => blocksFor l.size) hk hne hd ht
    omega
  case right =>
    have hv := hs.freeInodes_add
    have hw := hs'.freeInodes_add
    simp only [Chain.numbers, List.length_map] at hv hw
    rw [hs.sum_heads_eq List.length rfl] at hv
    rw [hs'.sum_heads_eq List.length rfl] at hw
    have := sum_two List.length hk hne hd ht
    omega

end Sound

namespace VolumeM

variable {α β : Type} {s s' : Set Nat} {act : VolumeM α} {v : Volume}
variable {files : Nat → Option FileState}

-- An action that leaves all chains as they are, but for those of some files. These files stay.
def Confined (s : Set Nat) (act : VolumeM α) : Prop :=
  ∀ v chains, Sound v.link? v.blockTaken chains → (∀ d ∈ s, chains d ≠ []) →
    act.Ensures v (fun _ w => w.Keeps s chains) fun _ w => w.Keeps s chains

namespace Confined

theorem pure (a : α) : Confined s (pure a) :=
  fun _ chains hs hd => ⟨chains, hs, fun _ _ => rfl, hd⟩

theorem refuse (e : Errno) : Confined s (refuse e : VolumeM α) :=
  fun _ chains hs hd => ⟨chains, hs, fun _ _ => rfl, hd⟩

theorem query (look : Volume → Except Fault α) : Confined s (query look) := by
  intro v chains hs hd
  have h : v.Keeps s chains := ⟨chains, hs, fun _ _ => rfl, hd⟩
  exact (query_ensures look v).mono (fun _ _ e => e ▸ h) fun _ _ e => e ▸ h

theorem bind {f : α → VolumeM β} (h : Confined s act) (hf : ∀ a, Confined s (f a)) :
    Confined s (act >>= f) := by
  intro v chains hs hd
  rw [ensures_bind]
  apply (h v chains hs hd).mono_ok
  rintro a u ⟨mid, hm, hk, hd⟩
  have keeps : ∀ w : Volume, w.Keeps s mid → w.Keeps s chains :=
    fun w ⟨chains', hs', hk', hd'⟩ => ⟨chains', hs', fun k h => (hk' k h).trans (hk k h), hd'⟩
  exact (hf a u mid hm hd).mono (fun _ => keeps) fun _ => keeps

theorem refuse_bind (e : Errno) (f : α → VolumeM β) : Confined s (VolumeM.refuse e >>= f) :=
  fun _ chains hs hd => ⟨chains, hs, fun _ _ => rfl, hd⟩

theorem crash_bind (f : α → VolumeM β) : Confined s (VolumeM.crash >>= f) :=
  fun _ chains hs hd => ⟨chains, hs, fun _ _ => rfl, hd⟩

theorem seqRight {next : VolumeM β} (h : Confined s act) (hn : Confined s next) :
    Confined s (act *> next) :=
  seqRight_eq_bind act next ▸ h.bind fun _ => hn

theorem discard (h : Confined s act) : Confined s (discard act) :=
  fun v chains hs hd => ensures_discard.mpr (h v chains hs hd)

theorem attempt (h : Confined s act) : Confined s (attempt act) := by
  intro v chains hs hd
  rw [ensures_attempt]
  refine (h v chains hs hd).mono (fun _ _ => id) fun e w hw => ?_
  cases e <;> exact hw

theorem mono (h : Confined s act) (hss : s ⊆ s') : Confined s' act := by
  intro v chains hs hd
  have keeps : ∀ w : Volume, w.Keeps s chains → w.Keeps s' chains := by
    intro w ⟨chains', hs', hk, hd'⟩
    refine ⟨chains', hs', fun k hk' => hk k (mt (@hss k) hk'), fun d hds => ?_⟩
    by_cases hdin : d ∈ s
    case pos => exact hd' d hdin
    case neg => exact hk d hdin ▸ hd d hds
  exact (h v chains hs fun d hds => hd d (hss hds)).mono (fun _ => keeps) fun _ => keeps

theorem touches (h : Confined s act) (hv : v.Holds files) (hd : ∀ d ∈ s, v.Head d) :
    act.Ensures v (fun _ w => v.Touches w s) fun _ w => v.Touches w s := by
  have ⟨chains, hs, _⟩ := hv
  have touches : ∀ w : Volume, w.Keeps s chains → v.Touches w s :=
    fun w ⟨chains', hs', hk, _⟩ => ⟨chains, chains', hs, hs', hk⟩
  exact (h v chains hs fun d hds => hs.head_iff.mp (hd d hds)).mono (fun _ => touches) fun _ => touches

end Confined
end VolumeM

namespace File

variable {v : Volume} {chains : Nat → Chain} {files : Nat → Option FileState} {h : Nat}
variable {f : FileState} {c : Inode} {m : Chain}

theorem keeps_of_reshaped {w : Volume} (r : v.Reshaped w chains h m) (hm : m ≠ []) :
    w.Keeps {h} chains := by
  refine ⟨_, r.sound, fun _ hk => Function.update_of_ne hk .., ?_⟩
  rintro _ rfl
  rwa [Function.update_self]

theorem write_confined (h offset : Nat) (data : List UInt8) : Confined {h} (write h offset data) := by
  intro v chains hs hd
  have ⟨f, hf⟩ : ∃ f, (chains h).file v.byte = some f :=
    Option.ne_none_iff_exists'.mp (mt Chain.file_eq_none.mp (hd h rfl))
  apply (write_ensures ⟨chains, hs, fun _ => rfl⟩ hf data).mono_never
  exact fun _ w ⟨_, _, hl, ht⟩ => ⟨chains, hl ▸ ht ▸ hs, fun _ _ => rfl, hd⟩

theorem grow_confined (h n : Nat) : Confined {h} (grow h n) := by
  intro v chains hs hd
  have hne := hd h rfl
  apply (grow_chain_ensures hs hne n).mono
  case ho =>
    rintro g w ⟨_, _, m, hm, r, _⟩
    refine keeps_of_reshaped r fun e => ?_
    have ⟨_, _, hl⟩ := List.exists_cons_of_ne_nil hne
    have := hm.head
    simp [e, hl] at this
  case he =>
    rintro e w ⟨_, rfl, _⟩
    exact ⟨chains, hs, fun _ _ => rfl, hd⟩

theorem shrink_confined (h n : Nat) : Confined {h} (shrink h n) := by
  intro v chains hs hd
  have hne := hd h rfl
  apply (shrink_chain_ensures hs hne n).mono_never
  rintro k w ⟨_, m, hm, r, _⟩
  refine keeps_of_reshaped r fun e => ?_
  have ⟨_, _, hl⟩ := List.exists_cons_of_ne_nil hne
  have := hm.head
  simp [e, hl] at this

theorem alloc_touches (hv : v.Holds files) :
    Inode.alloc.Ensures v (fun i w => v.Touches w {i}) fun _ w => w = v := by
  have ⟨chains, hs, _⟩ := hv
  apply (Inode.alloc_ensures v).mono
  case ho =>
    intro i w ⟨_, hi, _, r⟩
    exact (r.reshaped (hs.create hi .default rfl Inode.owned_default)).touches hs
  case he => exact fun _ _ ⟨_, hw, _⟩ => hw

theorem delete_touches (hv : v.Holds files) (hf : files h = some f) :
    (delete h).Ensures v (fun _ w => v.Touches w {h}) Never := by
  have ⟨chains, hs, _, c, l, hl, _⟩ := hv.exists_chain hf
  exact (delete_chain_ensures hs (by simp [hl])).mono_ok fun _ w ⟨r, _⟩ => r.touches hs

theorem put_touches (hv : v.Holds files) (hf : files h = some f) (hc : v.inode h = .ok c)
    {refs : Nat} (mode : UInt32) (hr : refs < 0x80000000) :
    (Inode.put h { c with refs, mode }).Ensures v
      (fun _ w => v.Touches w {h} ∧ ∃ l, v.chain h = .ok ((h, c) :: l) ∧
        w.chain h = .ok ((h, { c with refs, mode }) :: l)) Never := by
  have ⟨chains, hs, _, d, l, hl, _⟩ := hv.exists_chain hf
  have hlink := inode_of_link? (hs.link_of_eq (l := []) hl)
  obtain rfl := Except.ok.inj (hc.symm.trans hlink)
  apply (put_chain_ensures hs hl mode hr).mono_ok
  intro _ w ⟨r, _⟩
  refine ⟨r.touches hs, l, ?_, ?_⟩
  case refine_1 => rw [chain_eq hs (by simp [hl]), hl]
  case refine_2 => rw [chain_eq r.sound (by simp), Function.update_self]

end File
end InodeVolume
