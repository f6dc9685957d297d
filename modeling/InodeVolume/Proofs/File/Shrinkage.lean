import InodeVolume.Proofs.File.Growth

namespace InodeVolume

open VolumeM Volume

structure Chain.Shrunk (l m : Chain) (n : Nat) : Prop where
  size   : m.size = l.size - n
  blocks : m.blocks <+: l.blocks
  head   : m.head?.map (fun a => (a.2.refs, a.2.mode)) = l.head?.map fun a => (a.2.refs, a.2.mode)
  links  : ∀ i c, (i, c) ∈ m → ∃ d, (i, d) ∈ l ∧ (c.next = none ∨ c.next = d.next)

namespace Chain.Shrunk

variable {l m k : Chain} {i n j : Nat} {c d : Inode}

theorem refl (l : Chain) : Shrunk l l 0 where
  size   := rfl
  blocks := List.prefix_rfl
  head   := rfl
  links  := fun _ c hm => ⟨c, hm, .inr rfl⟩

theorem trans (h₁ : Shrunk l m n) (h₂ : Shrunk m k j) : Shrunk l k (n + j) where
  size   := by rw [h₂.size, h₁.size, Nat.sub_sub]
  blocks := h₂.blocks.trans h₁.blocks
  head   := h₂.head.trans h₁.head
  links  := by
    intro i c hc
    have ⟨d, hd, hn⟩ := h₂.links i c hc
    have ⟨e, he, hm⟩ := h₁.links i d hd
    refine ⟨e, he, ?_⟩
    cases hn
    case inl hn => exact .inl hn
    case inr hn => rwa [hn]

theorem last (hr : d.refs = c.refs) (hm : d.mode = c.mode) (hs : d.size = c.size + k.size - n)
    (hle : n ≤ c.size + k.size) (hb : d.owned <+: c.owned ++ k.blocks) (hn : d.next = none) :
    Shrunk (l ++ (i, c) :: k) (l ++ [(i, d)]) n where
  size   := by simp; omega
  blocks := by simpa using hb
  head   := by cases l <;> simp [hr, hm]
  links  := by
    intro j x hx
    cases List.mem_append.mp hx
    case inl hx => exact ⟨x, List.mem_append_left _ hx, .inr rfl⟩
    case inr hx =>
      simp only [List.mem_singleton, Prod.mk.injEq] at hx
      exact ⟨c, by simp [hx.left], .inl (hx.right ▸ hn)⟩

theorem file {byte : Nat → UInt8} {f : FileState} (h : Shrunk l m n) (hf : l.file byte = some f)
    (hl : m.blocks.length = blocksFor m.size) :
    m.file byte = some { f with bytes := f.bytes.take (f.bytes.length - n) } := by
  have hc : m.content byte = (l.content byte).take (l.size - n) := by
    rw [content_eq_take h.blocks hl (h.size ▸ Nat.sub_le ..), h.size]
  obtain ⟨a, ha, hfa⟩ := Option.map_eq_some_iff.mp hf
  obtain ⟨b, hm, hab⟩ := Option.map_eq_some_iff.mp (h.head.trans (congrArg _ ha))
  obtain ⟨hr, hmode⟩ := Prod.mk.inj hab
  rw [Chain.file, hm, Option.map_some, hc, hr, hmode, ← hfa, length_content]

end Chain.Shrunk

theorem Volume.Reshaped.recedes {v w : Volume} {chains : Nat → Chain} {h n : Nat} {m : Chain}
    (hr : v.Reshaped w chains h m) (hs : Sound v.link? v.blockTaken chains)
    (hm : (chains h).Shrunk m n) : v.Recedes w := by
  intro i c hc
  have ⟨k, hk⟩ := (hr.sound.links i c).mp hc
  by_cases hkh : k = h
  case pos =>
    subst hkh
    rw [Function.update_self] at hk
    have ⟨d, hd, hn⟩ := hm.links i c hk
    exact ⟨d, hs.link hd, hn⟩
  case neg =>
    rw [Function.update_of_ne hkh] at hk
    exact ⟨c, hs.link hk, .inr rfl⟩

namespace File

variable {v w : Volume} {chains : Nat → Chain} {h : Nat} {l : Chain} {last : Nat} {inode : Inode}

theorem owned_of_size {c : Inode} (hz : c.size = 0) : c.owned = [] := by
  rw [← List.length_eq_zero_iff, Inode.length_owned, Inode.usedBlocks, hz, blocksFor_zero]

theorem cutLink_ensures (hs : Sound v.link? v.blockTaken chains) {link : Link}
    (hc : chains h = l ++ [link, (last, inode)]) (hn : inode.next = none) (hz : inode.size = 0) :
    (cutLink link last).Ensures v
      (fun _ w => v.Reshaped w chains h (l ++ [(link.1, { link.2 with next := none })]) ∧
        (chains h).Shrunk (l ++ [(link.1, { link.2 with next := none })]) 0) Never := by
  obtain ⟨p, e⟩ := link
  have ⟨_, _, hm⟩ := hs.formed_of_eq hc
  have hw : inode.WellFormed := (Chain.formed_cons.mp hm).left
  have hp := hs.link_of_eq hc
  have hlast : v.link? last = some inode :=
    hs.link_of_eq (l := l ++ [(p, e)]) (m := []) (by simpa using hc)
  have hne : last ≠ p := by
    have := hs.numbers h
    rw [hc] at this
    intro e
    simp [e, List.nodup_append] at this
  have hst : Inode.Storable { e with next := none } := (storable_of_link? hp).relink none (by simp)
  rw [cutLink, ensures_bind]
  apply (Inode.put_ensures (by rw [hp]; rfl) hst).mono_never
  intro _ u ru
  have hu : u.link? last = some inode := by rw [ru.links, Function.update_of_ne hne, hlast]
  apply (Inode.free_ensures hu (Inode.isEmpty_of_size hw hz hn)).mono_ok
  intro _ w rw'
  rw [ru.links, ru.taken] at rw'
  refine ⟨(ru.trans rw').reshaped (hs.cut hc (owned_of_size hz)), ?_⟩
  rw [hc]
  exact .last rfl rfl (by simp [hz]) (Nat.zero_le _) (by simp [owned_of_size hz]; exact List.prefix_rfl) rfl

theorem dropBlock_ensures {β : Type} {next : VolumeM β} (hs : Sound v.link? v.blockTaken chains)
    (hc : chains h = l ++ [(last, inode)]) (hn : inode.next = none) (hz : inode.size ≠ 0)
    (hslot : inode.usedBlocks - 1 < slotsPerInode) {ok : β → Volume → Prop}
    (ho : ∀ w, v.Reshaped w chains h (l ++ [(last, inode.drop)]) →
      (chains h).Shrunk (l ++ [(last, inode.drop)]) inode.held → next.Ensures w ok Never) :
    (do freeSlot inode.blocks[inode.usedBlocks - 1]; Inode.put last inode.drop; next).Ensures v ok
      Never := by
  have hw : inode.WellFormed := (hs.formed_of_eq hc).right.left
  have hlink := hs.link_of_eq hc
  have hpos : 0 < inode.usedBlocks := blocksFor_pos (Nat.pos_of_ne_zero hz)
  have ⟨b, hb⟩ := Option.isSome_iff_exists.mp ((hw.filled (inode.usedBlocks - 1)).mpr (by omega))
  have howned : inode.owned = inode.drop.owned ++ [b] := by
    rw [Inode.owned_drop hw hn]
    refine (List.dropLast_append_getLast? b ?_).symm
    rw [List.getLast?_eq_getElem?, Inode.length_owned, hw.getElem?_owned, hb, Option.mem_def]
  have hmem : b ∈ (chains h).blocks := by rw [hc]; simp [howned]
  rw [← Inode.slot_of_lt hslot, hb, freeSlot, ensures_bind]
  apply (Block.free_ensures (hs.beyond h b hmem) (hs.taken_of_mem hmem)).mono_ok
  intro _ u ru
  rw [ensures_bind]
  apply (Inode.put_ensures (by rw [ru.links, hlink]; rfl) (storable_of_link? hlink).drop).mono_ok
  intro _ w rw'
  rw [ru.links, ru.taken] at rw'
  apply ho w ((ru.trans rw').reshaped (hs.vacate hc (hw.drop hn) rfl howned))
  rw [hc]
  have hsize : inode.drop.size + inode.held = inode.size := by
    simp only [Inode.drop, Inode.held, Inode.usedBlocks, blocksFor, blockSize]
    omega
  exact .last rfl rfl (by simp; omega) (by simp; omega) (by simp [howned]) hn

theorem shrunk_step {u : Volume} {k : Chain} {n len left : Nat} (hr : v.Reshaped u chains h k)
    (hk : (chains h).Shrunk k len) (hl : len ≤ n) (hsize : len ≤ (chains h).size)
    (ht : n = len → ¬k.Trails) (hleft : left = n - len - (Function.update chains h k h).size)
    (hm : ∃ m, (Function.update chains h k h).Shrunk m (n - len - left) ∧
      u.Reshaped w (Function.update chains h k) h m ∧
      (m.Trails → n - len = 0 ∧ Chain.Trails (Function.update chains h k h))) :
    left = n - (chains h).size ∧ ∃ m, (chains h).Shrunk m (n - left) ∧ v.Reshaped w chains h m ∧
      (m.Trails → n = 0 ∧ (chains h).Trails) := by
  rw [Function.update_self] at hleft hm
  have ⟨m, hshrunk, hx, htrails⟩ := hm
  have := hk.size
  refine ⟨by omega, m, ?_, hr.trans hx, fun hm => ?_⟩
  case refine_1 =>
    have := hk.trans hshrunk
    rwa [show len + (n - len - left) = n - left by omega] at this
  case refine_2 =>
    have ⟨hn, hk⟩ := htrails hm
    exact absurd hk (ht (by omega))

-- What shrinkage ensures that starts from a last link, whatever chain it is the last one of. No empty
-- link is left at the end, but where nothing is done.
def ShrinksFrom (before : List Link) (last : Nat) (inode : Inode) (remaining : Nat) : Prop :=
  ∀ (v : Volume) (chains : Nat → Chain) (h : Nat), Sound v.link? v.blockTaken chains →
    chains h = before.reverse ++ [(last, inode)] → inode.next = none →
    (shrinkFrom before last inode remaining).Ensures v
      (fun left w => left = remaining - (chains h).size ∧
        ∃ m, (chains h).Shrunk m (remaining - left) ∧ v.Reshaped w chains h m ∧
          (m.Trails → remaining = 0 ∧ (chains h).Trails)) Never

namespace ShrinksFrom

variable {before : List Link} {link : Link} {remaining : Nat}

theorem cut (hr : remaining ≠ 0) (hz : inode.size = 0)
    (hi : ShrinksFrom before link.1 { link.2 with next := none } remaining) :
    ShrinksFrom (link :: before) last inode remaining := by
  intro v chains h hs hc hn
  rw [shrinkFrom, if_neg hr, if_pos hz, ensures_bind]
  apply (cutLink_ensures hs (by simpa using hc) hn hz).mono_ok
  rintro _ u ⟨hr, hm⟩
  apply (hi u _ h hr.sound (Function.update_self ..) rfl).mono_ok
  rintro left w ⟨hl, hx⟩
  exact shrunk_step hr hm (Nat.zero_le _) (Nat.zero_le _) (by omega) hl hx

theorem keep (hr : remaining ≠ 0) (hz : inode.size ≠ 0)
    (hroom : remaining < inode.size ∧ blocksFor (inode.size - remaining) = inode.usedBlocks) :
    ShrinksFrom before last inode remaining := by
  intro v chains h hs hc hn
  have hw : inode.WellFormed := (hs.formed_of_eq hc).right.left
  have hlink := hs.link_of_eq hc
  have hle : inode.size ≤ (chains h).size := by rw [hc]; simp
  have hcap : inode.size - remaining ≤ inodeCapacity := Nat.le_trans (Nat.sub_le ..) hw.bounded
  have ho := Inode.owned_resize hroom.right
  rw [shrinkFrom.eq_def, if_neg hr, if_neg hz, if_pos hroom, ensures_bind]
  apply (Inode.put_ensures (by rw [hlink]; rfl) ((storable_of_link? hlink).resize hcap)).mono_ok
  intro _ w r
  refine ⟨by omega, _, ?_, r.reshaped (hs.revise hc (hw.resize hcap hroom.right hn) rfl ho),
    fun ht => ?_⟩
  case refine_1 =>
    rw [hc]
    exact .last rfl rfl (by simp) (by simp; omega) (by rw [ho]; simp) hn
  case refine_2 =>
    have : inode.size - remaining = 0 := (Chain.trails_concat.mp ht).right
    omega

theorem drop (hr : remaining ≠ 0) (hz : inode.size ≠ 0)
    (hroom : ¬(remaining < inode.size ∧ blocksFor (inode.size - remaining) = inode.usedBlocks))
    (hslot : inode.usedBlocks - 1 < slotsPerInode)
    (hi : ShrinksFrom before last inode.drop (remaining - inode.held))
    (hcut : ∀ link rest, before = link :: rest →
      ShrinksFrom rest link.1 { link.2 with next := none } (remaining - inode.held)) :
    ShrinksFrom before last inode remaining := by
  intro v chains h hs hc hn
  have hle : inode.size ≤ (chains h).size := by rw [hc]; simp
  have hheld : inode.held ≤ remaining ∧ inode.held ≤ inode.size := by
    simp only [Inode.held, Inode.usedBlocks, blocksFor, blockSize] at *
    omega
  rw [shrinkFrom.eq_def, if_neg hr, if_neg hz, if_neg hroom, dif_pos hslot]
  apply dropBlock_ensures hs hc hn hz hslot
  intro u hr hm
  have hstay (hkeep : before = [] ∨ inode.drop.size ≠ 0) :
      (shrinkFrom before last inode.drop (remaining - inode.held)).Ensures u
        (fun left w => left = remaining - (chains h).size ∧
          ∃ m, (chains h).Shrunk m (remaining - left) ∧ v.Reshaped w chains h m ∧
            (m.Trails → remaining = 0 ∧ (chains h).Trails)) Never := by
    apply (hi u _ h hr.sound (Function.update_self ..) hn).mono_ok
    rintro left w ⟨hl, hx⟩
    refine shrunk_step hr hm hheld.left (by omega) (fun _ ht => ?_) hl hx
    obtain ⟨hb, hz⟩ := Chain.trails_concat.mp ht
    exact hkeep.elim (by simpa using hb) (absurd hz)
  cases before
  case nil => exact hstay (.inl rfl)
  case cons link before =>
    dsimp only
    by_cases hd : inode.drop.size = 0
    case neg =>
      rw [if_neg hd]
      exact hstay (.inr hd)
    case pos =>
      have hc' : Function.update chains h ((link :: before).reverse ++ [(last, inode.drop)]) h =
          before.reverse ++ [link, (last, inode.drop)] := by simp
      rw [if_pos hd, ensures_bind]
      apply (cutLink_ensures hr.sound hc' hn hd).mono_ok
      rintro _ x ⟨hr', hm'⟩
      have hr'' := hr.trans hr'
      rw [Function.update_self] at hm'
      apply (hcut link before rfl x _ h hr''.sound (Function.update_self ..) rfl).mono_ok
      rintro left w ⟨hl, hx⟩
      refine shrunk_step hr'' (hm.trans hm') hheld.left (by omega) (fun _ ht => ?_) hl hx
      -- the link before the last one is full
      have hc : chains h = before.reverse ++ (link.1, link.2) :: [(last, inode)] := by simpa using hc
      obtain ⟨_, _, _, hnext, _⟩ := Chain.Leads.append.mp (hs.leads_of_eq hc)
      have hfull := (hs.formed_of_eq hc).right.left.packed (by simp [hnext])
      have hzero : link.2.size = 0 := (Chain.trails_concat.mp ht).right
      lia

end ShrinksFrom

theorem shrinksFrom (before : List Link) (last : Nat) (inode : Inode) (remaining : Nat) :
    ShrinksFrom before last inode remaining := by
  induction before, last, inode, remaining using shrinkFrom.induct
  case case1 before last inode =>
    intro v chains h hs hc hn
    rw [shrinkFrom.eq_def, if_pos rfl]
    exact ⟨by simp, chains h, .refl (chains h), .refl hs, fun ht => ⟨rfl, ht⟩⟩
  case case2 last inode remaining hr hz =>
    intro v chains h hs hc hn
    have hsize : (chains h).size = 0 := by simp [hc, hz]
    rw [shrinkFrom.eq_def, if_neg hr, if_pos hz]
    refine ⟨by simp [hsize], chains h, by simpa using .refl (chains h), .refl hs, fun ht => ?_⟩
    rw [hc] at ht
    exact absurd rfl (Chain.trails_concat.mp ht).left
  case case3 hr hz link before hi => exact .cut hr hz hi
  case case4 hr hz hroom          => exact .keep hr hz hroom
  case case5 before last inode remaining hr hz hroom hslot hi =>
    cases before
    case nil => exact .drop hr hz hroom hslot hi nofun
    case cons link before =>
      refine .drop hr hz hroom hslot hi.right fun link rest e => ?_
      obtain ⟨rfl, rfl⟩ := List.cons.inj e
      exact hi.left
  case case6 before last inode remaining hr hz hroom hslot =>
    intro v chains h hs hc hn
    exact absurd ((hs.formed_of_eq hc).right.left.last_slot_lt hz) hslot

theorem shrink_chain_ensures (hs : Sound v.link? v.blockTaken chains) (hc : chains h ≠ []) (n : Nat) :
    (shrink h n).Ensures v
      (fun k w => k = min n (chains h).size ∧
        ∃ m, (chains h).Shrunk m n ∧ v.Reshaped w chains h m ∧
          (m.Trails ↔ n = 0 ∧ (chains h).Trails)) Never := by
  rw [shrink]
  by_cases hn : n = 0
  case pos =>
    rw [if_pos hn]
    exact ⟨by simp [hn], chains h, by simpa [hn] using .refl (chains h), .refl hs,
      (and_iff_right hn).symm⟩
  rw [if_neg hn]
  have ⟨l, last, inode, hl, hnext⟩ := hs.exists_last hc
  rw [ensures_bind, ensures_query_ok (lastLink_eq hs hl)]
  dsimp only
  rw [ensures_bind]
  apply (shrinksFrom l.reverse last inode n v chains h hs (by simpa using hl) hnext).mono_ok
  intro left w ⟨hleft, m, hm, hr, ht⟩
  refine ⟨by omega, m, ?_, hr, ht, fun h => absurd h.left hn⟩
  -- what the file does not have cannot be taken off, be it asked for or not
  exact { hm with size := by rw [hm.size]; omega }

variable {files : Nat → Option FileState} {f : FileState}

theorem shrink_ensures (hv : v.Holds files) (hf : files h = some f) (n : Nat) :
    (shrink h n).Ensures v
      (fun k w => k = min n f.bytes.length ∧
        w.Holds (Function.update files h
          (some { f with bytes := f.bytes.take (f.bytes.length - n) })) ∧ v.Recedes w ∧
        v.Spares w h ∧ (w.Trails h ↔ n = 0 ∧ v.Trails h)) Never := by
  have ⟨chains, hs, hc, c, l, hl, _, _, hb⟩ := hv.exists_chain hf
  apply (shrink_chain_ensures hs (by simp [hl]) n).mono_ok
  intro k w ⟨hk, m, hm, hr, ht⟩
  have hlen : m.blocks.length = blocksFor m.size := by
    simpa using hr.sound.length_blocks h
  have hfile := hm.file ((hc h).trans hf) hlen
  refine ⟨?_, hfile ▸ hr.holds hc, hr.recedes hs hm, hr.spares hs, ?_⟩
  case refine_1 => rw [hk, ← hb, Chain.length_content]
  case refine_2 => rw [hr.trails_iff, hs.trails_iff, ht]

theorem undo_ensures {u : Volume} {g : Growth} {n : Nat} {new : List UInt8} (hf : files h = some f)
    (hnew : new.length = g.grown)
    (hu : u.Holds (Function.update files h (some { f with bytes := f.bytes ++ new })))
    (hcut : g.cut ≠ none) (t : g.Tidies v u h f.bytes.length n) :
    (shrink h g.grown).Ensures u (fun _ w => w.Holds files ∧ v.Undone w h) Never := by
  apply (shrink_ensures hu (Function.update_self ..) g.grown).mono_ok
  intro _ w ⟨_, hw, _, hspares, ht⟩
  refine ⟨?holds, fun k => ?trails⟩
  case holds =>
    rw [Function.update_idem, List.length_append, hnew, Nat.add_sub_cancel, List.take_left] at hw
    rwa [← Function.update_eq_self h files, hf]
  case trails =>
    by_cases hk : k = h
    case pos =>
      subst hk
      rw [ht, (t.halts hcut).undone]
      simp
    case neg => simp [hk, (t.spares.trans hspares) k hk]

end File
end InodeVolume
