import InodeVolume.Proofs.File.Consistency
import InodeVolume.Proofs.Inode.Store

namespace InodeVolume

open VolumeM Volume

namespace Marks

variable {p q : Nat → Bool} {x : Nat}

theorem release (hx : p x) : Marks (Function.update p x false) p [x] := by
  have := Marks.single (p := Function.update p x false) (x := x) (Function.update_self ..)
  rwa [Function.update_idem, ← hx, Function.update_eq_self] at this

end Marks

namespace Volume

variable {v u w : Volume} {h i j n x : Nat} {k l m : Chain} {c d : Inode} {bs cs js is : List Nat}

namespace Gains

theorem refl (hw : v.Walks h l) (hf : l.Formed) : v.Gains v h l l 0 [] [] where
  walks    := hw
  others   := fun _ _ => rfl
  formed   := hf
  size     := rfl
  blocks   := by simp
  numbers  := by simp
  blockMap := .refl _
  inodeMap := .refl _
  data     := fun _ _ => rfl

theorem trans (t₁ : v.Gains u h l m n bs js) (t₂ : u.Gains w h m k x cs is) :
    v.Gains w h l k (n + x) (bs ++ cs) (js ++ is) where
  walks    := t₂.walks
  others   := by
    intro i hi
    rw [t₂.others i hi, t₁.others i fun hm => hi (t₂.mem_numbers.mpr (.inl hm))]
  formed   := t₂.formed
  size     := by rw [t₂.size, t₁.size, Nat.add_assoc]
  blocks   := by rw [t₂.blocks, t₁.blocks, List.append_assoc]
  numbers  := by rw [t₂.numbers, t₁.numbers, List.append_assoc]
  blockMap := t₁.blockMap.trans t₂.blockMap
  inodeMap := t₁.inodeMap.trans t₂.inodeMap
  data     := fun a ha => (t₂.data a ha).trans (t₁.data a ha)

theorem stands_back (t : v.Gains w h m l n bs js) (hf : m.Formed) (hs : w.Stands l) : v.Stands m where
  formed := hf
  nodup  := (List.nodup_append.mp (t.blocks ▸ hs.nodup)).left
  held   := by
    intro b hb
    have ⟨hlow, htaken⟩ := hs.held b (by rw [t.blocks]; exact List.mem_append_left _ hb)
    refine ⟨hlow, ((t.blockMap.set b).mp htaken).resolve_right fun hx => ?_⟩
    exact (List.nodup_append.mp (t.blocks ▸ hs.nodup)).right.right b hb b hx rfl

theorem chain_congr_back (t : v.Gains w h m l n bs js) {i : Nat} {y : Chain} (hy : w.Walks i y)
    (hd : l.numbers.Disjoint y.numbers) : v.Walks i y :=
  hy.congr fun i hi => (t.others i fun hl => hd hl hi).symm

end Gains

-- The chain `l` has turned into `m`. Of the records of `m`, none has been written or the last one alone.
inductive Amends (v w : Volume) (l : Chain) : Chain → Prop
  | none : w.record = v.record → Amends v w l l
  | last {k : Chain} {i : Nat} {c : Inode} : w.record i = .ofInode c →
    (∀ j ∈ k.numbers, w.record j = v.record j) → Amends v w l (k ++ [(i, c)])

namespace Amends

theorem update (hr : w.record = Function.update v.record i (.ofInode d)) (hi : i ∉ k.numbers) :
    v.Amends w l (k ++ [(i, d)]) := by
  refine .last ?_ fun j hj => ?_
  case refine_1 => rw [hr, Function.update_self]
  case refine_2 => rw [hr, Function.update_of_ne fun h : j = i => hi (h ▸ hj)]

theorem trans (h₁ : v.Amends u l m) (h₂ : u.Amends w m k) (hn : m.numbers = k.numbers ++ js) :
    v.Amends w l k := by
  cases h₂
  case none h₂ =>
    cases h₁
    case none h₁      => exact .none (h₂.trans h₁)
    case last hi hall => exact .last (h₂ ▸ hi) fun j hj => (congrFun h₂ j).trans (hall j hj)
  case last p i c hi h₂ =>
    refine .last hi fun j hj => (h₂ j hj).trans ?_
    cases h₁
    case none h₁ => rw [h₁]
    case last q x d _ h₁ =>
      rw [Chain.numbers_append, Chain.numbers_append, List.append_assoc] at hn
      have hle : p.numbers.length ≤ q.numbers.length := by
        have := congrArg List.length hn
        simp at this
        omega
      have hp : p.numbers <+: q.numbers ++ Chain.numbers [(x, d)] := hn ▸ List.prefix_append ..
      exact h₁ j ((List.prefix_of_prefix_length_le hp (List.prefix_append ..) hle).subset hj)

end Amends

-- The chain `l` of a file has turned into `m` and has lost so many bytes, these blocks and these links.
-- Taken backwards, it has gained them.
structure Loses (v w : Volume) (h : Nat) (l m : Chain) (n : Nat) (bs js : List Nat) : Prop where
  back   : w.Gains v h m l n bs js
  walks  : w.Walks h m
  formed : m.Formed
  kept   : ∀ i, w.inodeTaken i → v.Retains w i
  amends : v.Amends w l m

namespace Loses

theorem refl (hw : v.Walks h l) (hf : l.Formed) : v.Loses v h l l 0 [] [] :=
  ⟨.refl hw hf, hw, hf, fun _ => .refl, .none rfl⟩

theorem trans (t₁ : v.Loses u h l m n bs js) (t₂ : u.Loses w h m k x cs is) :
    v.Loses w h l k (x + n) (cs ++ bs) (is ++ js) where
  back   := t₂.back.trans t₁.back
  walks  := t₂.walks
  formed := t₂.formed
  kept   := fun i hi =>
    have hr := t₂.kept i hi
    (t₁.kept i hr.taken).trans hr
  amends := t₁.amends.trans t₂.amends t₂.back.numbers

theorem revise (hw : v.Walks h (l ++ [(i, c)])) (hf : Chain.Formed (l ++ [(i, c)]))
    (hd : d.WellFormed) (hn : d.next = none) (hs : c.size = d.size + n)
    (ho : c.owned = d.owned ++ bs) (hx : w.link? = Function.update v.link? i (some d))
    (hb : Marks w.blockTaken v.blockTaken bs) (ha : ∀ a, dataStart ≤ a → w.byte a = v.byte a)
    (hrefs : d.refs = c.refs) (hmode : d.mode = c.mode)
    (hr : w.record = Function.update v.record i (.ofInode d)) :
    v.Loses w h (l ++ [(i, c)]) (l ++ [(i, d)]) n bs [] where
  amends := .update hr hw.last_not_mem
  kept   := by
    have hc : v.link? i = some c := hw.links i c (by simp)
    exact fun j hj => .update hc hx hrefs hmode (inodeTaken_update hc hx ▸ hj)
  walks  := hw.revise hn hx
  formed := Chain.formed_append.mpr
    ⟨(Chain.formed_append.mp hf).left, Chain.formed_cons.mpr ⟨hd, Chain.formed_nil⟩⟩
  back   := by
    have hc : v.link? i = some c := hw.links i c (by simp)
    constructor
    case walks => exact hw
    case formed => exact hf
    case size => simp [hs, Nat.add_assoc]
    case blocks => simp [ho]
    case numbers => simp
    case blockMap => exact hb
    case inodeMap => exact inodeTaken_update hc hx ▸ .refl _
    case data => exact fun a h => (ha a h).symm
    case others =>
      intro j hj
      have hne : j ≠ i := by
        rintro rfl
        simp at hj
      rw [hx, Function.update_of_ne hne]

theorem cut (hw : v.Walks h (l ++ [(j, d)] ++ [(i, c)])) (hf : Chain.Formed (l ++ [(j, d)] ++ [(i, c)]))
    (hz : c.size = 0)
    (r : Relinked v w
      (Function.update (Function.update v.link? j (some { d with next := none })) i none)
      v.blockTaken)
    (hr : w.record = Function.update v.record j (.ofInode { d with next := none })) :
    v.Loses w h (l ++ [(j, d)] ++ [(i, c)]) (l ++ [(j, { d with next := none })]) 0 [] [i] where
  amends := .update hr (hw.cut r.links).last_not_mem
  kept   := by
    intro k hk
    rw [← isSome_link?, r.links, Function.update_apply] at hk
    split at hk
    case isTrue => contradiction
    case isFalse hki =>
      have hd : v.link? j = some d := hw.links j d (by simp)
      have hk' : w.link? k = Function.update v.link? j (some { d with next := none }) k := by
        rw [r.links, Function.update_of_ne hki]
      by_cases hkj : k = j
      case pos =>
        subst hkj
        exact ⟨d, _, hd, hk'.trans (Function.update_self ..), rfl, rfl⟩
      case neg =>
        rw [Function.update_of_ne hkj] at hk hk'
        exact .of_link? (isSome_link? ▸ hk) hk'
  walks  := hw.cut r.links
  formed := by
    have ⟨hl, hd⟩ := Chain.formed_append.mp (Chain.formed_append.mp hf).left
    have hd := (Chain.formed_cons.mp hd).left.relink none nofun
    exact Chain.formed_append.mpr ⟨hl, Chain.formed_cons.mpr ⟨hd, Chain.formed_nil⟩⟩
  back   := by
    have hd : v.link? j = some d := hw.links j d (by simp)
    have hc : v.link? i = some c := hw.links i c (by simp)
    constructor
    case walks => exact hw
    case formed => exact hf
    case size => simp [hz]
    case blocks => simp [File.owned_of_size hz]; rfl
    case numbers => simp
    case blockMap => exact r.taken ▸ .refl _
    case data => exact fun a h => (r.data a h).symm
    case others =>
      intro k hk
      have ⟨hki, hkj⟩ : k ≠ i ∧ k ≠ j := by
        constructor <;> rintro rfl <;> simp at hk
      rw [r.links, Function.update_of_ne hki, Function.update_of_ne hkj]
    case inodeMap =>
      -- the link before it stays taken, though it has been written anew
      have : w.inodeTaken = Function.update v.inodeTaken i false := by
        funext k
        rw [← isSome_link?, r.links, Function.update_apply, Function.update_apply, Function.update_apply,
          ← isSome_link?]
        split
        case isTrue  => rfl
        case isFalse => split <;> simp_all
      rw [this]
      exact .release (by rw [← isSome_link?, hc]; rfl)

end Loses
end Volume

theorem Inode.held_le {c : Inode} {n : Nat}
    (hroom : ¬(n < c.size ∧ blocksFor (c.size - n) = c.usedBlocks)) : c.held ≤ n := by
  simp only [held, usedBlocks, blocksFor, blockSize] at *
  omega

namespace File

variable {v w : Volume} {h last n : Nat} {l m : Chain} {c : Inode} {link : Link} {before : List Link}

theorem cutLink_loses (hw : v.Walks h (l ++ [link] ++ [(last, c)]))
    (hf : Chain.Formed (l ++ [link] ++ [(last, c)])) (hn : c.next = none) (hz : c.size = 0) :
    (cutLink link last).Ensures v
      (fun _ w => v.Loses w h (l ++ [link] ++ [(last, c)]) (l ++ [(link.1, { link.2 with next := none })])
        0 [] [last]) Never := by
  obtain ⟨j, d⟩ := link
  have hd := hw.links j d (by simp)
  have hc := hw.links last c (by simp)
  have hne : last ≠ j := fun e => hw.last_not_mem (by simp [e])
  have hcf : c.WellFormed := hf (last, c) (by simp)
  have hst := (storable_of_link? hd).relink none nofun
  rw [cutLink, ensures_bind]
  apply ((Inode.put_ensures (by rw [hd]; rfl) hst).and_never (Inode.put_record (lt_of_link? hd) _ v)).mono_ok
  rintro _ u ⟨ru, ku⟩
  have hcu : u.link? last = some c := by rw [ru.links, Function.update_of_ne hne, hc]
  have hempty := Inode.isEmpty_of_size hcf hz hn
  apply ((Inode.free_ensures hcu hempty).and_never (Inode.free_record u last)).mono_ok
  rintro _ x ⟨rx, kx⟩
  exact .cut hw hf hz (ru.trans (ru.links ▸ ru.taken ▸ rx)) (kx.trans ku)

theorem dropBlock_loses (hw : v.Walks h (l ++ [(last, c)])) (hs : v.Stands (l ++ [(last, c)]))
    (hn : c.next = none) (hz : c.size ≠ 0) (hslot : c.usedBlocks - 1 < slotsPerInode) :
    (do freeSlot c.blocks[c.usedBlocks - 1]; Inode.put last c.drop).Ensures v
      (fun _ w => ∃ b, v.Loses w h (l ++ [(last, c)]) (l ++ [(last, c.drop)]) c.held [b] []) Never := by
  have hc := hw.links last c (by simp)
  have hcf : c.WellFormed := hs.formed (last, c) (by simp)
  have hpos : 0 < c.usedBlocks := blocksFor_pos (Nat.pos_of_ne_zero hz)
  have ⟨b, hb⟩ := Option.isSome_iff_exists.mp ((hcf.filled (c.usedBlocks - 1)).mpr (by omega))
  have howned : c.owned = c.drop.owned ++ [b] := by
    rw [Inode.owned_drop hcf hn]
    refine (List.dropLast_append_getLast? b ?_).symm
    rw [List.getLast?_eq_getElem?, Inode.length_owned, hcf.getElem?_owned, hb, Option.mem_def]
  have ⟨hlow, htaken⟩ := hs.held b (by simp [howned])
  have hsize : c.size = c.drop.size + c.held := by
    simp only [Inode.drop, Inode.held, Inode.usedBlocks, blocksFor, blockSize]
    omega
  have hfree : (freeSlot (some b)).Ensures v _ _ := Block.free_ensures hlow htaken
  rw [← Inode.slot_of_lt hslot, hb, ensures_bind]
  apply (hfree.and_never (freeSlot_record v (some b))).mono_ok
  rintro _ u ⟨ru, ku⟩
  have hcu : u.link? last = some c := by rw [ru.links, hc]
  have hst := (storable_of_link? hc).drop
  apply ((Inode.put_ensures (by rw [hcu]; rfl) hst).and_never (Inode.put_record (lt_of_link? hc) _ u)).mono_ok
  rintro _ x ⟨rx, kx⟩
  have r := ru.trans (ru.links ▸ ru.taken ▸ rx)
  exact ⟨b, .revise hw hs.formed (hcf.drop hn) hn hsize howned r.links (r.taken ▸ .release htaken) r.data
    rfl rfl (ku ▸ kx)⟩

-- What becomes of a chain when `n` bytes are taken off and `left` of them are not there. No empty link
-- remains at its end, but where nothing is done.
structure Shortens (v w : Volume) (h n left : Nat) (l : Chain) : Prop where
  eq    : left = n - l.size
  loses : ∃ m bs js, v.Loses w h l m (n - left) bs js ∧ (m.Trails → n = 0 ∧ l.Trails)

theorem Shortens.step {u : Volume} {x left : Nat} {bs js : List Nat} (t : v.Loses u h l m x bs js)
    (hx : x ≤ n) (hm : n = x → ¬m.Trails) (hs : Shortens u w h (n - x) left m) :
    Shortens v w h n left l := by
  have hsize := t.back.size
  have heq := hs.eq
  refine ⟨by omega, ?_⟩
  obtain ⟨k, cs, is, hk, hkm⟩ := hs.loses
  refine ⟨k, cs ++ bs, is ++ js, ?_, fun htrails => ?_⟩
  case refine_1 =>
    have := t.trans hk
    rwa [show n - x - left + x = n - left by omega] at this
  case refine_2 =>
    have ⟨hn, hmt⟩ := hkm htrails
    exact absurd hmt (hm (by omega))

def ShortensFrom (before : List Link) (last : Nat) (c : Inode) (n : Nat) : Prop :=
  ∀ (v : Volume) (h : Nat), v.Walks h (before.reverse ++ [(last, c)]) →
    v.Stands (before.reverse ++ [(last, c)]) → c.next = none →
    (shrinkFrom before last c n).Ensures v
      (fun left w => Shortens v w h n left (before.reverse ++ [(last, c)])) Never

namespace ShortensFrom

theorem cut (hr : n ≠ 0) (hz : c.size = 0)
    (hi : ShortensFrom before link.1 { link.2 with next := none } n) :
    ShortensFrom (link :: before) last c n := by
  intro v h hw hs hn
  rw [List.reverse_cons] at *
  rw [shrinkFrom, if_neg hr, if_pos hz, ensures_bind]
  apply (cutLink_loses hw hs.formed hn hz).mono_ok
  intro _ u t
  apply (hi u h t.walks (t.back.stands_back t.formed hs) rfl).mono_ok
  intro left w hw
  exact .step t (Nat.zero_le _) (by omega) hw

theorem keep (hr : n ≠ 0) (hz : c.size ≠ 0)
    (hroom : n < c.size ∧ blocksFor (c.size - n) = c.usedBlocks) : ShortensFrom before last c n := by
  intro v h hw hs hn
  have hc := hw.links last c (by simp)
  have hcf : c.WellFormed := hs.formed (last, c) (by simp)
  have hcap : c.size - n ≤ inodeCapacity := Nat.le_trans (Nat.sub_le ..) hcf.bounded
  have ho := Inode.owned_resize hroom.right
  rw [shrinkFrom.eq_def, if_neg hr, if_neg hz, if_pos hroom, ensures_bind]
  have hst := (storable_of_link? hc).resize hcap
  apply ((Inode.put_ensures (by rw [hc]; rfl) hst).and_never (Inode.put_record (lt_of_link? hc) _ v)).mono_ok
  intro _ w ⟨r, hk⟩
  have t : v.Loses w h (before.reverse ++ [(last, c)])
      (before.reverse ++ [(last, { c with size := c.size - n })]) n [] [] :=
    .revise hw hs.formed (hcf.resize hcap hroom.right hn) hn (by simp; omega)
      (by rw [ho, List.append_nil]) r.links (r.taken ▸ .refl _) r.data rfl rfl hk
  refine ⟨by simp; omega, _, [], [], t, fun ht => ?_⟩
  have := (Chain.trails_concat.mp ht).right
  simp at this
  omega

theorem drop (hr : n ≠ 0) (hz : c.size ≠ 0)
    (hroom : ¬(n < c.size ∧ blocksFor (c.size - n) = c.usedBlocks))
    (hslot : c.usedBlocks - 1 < slotsPerInode)
    (hi : ShortensFrom before last c.drop (n - c.held))
    (hcut : ∀ link rest, before = link :: rest →
      ShortensFrom rest link.1 { link.2 with next := none } (n - c.held)) :
    ShortensFrom before last c n := by
  intro v h hw hs hn
  have hheld : c.held ≤ n := Inode.held_le hroom
  rw [shrinkFrom.eq_def, if_neg hr, if_neg hz, if_neg hroom, dif_pos hslot, ← bind_assoc, ensures_bind]
  apply (dropBlock_loses hw hs hn hz hslot).mono_ok
  rintro _ u ⟨b, t⟩
  have hu := t.back.stands_back t.formed hs
  have hstay (hkeep : before = [] ∨ c.drop.size ≠ 0) :
      (shrinkFrom before last c.drop (n - c.held)).Ensures u
        (fun left w => Shortens v w h n left (before.reverse ++ [(last, c)])) Never := by
    apply (hi u h t.walks hu hn).mono_ok
    intro left w hw
    refine .step t hheld (fun _ ht => ?_) hw
    obtain ⟨hb, hz⟩ := Chain.trails_concat.mp ht
    exact hkeep.elim (by simpa using hb) (absurd hz)
  cases before
  case nil => exact hstay (.inl rfl)
  case cons link before =>
    dsimp only
    by_cases hd : c.drop.size = 0
    case neg =>
      rw [if_neg hd]
      exact hstay (.inr hd)
    case pos =>
      rw [List.reverse_cons] at *
      rw [if_pos hd, ensures_bind]
      apply (cutLink_loses t.walks t.formed hn hd).mono_ok
      intro _ y t'
      have tt := t.trans t'
      rw [Nat.zero_add] at tt
      apply (hcut link before rfl y h tt.walks (tt.back.stands_back tt.formed hs) rfl).mono_ok
      intro left w hw'
      refine .step tt hheld (fun _ ht => ?_) hw'
      -- the link before the last one is full
      obtain ⟨k, hl, hk, _⟩ := Chain.Leads.append.mp hw.leads
      obtain ⟨_, _, _, hnext⟩ := Chain.Leads.append.mp hl
      have hnext : link.2.next = k := hnext
      have hfull := (hs.formed link (by simp)).packed (by rw [hnext, hk]; rfl)
      have hzero : link.2.size = 0 := (Chain.trails_concat.mp ht).right
      lia

end ShortensFrom

theorem shortensFrom (before : List Link) (last : Nat) (c : Inode) (n : Nat) :
    ShortensFrom before last c n := by
  induction before, last, c, n using shrinkFrom.induct
  case case1 before last c =>
    intro v h hw hs hn
    rw [shrinkFrom.eq_def, if_pos rfl]
    exact ⟨by simp, _, [], [], .refl hw hs.formed, fun ht => ⟨rfl, ht⟩⟩
  case case2 last c n hr hz =>
    intro v h hw hs hn
    rw [shrinkFrom.eq_def, if_neg hr, if_pos hz]
    have t := Loses.refl hw hs.formed
    rw [← Nat.sub_self n] at t
    refine ⟨by simp [hz], _, [], [], t, fun ht => ?_⟩
    exact absurd rfl (Chain.trails_concat.mp ht).left
  case case3 hr hz link before hi => exact .cut hr hz hi
  case case4 hr hz hroom          => exact .keep hr hz hroom
  case case5 before last c n hr hz hroom hslot hi =>
    cases before
    case nil => exact .drop hr hz hroom hslot hi fun _ _ e => absurd e.symm (List.cons_ne_nil _ _)
    case cons link before =>
      refine .drop hr hz hroom hslot hi.right fun link rest e => ?_
      obtain ⟨rfl, rfl⟩ := List.cons.inj e
      exact hi.left
  case case6 before last c n hr hz hroom hslot =>
    intro v h hw hs hn
    have hcf : c.WellFormed := hs.formed (last, c) (by simp)
    exact absurd (hcf.last_slot_lt hz) hslot

theorem shrink_loses (hw : v.Walks h l) (hs : v.Stands l) (n : Nat) :
    (shrink h n).Ensures v
      (fun k w => k = min n l.size ∧ ∃ m bs js, v.Loses w h l m k bs js ∧ (m.Trails → n = 0 ∧ l.Trails))
      Never := by
  rw [shrink]
  by_cases hn : n = 0
  case pos =>
    rw [if_pos hn]
    exact ⟨by simp [hn], l, [], [], .refl hw hs.formed, fun ht => ⟨hn, ht⟩⟩
  case neg =>
    obtain ⟨k, last, c, rfl, hnext⟩ := hw.exists_last
    rw [if_neg hn, ensures_bind, ensures_query_ok hw.lastLink_eq]
    dsimp only
    rw [ensures_bind]
    apply (shortensFrom k.reverse last c n v h (by rwa [List.reverse_reverse])
      (by rwa [List.reverse_reverse]) hnext).mono_ok
    rw [List.reverse_reverse]
    intro left w t
    have := t.eq
    exact ⟨by omega, t.loses⟩

end File

namespace Volume

variable {v w : Volume} {h i n x : Nat} {l m : Chain} {bs js : List Nat}

namespace Loses

theorem head_iff (t : v.Loses w h l m x bs js) : w.Head i ↔ v.Head i :=
  (t.back.head_iff t.walks).symm

theorem others (t : v.Loses w h l m x bs js) (c : v.Consistent) (hh : v.Head h) (hi : v.Head i)
    (hne : i ≠ h) :
    ∃ k, v.Walks i k ∧ w.Walks i k ∧ w.Stands k ∧
      m.numbers.Disjoint k.numbers ∧ m.blocks.Disjoint k.blocks := by
  have ⟨k, hk, hs⟩ := c.exists_chain hi
  have ⟨hnum, hblk⟩ := c.apart h i l k hh hi (Ne.symm hne) t.back.walks.chain_eq hk.chain_eq
  refine ⟨k, hk, t.back.chain_congr_back hk hnum, ⟨hs.formed, hs.nodup, fun b hb => ?_⟩, ?_, ?_⟩
  case refine_1 =>
    refine (hs.held b hb).imp_right fun htaken => ?_
    refine ((t.back.blockMap.set b).mp htaken).resolve_right fun hx => hblk ?_ hb
    exact t.back.blocks ▸ List.mem_append_right _ hx
  case refine_2 => exact (List.disjoint_append_left.mp (t.back.numbers ▸ hnum)).left
  case refine_3 => exact (List.disjoint_append_left.mp (t.back.blocks ▸ hblk)).left

end Loses

theorem Consistent.loses (c : v.Consistent) (hh : v.Head h) (t : v.Loses w h l m x bs js) :
    w.Consistent := by
  have ⟨_, hl, hs⟩ := c.exists_chain hh
  obtain rfl := t.back.walks.unique hl
  refine c.rechain ?_ t.walks (t.back.stands_back t.formed hs) fun k hk hkh => ?_
  case refine_1 =>
    intro b hb
    refine ((t.back.blockMap.set b).mp (c.reserved b hb)).resolve_right fun hx => ?_
    have := (hs.held b (t.back.blocks ▸ List.mem_append_right _ hx)).left
    omega
  case refine_2 => exact ⟨t.head_iff.mp hkh, t.others c hh (t.head_iff.mp hkh) hk⟩

structure Yields (v w : Volume) (h n : Nat) (l m : Chain) : Prop where
  consistent : w.Consistent
  heads      : ∀ k, w.Head k ↔ v.Head k
  others     : ∀ k ≠ h, v.Head k → w.chain k = v.chain k
  chain      : w.chain h = .ok m
  size       : m.size = l.size - min n l.size
  blocks     : m.blocks.length = blocksFor m.size
  links      : 0 < n → m.length = linksFor m.size
  content    : ∃ bytes, v.readFile h 0 m.size = .ok bytes ∧ w.readFile h 0 m.size = .ok bytes
  data       : ∀ a, dataStart ≤ a → w.byte a = v.byte a
  blockMap   : m.blocks <+: l.blocks ∧
    Marks w.blockTaken v.blockTaken (l.blocks.drop m.blocks.length)
  inodeMap   : m.numbers <+: l.numbers ∧ Marks w.inodeTaken v.inodeTaken (l.numbers.drop m.length)
  head       : w.inodeTaken h

-- Shrinkage takes off what is asked for, or all that there is, and never fails. It leaves the
-- volume consistent and gives back nothing but what the file does not need any more.
theorem Consistent.shrink_exact (c : v.Consistent) (hh : v.Head h) (hl : v.chain h = .ok l) (n : Nat) :
    ∃ w m, File.shrink h n v = (.ok (min n l.size), w) ∧ v.Yields w h n l m := by
  have hw := chain_eq_ok_iff.mp hl
  have ⟨_, hx, hs⟩ := c.exists_chain hh
  obtain rfl := hw.unique hx
  have ⟨k, w, hk, hkn, m, bs, js, t, htrails⟩ := (File.shrink_loses hw hs n).exists_ok
  subst hkn
  have hm := t.back.stands_back t.formed hs
  have ⟨full, last, e⟩ := Chain.exists_ends t.walks.leads t.formed t.walks.ne_nil
  have hsize := t.back.size
  refine ⟨w, m, hk, ?_⟩
  exact {
    consistent := c.loses hh t
    heads      := fun i => t.head_iff
    others     := by
      intro i hi hih
      have ⟨y, hy, hyw, _⟩ := t.others c hh hih hi
      rw [hy.chain_eq, hyw.chain_eq]
    chain      := t.walks.chain_eq
    size       := by omega
    blocks     := Chain.length_blocks t.walks.leads t.formed
    links      := by
      intro hn
      rw [e.length_eq, if_neg fun ht => by have := (htrails ht).left; omega, Nat.add_zero]
    content    := by
      have ⟨bytes, hb, hv⟩ := t.back.content t.walks hm hs
      exact ⟨bytes, hv, hb⟩
    data       := fun a ha => (t.back.data a ha).symm
    blockMap   := ⟨t.back.blocks ▸ List.prefix_append .., by
      rw [t.back.blocks, List.drop_left]; exact t.back.blockMap⟩
    inodeMap   := by
      have hlen : m.numbers.length = m.length := List.length_map ..
      exact ⟨t.back.numbers ▸ List.prefix_append .., by
        rw [t.back.numbers, ← hlen, List.drop_left]; exact t.back.inodeMap⟩
    head       := t.walks.inodeTaken t.walks.head_mem
  }

theorem shrink_exact_fresh :
    ∃ l : Chain, (fresh.Consistent ∧ fresh.Head rootInode ∧ fresh.chain rootInode = .ok l) ∧
      ∃ w m, File.shrink rootInode 100000 fresh = (.ok (min 100000 l.size), w) ∧
        fresh.Yields w rootInode 100000 l m := by
  have hh : fresh.Head rootInode := holds_fresh.head_root
  have ⟨l, hl, _⟩ := holds_fresh.consistent.stands rootInode hh
  exact ⟨l, ⟨holds_fresh.consistent, hh, hl⟩, holds_fresh.consistent.shrink_exact hh hl 100000⟩

end Volume
end InodeVolume
