import InodeVolume.Proofs.File.Release
import InodeVolume.Proofs.Inode.Store

namespace InodeVolume

open VolumeM Volume

theorem Inode.drop_resize {c d : Inode} {s : Nat} (hd : d = { c with size := s })
    (hu : d.usedBlocks = c.usedBlocks) : d.drop = c.drop := by
  rw [drop, drop, hu, hd]

theorem Inode.held_resize {c d : Inode} {a : Nat} (hs : d.size = c.size - a)
    (hu : d.usedBlocks = c.usedBlocks) (ha : a < c.size) : d.held + a = c.held := by
  simp only [held, usedBlocks, blocksFor, blockSize] at *
  omega

theorem Inode.fits_of_add {c : Inode} {a b : Nat} (h : blocksFor (c.size + (a + b)) = c.usedBlocks) :
    blocksFor (c.size + a) = c.usedBlocks :=
  Nat.le_antisymm (h ▸ blocksFor_mono (by omega)) (blocksFor_mono (Nat.le_add_right ..))

theorem Inode.stays_of_add {c : Inode} {a b : Nat}
    (h : a + b < c.size ∧ blocksFor (c.size - (a + b)) = c.usedBlocks) :
    a < c.size ∧ blocksFor (c.size - a) = c.usedBlocks :=
  ⟨by omega, Nat.le_antisymm (blocksFor_mono (Nat.sub_le ..)) (h.right ▸ blocksFor_mono (by omega))⟩

theorem Inode.lt_of_not_room {c : Inode} {n : Nat} (hroom : blocksFor (c.size + n) ≠ c.usedBlocks)
    (hslot : ¬c.usedBlocks < slotsPerInode) (hle : c.size ≤ inodeCapacity) :
    inodeCapacity - c.size < n := by
  by_contra hlt
  have := blocksFor_le_iff.mpr (show c.size + n ≤ slotsPerInode * blockSize by lia)
  have := blocksFor_mono (Nat.le_add_right c.size n)
  simp only [Inode.usedBlocks] at *
  omega

namespace File

-- How growth of a last link comes to its end: what is done on the way, with which inode, and why there
-- may be no more.
inductive Grows :
    (last : Nat) → (inode : Inode) → (bytes : Nat) → Volume → (cut : Option Errno) → Volume → Prop
  | done {last inode v} : Grows last inode 0 v none v
  | fill {last inode n v} : n ≠ 0 → inode.size + n < wordLimit →
    blocksFor (inode.size + n) = inode.usedBlocks →
    Grows last inode n v none (v.store last { inode with size := inode.size + n })
  | crowded {last inode n e v} : n ≠ 0 → inode.size + n < wordLimit →
    blocksFor (inode.size + n) ≠ inode.usedBlocks → inode.usedBlocks < slotsPerInode →
    Block.alloc v = (.error (.errno e), v) → Grows last inode n v (some e) v
  | hold {last inode n block cut u v w} : n ≠ 0 → inode.size + n < wordLimit →
    blocksFor (inode.size + n) ≠ inode.usedBlocks → inode.usedBlocks < slotsPerInode →
    Block.alloc v = (.ok block, u) →
    Grows last (inode.hold block (min blockSize n)) (n - min blockSize n)
      (u.store last (inode.hold block (min blockSize n))) cut w →
    Grows last inode n v cut w
  | exhausted {last inode n e u v} : n ≠ 0 → inode.size + n < wordLimit →
    blocksFor (inode.size + n) ≠ inode.usedBlocks → ¬inode.usedBlocks < slotsPerInode →
    inode.size ≤ inodeCapacity →
    Inode.alloc (v.store last { inode with size := inodeCapacity }) = (.error (.errno e), u) →
    Grows last inode n v (some e) u
  | extend {last inode n next cut u v w} : n ≠ 0 → inode.size + n < wordLimit →
    blocksFor (inode.size + n) ≠ inode.usedBlocks → ¬inode.usedBlocks < slotsPerInode →
    inode.size ≤ inodeCapacity →
    Inode.alloc (v.store last { inode with size := inodeCapacity }) = (.ok next, u) →
    Grows next {} (n - (inodeCapacity - inode.size))
      (u.store last { inode with size := inodeCapacity, next := some next }) cut w →
    Grows last inode n v cut w

variable {last n done a b h : Nat} {c : Inode} {u v w : Volume} {g : Growth} {l : Chain}

theorem grows_of_growFrom (hlast : last < inodeCount) (hw : growFrom last c n done v = (.ok g, w)) :
    Grows last c n v g.cut w := by
  induction last, c, n, done using growFrom.induct generalizing v
  case case1 =>
    rw [growFrom, if_pos rfl] at hw
    obtain ⟨hg, rfl⟩ := Prod.mk.inj hw
    obtain rfl := Except.ok.inj hg
    exact .done
  case case2 hz hlim =>
    rw [growFrom, if_neg hz, if_pos hlim] at hw
    cases hw
  case case3 hz hlim hroom =>
    rw [growFrom, if_neg hz, if_neg hlim, if_pos hroom, bind_of_ok (Inode.put_eq hlast ..)] at hw
    obtain ⟨hg, rfl⟩ := Prod.mk.inj hw
    obtain rfl := Except.ok.inj hg
    exact .fill hz (Nat.lt_of_not_le hlim) hroom
  case case4 hz hlim hroom hslot hi =>
    rw [growFrom, if_neg hz, if_neg hlim, if_neg hroom, if_pos hslot] at hw
    rcases ha : Block.alloc v with ⟨e | b, u⟩
    case error =>
      obtain ⟨rfl, rfl, -⟩ := (Block.alloc_ensures v).of_error ha
      rw [bind_of_ok (attempt_of_errno ha)] at hw
      obtain ⟨hg, rfl⟩ := Prod.mk.inj hw
      obtain rfl := Except.ok.inj hg
      exact .crowded hz (Nat.lt_of_not_le hlim) hroom hslot ha
    case ok =>
      rw [bind_of_ok (attempt_of_ok ha)] at hw
      dsimp only at hw
      rw [bind_of_ok (Inode.put_eq hlast ..)] at hw
      exact .hold hz (Nat.lt_of_not_le hlim) hroom hslot ha (hi b hlast hw)
  case case5 hz hlim hroom hslot hover =>
    rw [growFrom, if_neg hz, if_neg hlim, if_neg hroom, if_neg hslot, if_pos hover] at hw
    cases hw
  case case6 last c n done hz hlim hroom hslot hover room hi =>
    rw [growFrom, if_neg hz, if_neg hlim, if_neg hroom, if_neg hslot, if_neg hover,
      bind_of_ok (Inode.put_eq hlast ..)] at hw
    rcases ha : Inode.alloc (v.store last { c with size := inodeCapacity }) with ⟨e | j, u⟩
    case error =>
      obtain ⟨rfl, -⟩ := (Inode.alloc_ensures _).of_error ha
      rw [bind_of_ok (attempt_of_errno ha)] at hw
      obtain ⟨hg, rfl⟩ := Prod.mk.inj hw
      obtain rfl := Except.ok.inj hg
      exact .exhausted hz (Nat.lt_of_not_le hlim) hroom hslot (Nat.le_of_not_lt hover) ha
    case ok =>
      have hj := ((Inode.alloc_ensures _).of_ok ha).left
      rw [bind_of_ok (attempt_of_ok ha)] at hw
      dsimp only at hw
      rw [bind_of_ok (Inode.put_eq hlast ..)] at hw
      exact .extend hz (Nat.lt_of_not_le hlim) hroom hslot (Nat.le_of_not_lt hover) ha (hi j hj hw)

theorem Grows.growFrom_eq (hw : Grows last c n v none w) (hlast : last < inodeCount) :
    growFrom last c n done v = (.ok ⟨done + n, none⟩, w) := by
  generalize hcut : none = cut at hw
  induction hw generalizing done
  case crowded | exhausted => cases hcut
  case done => rw [growFrom, if_pos rfl]; rfl
  case fill hn hlim hroom =>
    rw [growFrom, if_neg hn, if_neg (Nat.not_le.mpr hlim), if_pos hroom,
      bind_of_ok (Inode.put_eq hlast ..)]
    rfl
  case hold last c n b cut u v w hn hlim hroom hslot ha _ hi =>
    rw [growFrom, if_neg hn, if_neg (Nat.not_le.mpr hlim), if_neg hroom, if_pos hslot,
      bind_of_ok (attempt_of_ok ha)]
    dsimp only
    rw [bind_of_ok (Inode.put_eq hlast ..), hi hlast hcut, Nat.add_assoc,
      Nat.add_sub_cancel' (Nat.min_le_right ..)]
  case extend last c n j cut u v w hn hlim hroom hslot hle ha _ hi =>
    have hj := ((Inode.alloc_ensures _).of_ok ha).left
    have hover : inodeCapacity - c.size < n := Inode.lt_of_not_room hroom hslot hle
    rw [growFrom, if_neg hn, if_neg (Nat.not_le.mpr hlim), if_neg hroom, if_neg hslot,
      if_neg (Nat.not_lt.mpr hle), bind_of_ok (Inode.put_eq hlast ..), bind_of_ok (attempt_of_ok ha)]
    dsimp only
    rw [bind_of_ok (Inode.put_eq hlast ..), hi hj hcut, Nat.add_assoc,
      Nat.add_sub_cancel' (Nat.le_of_lt hover)]

theorem Grows.within (hroom : blocksFor (c.size + n) = c.usedBlocks)
    (hslots : c.usedBlocks ≤ slotsPerInode) :
    Grows last c n (v.store last c) none (v.store last { c with size := c.size + n }) := by
  have hcap : c.size + n ≤ inodeCapacity := blocksFor_le_iff.mp (hroom ▸ hslots)
  by_cases hn : n = 0
  case pos =>
    subst hn
    have hc : { c with size := c.size + 0 } = c := rfl
    rw [hc]
    exact .done
  case neg =>
    rw [← store_store v last c { c with size := c.size + n }]
    exact .fill hn (by lia) hroom

theorem Grows.resize {d : Inode} {m : Nat} (hw : Grows last c m (v.store last c) none w)
    (hd : d = { c with size := d.size }) (hu : d.usedBlocks = c.usedBlocks)
    (hslots : c.usedBlocks ≤ slotsPerInode) (hsum : c.size + m = d.size + n) :
    Grows last d n (v.store last d) none w := by
  -- each step takes the same block or link for both, so what is left is less for both
  induction m using Nat.strongRecOn generalizing c d n v
  case ind m hi =>
    have hresize : ∀ s, { c with size := s } = { d with size := s } := fun s => by rw [hd]
    have hdslots : d.usedBlocks ≤ slotsPerInode := hu ▸ hslots
    cases hw
    case done =>
      have hroom : blocksFor (d.size + n) = d.usedBlocks := by rw [← hsum, hu]; rfl
      have hc : { d with size := d.size + n } = c := by rw [← hsum, ← hresize]; rfl
      have hw : Grows last d n (v.store last d) none _ := .within hroom hdslots
      rwa [hc] at hw
    case fill hroom =>
      rw [store_store, hresize, hsum]
      exact .within (by rw [← hsum, hroom, hu]) hdslots
    case hold b u hslot hn hlim hroom ha hw =>
      have hn' : n ≠ 0 := by
        rintro rfl
        exact hroom (by rw [hsum]; exact hu)
      have hroom' : blocksFor (d.size + n) ≠ d.usedBlocks := by rwa [← hsum, hu]
      have hcb := Inode.usedBlocks_hold (Nat.pos_of_ne_zero hn) hroom b
      have hdb := Inode.usedBlocks_hold (Nat.pos_of_ne_zero hn') hroom' b
      rw [Block.alloc_store] at ha
      have hb := congrArg Prod.fst ha
      obtain rfl := congrArg Prod.snd ha
      dsimp only at hb hw
      rw [store_store] at hw
      refine .hold hn' (hsum ▸ hlim) hroom' (hu ▸ hslot)
        ((Block.alloc_store v last d).trans (Prod.ext hb rfl)) ?_
      rw [store_store]
      refine hi (m - min blockSize m) (by lia) hw ?_ (by omega) (by omega) ?_
      case refine_1 => rw [Inode.hold, Inode.hold, hu, hd]
      case refine_2 => simp only [Inode.hold]; omega
    case extend j u hslot hle hn hlim hroom ha hw =>
      have hn' : n ≠ 0 := by
        rintro rfl
        exact hroom (by rw [hsum]; exact hu)
      have hroom' : blocksFor (d.size + n) ≠ d.usedBlocks := by rwa [← hsum, hu]
      have hdcap : d.size ≤ inodeCapacity := Inode.usedBlocks_le_iff.mp hdslots
      rw [store_store, hresize] at ha
      refine .extend hn' (hsum ▸ hlim) hroom' (hu ▸ hslot) hdcap (by rw [store_store, ha]) ?_
      have hnext : { c with size := inodeCapacity, next := some j } =
          { d with size := inodeCapacity, next := some j } := by rw [hd]
      rwa [hnext, show m - (inodeCapacity - c.size) = n - (inodeCapacity - d.size) by omega] at hw

-- The record of the last link is written anyway, unless nothing is done.
theorem Grows.restart (hw : Grows last c n v none w) (hn : n ≠ 0) :
    Grows last c n (v.store last c) none w := by
  cases hw
  case done => exact absurd rfl hn
  case fill _ hlim hroom =>
    rw [← store_store v last c { c with size := c.size + n }]
    exact .fill hn hlim hroom
  case hold b u hslot _ hlim hroom ha hw =>
    refine .hold hn hlim hroom hslot ((Block.alloc_store v last c).trans (by rw [ha])) ?_
    rwa [store_store]
  case extend j u hslot hle _ hlim hroom ha hw =>
    exact .extend hn hlim hroom hslot hle (by rw [store_store, ha]) hw

theorem Grows.split_within (hw : Grows last c (a + b) v none w) (hv : v.Walks h (l ++ [(last, c)]))
    (hn : c.next = none) (hf : c.WellFormed) (hroom : blocksFor (c.size + a) = c.usedBlocks) :
    ∃ u k i d, Grows last c a v none u ∧ u.Walks h (k ++ [(i, d)]) ∧ Grows i d b u none w := by
  by_cases ha : a = 0
  case pos =>
    subst ha
    exact ⟨v, l, last, c, .done, hv, Nat.zero_add b ▸ hw⟩
  case neg =>
    have hc : v.link? last = some c := hv.links last c (by simp)
    have hcap : c.size + a ≤ inodeCapacity := blocksFor_le_iff.mp (hroom ▸ hf.usedBlocks_le)
    have r := relinked_store (v := v) (by rw [hc]; rfl) ((storable_of_link? hc).resize hcap)
    have hu := hv.revise (d := { c with size := c.size + a }) hn r.links
    refine ⟨_, l, last, _, .fill ha (by lia) hroom, hu, ?_⟩
    exact (hw.restart (by omega)).resize rfl hroom hf.usedBlocks_le (Nat.add_assoc ..).symm

theorem walks_hold {x len : Nat} (hv : v.Walks h (l ++ [(last, c)])) (hn : c.next = none)
    (hslot : c.usedBlocks < slotsPerInode) (hu : (c.hold x len).usedBlocks = c.usedBlocks + 1)
    (ha : Block.alloc v = (.ok x, u)) :
    (u.store last (c.hold x len)).Walks h (l ++ [(last, c.hold x len)]) ∧
      ∀ i, v.inodeTaken i → v.Retains (u.store last (c.hold x len)) i := by
  have hc : v.link? last = some c := hv.links last c (by simp)
  have ⟨_, hx, _, _, ru⟩ := (Block.alloc_ensures v).of_ok ha
  have hcu : u.link? last = some c := ru.links ▸ hc
  have hcap : c.size + len ≤ inodeCapacity :=
    (Inode.usedBlocks_le_iff (c := c.hold x len)).mp (by omega)
  have hst := (storable_of_link? hcu).hold hslot hx hcap
  have r := relinked_store (by rw [hcu]; rfl) hst
  have hlinks := r.links
  rw [ru.links] at hlinks
  exact ⟨hv.revise (d := c.hold x len) hn hlinks, fun i => .update hc hlinks rfl rfl⟩

theorem walks_extend {j : Nat} (hv : v.Walks h (l ++ [(last, c)]))
    (hf : c.WellFormed) (hslot : ¬c.usedBlocks < slotsPerInode)
    (ha : Inode.alloc (v.store last { c with size := inodeCapacity }) = (.ok j, u)) :
    (u.store last { c with size := inodeCapacity, next := some j }).Walks h
        (l ++ [(last, { c with size := inodeCapacity, next := some j })] ++ [(j, ({} : Inode))]) ∧
      ∀ i, v.inodeTaken i →
        v.Retains (u.store last { c with size := inodeCapacity, next := some j }) i := by
  have hc : v.link? last = some c := hv.links last c (by simp)
  have hst := (storable_of_link? hc).resize (Nat.le_refl inodeCapacity)
  have hblk : blocksFor inodeCapacity = c.usedBlocks := by
    rw [Nat.le_antisymm hf.usedBlocks_le (Nat.le_of_not_lt hslot)]
    decide
  have r := relinked_store (v := v) (by rw [hc]; rfl) hst
  have ⟨hj, hfree, _, ru⟩ := (Inode.alloc_ensures _).of_ok ha
  have hne : last ≠ j := by
    rintro rfl
    simp [r.links] at hfree
  have hcu : u.link? last = some { c with size := inodeCapacity } := by
    rw [ru.links, Function.update_of_ne hne, r.links, Function.update_self]
  have hst' := hst.relink (some j) (by simpa using hj)
  have hlinks := (relinked_store (by rw [hcu]; rfl) hst').links
  rw [ru.links, r.links, Function.update_comm hne, Function.update_idem] at hlinks
  rw [r.links, Function.update_of_ne (Ne.symm hne)] at hfree
  have hnew : (u.store last { c with size := inodeCapacity, next := some j }).link? j = some {} := by
    rw [hlinks, Function.update_of_ne (Ne.symm hne), Function.update_self]
  have e := Extends.relink hc hfree hlinks rfl (Nat.add_sub_cancel' hf.bounded).symm
    (by rw [← Inode.owned_resize hblk]; exact List.prefix_rfl) (.refl hnew rfl)
  rw [List.append_assoc]
  refine ⟨e.walks_append hv, fun i hi => ?_⟩
  by_cases hil : i = last
  case pos =>
    subst hil
    exact ⟨c, _, hc, (congrFun hlinks _).trans (Function.update_self ..), rfl, rfl⟩
  case neg =>
    have hij : i ≠ j := by
      rintro rfl
      simp [← isSome_link?, hfree] at hi
    exact .of_link? hi (by rw [hlinks, Function.update_of_ne hil, Function.update_of_ne hij])

-- Wherever growth is interrupted, the walk of the file leads to a last link from which it goes on.
theorem Grows.split (hw : Grows last c (a + b) v none w) (hv : v.Walks h (l ++ [(last, c)]))
    (hn : c.next = none) (hf : c.WellFormed) :
    ∃ u k i d, Grows last c a v none u ∧ u.Walks h (k ++ [(i, d)]) ∧ Grows i d b u none w := by
  generalize hsum : a + b = n at hw
  generalize hcut : none = cut at hw
  induction hw generalizing a l
  case crowded | exhausted => cases hcut
  case done last c v =>
    obtain ⟨rfl, rfl⟩ : a = 0 ∧ b = 0 := by omega
    exact Grows.split_within .done hv hn hf rfl
  case fill last c n v hz hlim hroom =>
    subst hsum
    exact Grows.split_within (.fill hz hlim hroom) hv hn hf (Inode.fits_of_add hroom)
  case hold last c n x cut u v w hz hlim hroom hslot ha hw hi =>
    subst hsum hcut
    by_cases hra : blocksFor (c.size + a) = c.usedBlocks
    case pos => exact Grows.split_within (.hold hz hlim hroom hslot ha hw) hv hn hf hra
    have hz : a ≠ 0 := fun ha => hra (ha ▸ rfl)
    have hua := Inode.usedBlocks_hold (Nat.pos_of_ne_zero hz) hra x
    have hub := Inode.usedBlocks_hold (by omega) hroom x
    have first : ∀ y, _ → Grows last c a v none y := fun y => .hold hz (by omega) hra hslot ha
    by_cases hlen : a < blockSize
    case pos =>
      -- the first stage ends inside of the block that has just been taken
      rw [Nat.min_eq_right (Nat.le_of_lt hlen)] at hua first
      refine ⟨_, l, last, _, first _ (Nat.sub_self a ▸ .done), (walks_hold hv hn hslot hua ha).left, ?_⟩
      exact hw.resize rfl (hua.trans hub.symm) (by omega) (by simp only [Inode.hold]; omega)
    case neg =>
      rw [Nat.min_eq_left (by omega)] at hw hi hub hua first
      obtain ⟨y, k, i, d, hy, hk, hyw⟩ := hi (walks_hold hv hn hslot hub ha).left hn
        (hf.hold hslot hub hn) (Nat.sub_add_comm (by omega)).symm rfl
      exact ⟨y, k, i, d, first y hy, hk, hyw⟩
  case extend last c n j cut u v w hz hlim hroom hslot hle ha hw hi =>
    subst hsum hcut
    by_cases hra : blocksFor (c.size + a) = c.usedBlocks
    case pos => exact Grows.split_within (.extend hz hlim hroom hslot hle ha hw) hv hn hf hra
    have hz : a ≠ 0 := fun ha => hra (ha ▸ rfl)
    have hover : inodeCapacity - c.size < a := Inode.lt_of_not_room hra hslot hle
    obtain ⟨y, k, i, d, hy, hk, hyw⟩ := hi (walks_extend hv hf hslot ha).left rfl .default
      (Nat.sub_add_comm (Nat.le_of_lt hover)).symm rfl
    exact ⟨y, k, i, d, .extend hz (by omega) hra hslot hle ha hy, hk, hyw⟩

theorem Grows.retains {cut : Option Errno} (hw : Grows last c n v cut w)
    (hv : v.Walks h (l ++ [(last, c)])) (hn : c.next = none) (hf : c.WellFormed) :
    ∀ i, v.inodeTaken i → v.Retains w i := by
  induction hw generalizing l
  case done | crowded => exact fun i => .refl
  case fill last c n v hz hlim hroom =>
    have hc : v.link? last = some c := hv.links last c (by simp)
    have hcap : c.size + n ≤ inodeCapacity := blocksFor_le_iff.mp (hroom ▸ hf.usedBlocks_le)
    have r := relinked_store (v := v) (by rw [hc]; rfl) ((storable_of_link? hc).resize hcap)
    exact fun i => .update hc r.links rfl rfl
  case hold last c n x cut u v w hz hlim hroom hslot ha _ hi =>
    have hu := Inode.usedBlocks_hold (Nat.pos_of_ne_zero hz) hroom x
    have ⟨hv', hk⟩ := walks_hold hv hn hslot hu ha
    exact fun i h => (hk i h).trans (hi hv' hn (hf.hold hslot hu hn) i (hk i h).taken_after)
  case exhausted last c n e u v hz hlim hroom hslot hle ha =>
    have hc : v.link? last = some c := hv.links last c (by simp)
    have hst := (storable_of_link? hc).resize (Nat.le_refl inodeCapacity)
    have r := relinked_store (v := v) (by rw [hc]; rfl) hst
    rw [(Inode.alloc_record _).of_error ha]
    exact fun i => .update hc r.links rfl rfl
  case extend last c n j cut u v w hz hlim hroom hslot hle ha _ hi =>
    have ⟨hv', hk⟩ := walks_extend hv hf hslot ha
    exact fun i h => (hk i h).trans (hi hv' rfl .default i (hk i h).taken_after)

theorem Grows.record {cut : Option Errno} {i : Nat} (hw : Grows last c n v cut w)
    (hi : v.inodeTaken i) (hne : i ≠ last) : w.record i = v.record i := by
  induction hw
  case done | crowded => rfl
  case fill => exact record_store_of_ne hne
  case hold last c n x cut u v w hz hlim hroom hslot ha _ ih =>
    have ⟨_, _, _, _, ru⟩ := (Block.alloc_ensures v).of_ok ha
    have hu : u.inodeTaken i := by rwa [← isSome_link?, ru.links, isSome_link?]
    rw [ih (by rwa [inodeTaken_store]) hne, record_store_of_ne hne, (Block.alloc_record v).of_ok ha]
  case exhausted last c n e u v hz hlim hroom hslot hle ha =>
    rw [(Inode.alloc_record _).of_error ha, record_store_of_ne hne]
  case extend last c n j cut u v w hz hlim hroom hslot hle ha _ ih =>
    have ⟨_, hfree, _, ru⟩ := (Inode.alloc_ensures _).of_ok ha
    rw [← inodeTaken_store v last { c with size := inodeCapacity }, ← isSome_link?] at hi
    have hij : i ≠ j := by
      rintro rfl
      simp [hfree] at hi
    have hu : u.inodeTaken i := by rwa [← isSome_link?, ru.links, Function.update_of_ne hij]
    rw [ih (by rwa [inodeTaken_store]) hij, record_store_of_ne hne,
      (Inode.alloc_record _).of_ok ha i hij, record_store_of_ne hne]

section

variable {before : List Link} {link : Link} {b : Nat}

theorem shrinkFrom_cut (hr : n ≠ 0) (hz : c.size = 0) (hu : cutLink link last v = (.ok (), u)) :
    shrinkFrom (link :: before) last c n v =
      shrinkFrom before link.1 { link.2 with next := none } n u := by
  rw [shrinkFrom, if_neg hr, if_pos hz]
  exact bind_of_ok hu _

theorem shrinkFrom_keep (hlast : last < inodeCount) (hr : n ≠ 0) (hz : c.size ≠ 0)
    (hroom : n < c.size ∧ blocksFor (c.size - n) = c.usedBlocks) :
    shrinkFrom before last c n v = (.ok 0, v.store last { c with size := c.size - n }) := by
  rw [shrinkFrom.eq_def, if_neg hr, if_neg hz, if_pos hroom]
  exact bind_of_ok (Inode.put_eq hlast ..) _

def shrinkOn (before : List Link) (last : Nat) (c : Inode) (n : Nat) : VolumeM Nat :=
  match before with
  | [] => shrinkFrom [] last c n
  | link :: before =>
    if c.size = 0 then do
      cutLink link last
      shrinkFrom before link.1 { link.2 with next := none } n
    else shrinkFrom (link :: before) last c n

theorem shrinkFrom_drop (hr : n ≠ 0) (hz : c.size ≠ 0)
    (hroom : ¬(n < c.size ∧ blocksFor (c.size - n) = c.usedBlocks))
    (hslot : c.usedBlocks - 1 < slotsPerInode)
    (hu : (do freeSlot c.blocks[c.usedBlocks - 1]; Inode.put last c.drop) v = (.ok (), u)) :
    shrinkFrom before last c n v = shrinkOn before last c.drop (n - c.held) u := by
  rw [shrinkFrom.eq_def, if_neg hr, if_neg hz, if_neg hroom, dif_pos hslot, ← bind_assoc]
  rw [bind_of_ok hu]
  cases before <;> rfl

theorem dropBlock_store {d : Inode} (hlast : last < inodeCount) (hd : d = { c with size := d.size })
    (hu : d.usedBlocks = c.usedBlocks) (hc : c.usedBlocks - 1 < slotsPerInode)
    (hslot : d.usedBlocks - 1 < slotsPerInode)
    (hw : (do freeSlot c.blocks[c.usedBlocks - 1]; Inode.put last c.drop) v = (.ok (), w)) :
    (do freeSlot d.blocks[d.usedBlocks - 1]; Inode.put last d.drop) (v.store last d) = (.ok (), w) := by
  have hblock : d.slot (c.usedBlocks - 1) = c.slot (c.usedBlocks - 1) := by
    rw [hd]
    rfl
  rw [← Inode.slot_of_lt hc] at hw
  rw [← Inode.slot_of_lt hslot, hu, hblock, Inode.drop_resize hd hu]
  rcases hx : freeSlot (c.slot (c.usedBlocks - 1)) v with ⟨e | _, x⟩
  case error =>
    rw [bind_of_error hx] at hw
    cases hw
  case ok =>
    rw [bind_of_ok hx, Inode.put_eq hlast] at hw
    rw [bind_of_ok ((freeSlot_store ..).trans (by rw [hx])), Inode.put_eq hlast]
    dsimp only
    rwa [store_store]

theorem shrinkFrom_resume (hb : b ≠ 0) (hw : v.Walks h (before.reverse ++ [(last, c)]))
    (hs : v.Stands (before.reverse ++ [(last, c)])) (hn : c.next = none)
    (hroom : a < c.size ∧ blocksFor (c.size - a) = c.usedBlocks) :
    shrinkFrom before last { c with size := c.size - a } b
        (v.store last { c with size := c.size - a }) =
      shrinkFrom before last c (a + b) v := by
  have hz : c.size ≠ 0 := by omega
  have hlast := lt_of_link? (hw.links last c (by simp))
  have hcf : c.WellFormed := hs.formed (last, c) (by simp)
  generalize hd : { c with size := c.size - a } = d
  have hds : d.size = c.size - a := by rw [← hd]
  have hdu : d.usedBlocks = c.usedBlocks := by rw [Inode.usedBlocks, hds, hroom.right]
  have hsub : d.size - b = c.size - (a + b) := by rw [hds, Nat.sub_sub]
  by_cases hroom' : a + b < c.size ∧ blocksFor (c.size - (a + b)) = c.usedBlocks
  case pos =>
    rw [shrinkFrom_keep hlast (by omega) hz hroom',
      shrinkFrom_keep hlast hb (by omega) (by rw [hsub, hdu, hds]; exact ⟨by omega, hroom'.right⟩),
      store_store, hsub, ← hd]
  case neg =>
    have hslot := hcf.last_slot_lt hz
    obtain ⟨_, x, hx, _⟩ := (dropBlock_loses hw hs hn hz hslot).exists_ok
    have hdx := dropBlock_store hlast (by rw [← hd]) hdu hslot (hdu ▸ hslot) hx
    have hheld : b - d.held = a + b - c.held := by
      have := Inode.held_resize hds hdu hroom.left
      omega
    rw [shrinkFrom_drop (by omega) hz hroom' hslot hx,
      shrinkFrom_drop hb (by omega) (by rw [hsub, hdu, hds]; omega) (hdu ▸ hslot) hdx, hheld,
      Inode.drop_resize hd.symm hdu]

-- Shrinkage that is interrupted goes on where it would have been without that, from the last link to
-- which the walk of the file leads then.
theorem shrinkFrom_split (hrun : shrinkFrom before last c a v = (.ok 0, u)) (hb : b ≠ 0)
    (hw : v.Walks h (before.reverse ++ [(last, c)])) (hs : v.Stands (before.reverse ++ [(last, c)]))
    (hn : c.next = none) :
    ∃ k i d, u.Walks h (k ++ [(i, d)]) ∧
      shrinkFrom k.reverse i d b u = shrinkFrom before last c (a + b) v := by
  induction before, last, c, a using shrinkFrom.induct generalizing v
  case case1 before last c =>
    rw [shrinkFrom.eq_def, if_pos rfl] at hrun
    obtain rfl := (Prod.mk.inj hrun).right
    exact ⟨_, last, c, hw, by rw [List.reverse_reverse, Nat.zero_add]⟩
  case case2 hr hz =>
    rw [shrinkFrom.eq_def, if_neg hr, if_pos hz] at hrun
    exact absurd (Except.ok.inj (Prod.mk.inj hrun).left) hr
  case case3 last c a hr hz link before hi =>
    rw [List.reverse_cons] at hw hs
    obtain ⟨_, x, hx, t⟩ := (cutLink_loses hw hs.formed hn hz).exists_ok
    rw [shrinkFrom_cut hr hz hx] at hrun
    rw [shrinkFrom_cut (by omega) hz hx]
    exact hi hrun t.walks (t.back.stands_back t.formed hs) rfl
  case case4 before last c a hr hz hroom =>
    have hc := hw.links last c (by simp)
    have hcf : c.WellFormed := hs.formed (last, c) (by simp)
    have hcap : c.size - a ≤ inodeCapacity := Nat.le_trans (Nat.sub_le ..) hcf.bounded
    have r := relinked_store (v := v) (by rw [hc]; rfl) ((storable_of_link? hc).resize hcap)
    rw [shrinkFrom_keep (lt_of_link? hc) hr hz hroom] at hrun
    obtain rfl := (Prod.mk.inj hrun).right
    refine ⟨before.reverse, last, _, hw.revise (d := { c with size := c.size - a }) hn r.links, ?_⟩
    rw [List.reverse_reverse]
    exact shrinkFrom_resume hb hw hs hn hroom
  case case5 before last c a hr hz hroom hslot hi =>
    have hroom' : ¬(a + b < c.size ∧ blocksFor (c.size - (a + b)) = c.usedBlocks) :=
      mt Inode.stays_of_add hroom
    -- the second stage is still to come when the slot is given up
    have hsum : a + b - c.held = a - c.held + b := Nat.sub_add_comm (Inode.held_le hroom)
    obtain ⟨_, x, hx, y, t⟩ := (dropBlock_loses hw hs hn hz hslot).exists_ok
    have hs := t.back.stands_back t.formed hs
    rw [shrinkFrom_drop hr hz hroom hslot hx] at hrun
    rw [shrinkFrom_drop (by omega) hz hroom' hslot hx, hsum]
    cases before
    case nil => exact hi hrun t.walks hs hn
    case cons link before =>
      rw [shrinkOn] at hrun ⊢
      dsimp only at hrun ⊢
      by_cases hd : c.drop.size = 0
      case neg =>
        rw [if_neg hd] at hrun ⊢
        exact hi.right hrun t.walks hs hn
      case pos =>
        have hw := t.walks
        rw [List.reverse_cons] at hw hs
        obtain ⟨_, z, hz, t'⟩ := (cutLink_loses hw hs.formed hn hd).exists_ok
        rw [if_pos hd, bind_of_ok hz] at hrun ⊢
        exact hi.left hrun t'.walks (t'.back.stands_back t'.formed hs) rfl
  case case6 before last c a hr hz hroom hslot =>
    rw [shrinkFrom.eq_def, if_neg hr, if_neg hz, if_neg hroom, dif_neg hslot] at hrun
    cases hrun

end

theorem grow_eq (hv : v.Walks h (l ++ [(last, c)])) (n : Nat) :
    grow h n v = growFrom last c n 0 v := by
  by_cases hn : n = 0
  case pos => rw [grow, if_pos hn, growFrom, if_pos hn]
  case neg =>
    have hlast : query (·.lastLink h) v = (.ok ((last, c), l.reverse), v) := by
      rw [query, hv.lastLink_eq]
    rw [grow, if_neg hn, bind_of_ok (attempt_of_ok hlast)]

theorem shrink_eq (hv : v.Walks h (l ++ [(last, c)])) (n : Nat) :
    shrink h n v = ((n - ·) <$> shrinkFrom l.reverse last c n) v := by
  by_cases hn : n = 0
  case pos =>
    subst hn
    rw [shrink, if_pos rfl, shrinkFrom.eq_def, if_pos rfl]
    rfl
  case neg =>
    have hlast : query (·.lastLink h) v = (.ok ((last, c), l.reverse), v) := by
      rw [query, hv.lastLink_eq]
    rw [shrink, if_neg hn, bind_of_ok hlast, ← bind_pure_comp]

end File

namespace Volume

structure Staged (v : Volume) (h size : Nat) : Prop where
  grow   : ∀ a b g w, File.grow h (a + b) v = (.ok g, w) → g.cut = none →
    g.grown = a + b ∧ ∃ u, File.grow h a v = (.ok ⟨a, none⟩, u) ∧ File.grow h b u = (.ok ⟨b, none⟩, w)
  shrink : ∀ a b, 0 < a → 0 < b → a + b ≤ size →
    ∃ u w, File.shrink h a v = (.ok a, u) ∧ File.shrink h b u = (.ok b, w) ∧
      File.shrink h (a + b) v = (.ok (a + b), w)

-- Wherever growth or shrinkage of a file is split in two, the volume is the same in the end, to the
-- last byte: the same blocks lie in the same slots, and the same inodes have been taken or given
-- back.
theorem Consistent.staged {v : Volume} {h size : Nat} (c : v.Consistent) (hh : v.Head h)
    (hs : v.fileSize h = .ok size) : v.Staged h size := by
  have ⟨l, hl, hstands⟩ := c.exists_chain hh
  obtain rfl := Except.ok.inj (hl.fileSize_eq.symm.trans hs)
  have ⟨k, last, d, hk, hn⟩ := hl.exists_last
  subst hk
  have hlast := lt_of_link? (hl.links last d (by simp))
  have hd : d.WellFormed := hstands.formed (last, d) (by simp)
  constructor
  case grow =>
    intro a b g w hg hcut
    rw [File.grow_eq hl] at hg
    have hw := hcut ▸ File.grows_of_growFrom hlast hg
    have hgrown := (Prod.mk.inj (hg.symm.trans (hw.growFrom_eq hlast))).left
    have ⟨u, m, i, e, hu, hm, huw⟩ := hw.split hl hn hd
    refine ⟨?_, u, ?_, ?_⟩
    case refine_1 => rw [Except.ok.inj hgrown, Nat.zero_add]
    case refine_2 => rw [File.grow_eq hl, hu.growFrom_eq hlast, Nat.zero_add]
    case refine_3 =>
      have hi := lt_of_link? (hm.links i e (by simp))
      rw [File.grow_eq hm, huw.growFrom_eq hi, Nat.zero_add]
  case shrink =>
    intro a b ha hb hle
    rw [← k.reverse_reverse] at hl hstands hle
    have ⟨x, u, hu, hx⟩ := (File.shortensFrom k.reverse last d a v h hl hstands hn).exists_ok
    have ⟨y, w, hw, hy⟩ := (File.shortensFrom k.reverse last d (a + b) v h hl hstands hn).exists_ok
    obtain rfl : x = 0 := by have := hx.eq; omega
    obtain rfl : y = 0 := by have := hy.eq; omega
    have ⟨m, i, e, hm, he⟩ := File.shrinkFrom_split (b := b) hu (by omega) hl hstands hn
    rw [hw] at he
    refine ⟨u, w, ?_, ?_, ?_⟩
    case refine_1 => rw [File.shrink_eq hl, ← bind_pure_comp, List.reverse_reverse, bind_of_ok hu]; rfl
    case refine_2 => rw [File.shrink_eq hm, ← bind_pure_comp, bind_of_ok he]; rfl
    case refine_3 => rw [File.shrink_eq hl, ← bind_pure_comp, List.reverse_reverse, bind_of_ok hw]; rfl

theorem staged_fresh :
    ∃ u w x y, (fresh.Consistent ∧ fresh.Head rootInode ∧ fresh.fileSize rootInode = .ok 128 ∧
      w.Consistent ∧ w.Head rootInode ∧ w.fileSize rootInode = .ok 30128) ∧
      fresh.Staged rootInode 128 ∧ File.grow rootInode (20000 + 10000) fresh = (.ok ⟨30000, none⟩, w) ∧
      File.grow rootInode 20000 fresh = (.ok ⟨20000, none⟩, u) ∧
      File.grow rootInode 10000 u = (.ok ⟨10000, none⟩, w) ∧
      w.Staged rootInode 30128 ∧ File.shrink rootInode 9000 w = (.ok 9000, x) ∧
      File.shrink rootInode 8000 x = (.ok 8000, y) ∧
      File.shrink rootInode (9000 + 8000) w = (.ok 17000, y) := by
  have c := holds_fresh.consistent
  have hh := holds_fresh.head_root
  have ⟨d, w, m, _, _, hw, t, hm, hg⟩ := holds_fresh.grow_root (n := 20000 + 10000) (by decide)
  have hsize : fresh.fileSize rootInode = .ok 128 :=
    (holds_fresh.fileSize (Function.update_self ..)).trans (congrArg _ (Entries.length_bytes _))
  have hsize' : w.fileSize rootInode = .ok 30128 := t.walks.fileSize_eq.trans (congrArg _ hm)
  have c' := c.gains hh hw t
  have hh' := (t.head_iff hw).mpr hh
  have s := c.staged hh hsize
  have s' := c'.staged hh' hsize'
  have ⟨_, u, hu, huw⟩ := s.grow _ _ _ _ hg rfl
  have ⟨x, y, hx, hy, hxy⟩ := s'.shrink 9000 8000 (by decide) (by decide) (by decide)
  exact ⟨u, w, x, y, ⟨c, hh, hsize, c', hh', hsize'⟩, s, hg, hu, huw, s', hx, hy, hxy⟩

end Volume
end InodeVolume
