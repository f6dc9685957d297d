import InodeVolume.Proofs.File.Liveness

namespace InodeVolume

open VolumeM Volume

variable {first : Option Nat} {v w : Volume} {h last : Nat} {l m : Chain} {c d : Inode}

theorem Block.free_keeps (v : Volume) (b : Nat) :
    (free b).Ensures v (fun _ w => w.link? = v.link?) (fun _ w => w = v) := by
  rw [free, ensures_bind, ensures_look]
  by_cases hb : reservedBlocks ≤ b ∧ v.blockTaken b
  case neg =>
    rw [if_neg hb]
    exact rfl
  case pos =>
    rw [if_pos hb]
    exact (relinked_setBlockBit v (lt_of_blockTaken hb.right) false).links

namespace File

variable {link : Link}

theorem freeSlot_keeps (v : Volume) (slot : Option Nat) :
    (freeSlot slot).Ensures v (fun _ w => w.link? = v.link?) (fun _ w => w = v) := by
  cases slot
  case none   => exact rfl
  case some b => exact Block.free_keeps v b

theorem cutLink_sheds (t : v.Tended first) (hw : v.Walks h (l ++ [link] ++ [(last, c)]))
    (hn : c.next = none) (hz : c.size = 0) :
    (cutLink link last).Ensures v
      (fun _ w => v.Sheds first w ∧ w.Walks h (l ++ [(link.1, { link.2 with next := none })]))
      Never := by
  obtain ⟨j, d⟩ := link
  have hd := hw.links j d (by simp)
  have hc := hw.links last c (by simp)
  have hne : last ≠ j := fun e => hw.last_not_mem (by simp [e])
  rw [cutLink, ensures_bind]
  apply (Inode.put_ensures (by rw [hd]; rfl) ((storable_of_link? hd).relink none nofun)).mono_ok
  intro _ u ru
  have hcu : u.link? last = some c := by rw [ru.links, Function.update_of_ne hne, hc]
  have s : v.Sheds first u := .update t hd ((t j d hd).relink none nofun) (Nat.le_refl _)
    (fun _ _ => rfl) ru.links
  apply (Inode.free_ensures hcu (Inode.isEmpty_of_size (t last c hc).wellFormed hz hn)).mono_ok
  intro _ x rx
  exact ⟨s.trans (.remove s.tended rx.links), hw.cut (ru.links ▸ rx.links)⟩

-- Whether shrinkage gets to its end or not, nothing comes into use by it.
def ShedsFrom (first : Option Nat) (before : List Link) (last : Nat) (inode : Inode)
    (remaining : Nat) : Prop :=
  ∀ (v : Volume) (h : Nat), v.Tended first → v.Walks h (before.reverse ++ [(last, inode)]) →
    inode.next = none →
    (shrinkFrom before last inode remaining).Ensures v (fun _ w => v.Sheds first w)
      fun _ w => v.Sheds first w

theorem shedsFrom (first : Option Nat) (before : List Link) (last : Nat) (inode : Inode)
    (remaining : Nat) : ShedsFrom first before last inode remaining := by
  -- two cases cut a link off, and go on from the one before it
  have cut : ∀ {link : Link} {before : List Link} {last : Nat} {inode : Inode} {remaining : Nat}
      {v : Volume} {h : Nat},
      ShedsFrom first before link.1 { link.2 with next := none } remaining → v.Tended first →
      v.Walks h ((link :: before).reverse ++ [(last, inode)]) → inode.next = none → inode.size = 0 →
      (do cutLink link last
          shrinkFrom before link.1 { link.2 with next := none } remaining).Ensures v
        (fun _ w => v.Sheds first w) fun _ w => v.Sheds first w := by
    intro link before last inode remaining v h hi t hw hn hz
    rw [List.reverse_cons] at hw
    rw [ensures_bind]
    apply (cutLink_sheds t hw hn hz).mono_never
    intro _ u ⟨s, hu⟩
    exact (hi u h s.tended hu rfl).mono (fun _ _ => s.trans) fun _ _ => s.trans
  induction before, last, inode, remaining using shrinkFrom.induct
  case case1 =>
    intro v h t hw hn
    rw [shrinkFrom.eq_def, if_pos rfl]
    exact .refl t
  case case2 hr hz =>
    intro v h t hw hn
    rw [shrinkFrom.eq_def, if_neg hr, if_pos hz]
    exact .refl t
  case case3 hr hz link before hi =>
    intro v h t hw hn
    rw [shrinkFrom, if_neg hr, if_pos hz]
    exact cut hi t hw hn hz
  case case4 before last inode remaining hr hz hroom =>
    intro v h t hw hn
    have hc := hw.links last inode (by simp)
    have s := t last inode hc
    have hle : inode.size - remaining ≤ inodeCapacity :=
      Nat.le_trans (Nat.sub_le ..) s.wellFormed.bounded
    rw [shrinkFrom.eq_def, if_neg hr, if_neg hz, if_pos hroom, ensures_bind]
    apply (Inode.put_ensures (by rw [hc]; rfl) ((storable_of_link? hc).resize hle)).mono_never
    intro _ w r
    exact .update t hc (s.resize hle hroom.right hn) (Nat.sub_le ..) (fun _ _ => rfl) r.links
  case case5 before last inode remaining hr hz hroom hslot hi =>
    intro v h t hw hn
    have hc := hw.links last inode (by simp)
    have s := t last inode hc
    rw [shrinkFrom.eq_def, if_neg hr, if_neg hz, if_neg hroom, dif_pos hslot, ensures_bind]
    apply (freeSlot_keeps v _).mono
    case he =>
      rintro _ _ rfl
      exact .refl t
    intro _ u hu
    have hcu : u.link? last = some inode := hu ▸ hc
    rw [ensures_bind]
    apply (Inode.put_ensures (by rw [hcu]; rfl) (storable_of_link? hcu).drop).mono_never
    intro _ x rx
    have hx : x.link? = Function.update v.link? last (some inode.drop) := hu ▸ rx.links
    -- the slots that stay in use keep their blocks
    have sx : v.Sheds first x := by
      refine .update t hc (s.drop hn) (Nat.le_of_lt (Inode.drop_size_lt hz)) (fun k hk => ?_) hx
      rw [Inode.usedBlocks_drop] at hk
      rw [Inode.slot_drop, if_neg (by omega)]
    have hwx := hw.revise (d := inode.drop) hn hx
    cases before
    case nil => exact (hi x h sx.tended hwx hn).mono (fun _ _ => sx.trans) fun _ _ => sx.trans
    case cons link before =>
      dsimp only
      split
      case isTrue hd =>
        exact (cut hi.left sx.tended hwx hn hd).mono (fun _ _ => sx.trans) fun _ _ => sx.trans
      case isFalse =>
        exact (hi.right x h sx.tended hwx hn).mono (fun _ _ => sx.trans) fun _ _ => sx.trans
  case case6 hr hz hroom hslot =>
    intro v h t hw hn
    rw [shrinkFrom.eq_def, if_neg hr, if_neg hz, if_neg hroom, dif_neg hslot]
    exact .refl t

theorem shrink_sheds (t : v.Tended first) (h n : Nat) :
    (shrink h n).Ensures v (fun _ w => v.Sheds first w) fun _ w => v.Sheds first w := by
  rw [shrink]
  split
  case isTrue => exact .refl t
  case isFalse =>
    rw [ensures_bind]
    cases hl : v.chain h
    case error e =>
      rw [ensures_query_error (lastLink_error hl)]
      exact .refl t
    case ok l =>
      have hw := chain_eq_ok_iff.mp hl
      have ⟨k, last, inode, hk, hn⟩ := hw.exists_last
      subst hk
      rw [ensures_query_ok hw.lastLink_eq]
      dsimp only
      rw [ensures_bind]
      exact shedsFrom first k.reverse last inode n v h t (by rwa [List.reverse_reverse]) hn

end File

namespace Volume

structure Extends (v w : Volume) (last : Nat) (c : Inode) (m : Chain) (n : Nat) : Prop where
  walks  : w.Walks last m
  others : ∀ i ∉ m.numbers, w.link? i = v.link? i
  fresh  : ∀ i ∈ m.numbers, i = last ∨ v.link? i = none
  size   : m.size = c.size + n
  blocks : c.owned <+: m.blocks

namespace Extends

variable {u : Volume} {i j n k : Nat}

theorem refl (hc : v.link? last = some c) (hn : c.next = none) :
    v.Extends v last c [(last, c)] 0 where
  walks  := by
    refine ⟨fun i d hm => ?_, rfl, hn⟩
    obtain ⟨rfl, rfl⟩ := Prod.mk.inj (List.mem_singleton.mp hm)
    exact hc
  others := fun _ _ => rfl
  fresh  := fun i hi => .inl (List.mem_singleton.mp hi)
  size   := rfl
  blocks := by simp

theorem revise (hu : u.link? = Function.update v.link? last (some d)) (hs : d.size = c.size + k)
    (hb : c.owned <+: d.owned) (e : u.Extends w last d m n) : v.Extends w last c m (k + n) where
  walks  := e.walks
  others := by
    intro i hi
    have hne : i ≠ last := fun h => hi (h ▸ e.walks.head_mem)
    rw [e.others i hi, hu, Function.update_of_ne hne]
  fresh  := by
    intro i hi
    refine (e.fresh i hi).imp_right fun h => ?_
    rw [hu, Function.update_apply] at h
    split at h
    case isTrue  => contradiction
    case isFalse => exact h
  size   := by rw [e.size, hs, Nat.add_assoc]
  blocks := hb.trans e.blocks

theorem relink (hc : v.link? last = some c) (hj : v.link? j = none)
    (hu : u.link? = Function.update (Function.update v.link? j (some {})) last (some d))
    (hd : d.next = some j) (hs : d.size = c.size + k) (hb : c.owned <+: d.owned)
    (e : u.Extends w j {} m n) : v.Extends w last c ((last, d) :: m) (k + n) := by
  have hne : last ≠ j := by
    rintro rfl
    simp [hj] at hc
  have hlast : last ∉ m.numbers := by
    intro hm
    cases e.fresh last hm
    case inl h => exact hne h
    case inr h => simp [hu] at h
  constructor
  case walks =>
    refine ⟨fun i x hm => ?_, rfl, hd ▸ e.walks.leads⟩
    cases List.mem_cons.mp hm
    case inr hm => exact e.walks.links i x hm
    case inl hm =>
      obtain ⟨rfl, rfl⟩ := Prod.mk.inj hm
      rw [e.others _ hlast, hu, Function.update_self]
  case others =>
    intro i hi
    rw [Chain.numbers_cons, List.mem_cons, not_or] at hi
    have hij : i ≠ j := fun h => hi.right (h ▸ e.walks.head_mem)
    rw [e.others i hi.right, hu, Function.update_of_ne hi.left, Function.update_of_ne hij]
  case fresh =>
    intro i hi
    cases List.mem_cons.mp hi
    case inl hi => exact .inl hi
    case inr hi =>
      right
      cases e.fresh i hi
      case inl hij => rw [hij, hj]
      case inr h =>
        rw [hu, Function.update_apply, Function.update_apply] at h
        split at h
        case isTrue => contradiction
        case isFalse =>
          split at h
          case isTrue  => contradiction
          case isFalse => exact h
  case size => rw [Chain.size_cons, e.size, hs]; simp; omega
  case blocks => exact hb.trans (by rw [Chain.blocks_cons]; exact List.prefix_append ..)

theorem walks_append (e : v.Extends w last c m n) (hw : v.Walks h (l ++ [(last, c)])) :
    w.Walks h (l ++ m) := by
  constructor
  case leads =>
    have ⟨_, hl, hi, _⟩ := Chain.Leads.append.mp hw.leads
    exact Chain.Leads.append.mpr ⟨_, hl, hi ▸ e.walks.leads⟩
  case links =>
    intro i d hm
    cases List.mem_append.mp hm
    case inr hm => exact e.walks.links i d hm
    case inl hm =>
      have hd := hw.links i d (List.mem_append_left _ hm)
      have hne : i ∉ m.numbers := by
        intro hi
        cases e.fresh i hi
        case inl hi => exact hw.last_not_mem (hi ▸ Chain.mem_numbers.mpr ⟨_, hm⟩)
        case inr hi => simp [hd] at hi
      rw [e.others i hne, hd]

theorem live (e : v.Extends w last c m n) (t : v.Tended first) (t' : w.Tended first)
    (hc : v.link? last = some c) {a : Nat} (ha : w.Live a) :
    v.Live a ∨ ∃ p, c.size ≤ p ∧ p < m.size ∧ m.address p = a := by
  have ⟨i, d, q, hd, hq, he⟩ := ha
  by_cases hi : i ∈ m.numbers
  case neg => exact .inl ⟨i, d, q, e.others i hi ▸ hd, hq, he⟩
  case pos =>
    have ⟨x, hx⟩ := Chain.mem_numbers.mp hi
    obtain rfl := Option.some.inj (hd.symm.trans (e.walks.links i x hx))
    have ⟨p, hp, hpa⟩ := Chain.exists_address e.walks.leads (e.walks.formed t') hx hq
    rw [he] at hpa
    by_cases hlt : c.size ≤ p
    case pos => exact .inr ⟨p, hlt, hp, hpa⟩
    case neg =>
      -- the blocks of the old link come first
      have hcw := (t last c hc).wellFormed
      have hpc := Chain.address_cons_of_lt (i := last) (l := []) hcw (Nat.lt_of_not_le hlt)
      have hlen : p / blockSize < c.owned.length :=
        c.length_owned ▸ div_lt_blocksFor (Nat.lt_of_not_le hlt)
      obtain ⟨bs, hbs⟩ := e.blocks
      refine .inl ⟨last, c, p, hc, Nat.lt_of_not_le hlt, ?_⟩
      rw [← hpc, ← hpa, Chain.address, Chain.address, ← hbs, Chain.blocks_cons, Chain.blocks_nil,
        List.append_nil, List.getD_eq_getElem?_getD, List.getD_eq_getElem?_getD,
        List.getElem?_append_left hlen]

end Extends

structure Lengthens (first : Option Nat) (v w : Volume) (h : Nat) (l m : Chain) : Prop where
  tended : w.Tended first
  rooted : w.Rooted
  walks  : w.Walks h m
  live   : ∀ a, w.Live a → v.Live a ∨ ∃ p, l.size ≤ p ∧ p < m.size ∧ m.address p = a

theorem Rooted.update {i : Nat} (hr : v.Rooted) (hz : i = rootInode → d.size ≠ 0)
    (hw : w.link? = Function.update v.link? i (some d)) : w.Rooted := by
  have ⟨c, hc, hs⟩ := hr
  by_cases hi : i = rootInode
  case pos => exact ⟨d, by rw [hw, hi, Function.update_self], hz hi⟩
  case neg => exact ⟨c, by rw [hw, Function.update_of_ne (Ne.symm hi), hc], hs⟩

theorem Rooted.ne_zero (hr : v.Rooted) (hc : v.link? rootInode = some c) : c.size ≠ 0 := by
  have ⟨d, hd, hs⟩ := hr
  exact Option.some.inj (hd.symm.trans hc) ▸ hs

end Volume

namespace File

def ExtendsFrom (first : Option Nat) (last : Nat) (inode : Inode) (remaining done : Nat) : Prop :=
  ∀ v : Volume, v.Tended first → v.Rooted → v.link? last = some inode → inode.next = none →
    (growFrom last inode remaining done).Ensures v
      (fun g w => done ≤ g.grown ∧ w.Tended first ∧ w.Rooted ∧
        ∃ m, v.Extends w last inode m (g.grown - done))
      fun _ w => w = v ∧ wordLimit ≤ inode.size + remaining

namespace ExtendsFrom

variable {inode : Inode} {remaining done : Nat}

theorem fill (hz : remaining ≠ 0) (hlim : ¬wordLimit ≤ inode.size + remaining)
    (hroom : blocksFor (inode.size + remaining) = inode.usedBlocks) :
    ExtendsFrom first last inode remaining done := by
  intro v t hr hc hn
  have s := t last inode hc
  have hle : inode.size + remaining ≤ inodeCapacity :=
    blocksFor_le_iff.mp (hroom ▸ s.wellFormed.usedBlocks_le)
  rw [growFrom, if_neg hz, if_neg hlim, if_pos hroom, ensures_bind]
  apply (Inode.put_ensures (by rw [hc]; rfl) ((storable_of_link? hc).resize hle)).mono_never
  intro _ w r
  have hw : w.link? last = some { inode with size := inode.size + remaining } := by
    rw [r.links, Function.update_self]
  refine ⟨Nat.le_add_right .., tended_update t (s.resize hle hroom hn) r.links,
    hr.update (fun _ => by simp; omega) r.links,
    [(last, { inode with size := inode.size + remaining })], ?_⟩
  rw [Nat.add_sub_cancel_left]
  exact .revise r.links rfl (by simp [Inode.owned_resize hroom]) (.refl hw hn)

theorem hold (hz : remaining ≠ 0) (hlim : ¬wordLimit ≤ inode.size + remaining)
    (hroom : blocksFor (inode.size + remaining) ≠ inode.usedBlocks)
    (hslot : inode.usedBlocks < slotsPerInode)
    (hi : ∀ b, ExtendsFrom first last (inode.hold b (min blockSize remaining))
      (remaining - min blockSize remaining) (done + min blockSize remaining)) :
    ExtendsFrom first last inode remaining done := by
  intro v t hr hc hn
  have s := t last inode hc
  rw [growFrom, if_neg hz, if_neg hlim, if_neg hroom, if_pos hslot, ensures_bind, ensures_attempt]
  apply (Block.alloc_ensures v).mono
  case he =>
    rintro _ _ ⟨rfl, rfl, _⟩
    refine ⟨Nat.le_refl _, t, hr, [(last, inode)], ?_⟩
    rw [Nat.sub_self]
    exact .refl hc hn
  case ho =>
    rintro b u ⟨hlow, hb, _, _, ru⟩
    have hu := Inode.usedBlocks_hold (Nat.pos_of_ne_zero hz) hroom b
    have hcap : inode.size + min blockSize remaining ≤ inodeCapacity :=
      (Inode.usedBlocks_le_iff (c := inode.hold b (min blockSize remaining))).mp (by omega)
    have hcu : u.link? last = some inode := ru.links ▸ hc
    rw [ensures_bind]
    apply (Inode.put_ensures (by rw [hcu]; rfl)
      ((storable_of_link? hcu).hold hslot hb hcap)).mono_never
    intro _ x rx
    have hx := ru.links ▸ rx.links
    have hsited := s.hold hslot hu hn ⟨hlow, hb⟩ fun h => hr.ne_zero (h ▸ hc)
    have hpos : 0 < min blockSize remaining := by lia
    apply (hi b x (tended_update t hsited hx)
      (hr.update (fun _ => by simp only [Inode.hold]; omega) hx)
      (by rw [hx, Function.update_self]) hn).mono
    case he => exact fun _ _ he => absurd he.right (by simp only [Inode.hold]; omega)
    case ho =>
      rintro g y ⟨hle, ht, hroot, m, e⟩
      refine ⟨by omega, ht, hroot, m, ?_⟩
      have := Extends.revise hx rfl
        (by rw [Inode.owned_hold s.wellFormed hslot hu hn]; exact List.prefix_append ..) e
      rwa [show min blockSize remaining + (g.grown - (done + min blockSize remaining)) =
        g.grown - done by omega] at this

theorem extend (hz : remaining ≠ 0) (hlim : ¬wordLimit ≤ inode.size + remaining)
    (hroom : blocksFor (inode.size + remaining) ≠ inode.usedBlocks)
    (hslot : ¬inode.usedBlocks < slotsPerInode)
    (hi : ∀ n, ExtendsFrom first n {} (remaining - (inodeCapacity - inode.size))
      (done + (inodeCapacity - inode.size))) :
    ExtendsFrom first last inode remaining done := by
  intro v t hr hc hn
  have s := t last inode hc
  have hfull : inode.size + (inodeCapacity - inode.size) = inodeCapacity :=
    Nat.add_sub_cancel' s.wellFormed.bounded
  have hblk : blocksFor inodeCapacity = inode.usedBlocks := by
    rw [Nat.le_antisymm s.wellFormed.usedBlocks_le (Nat.le_of_not_lt hslot)]
    decide
  have hcap : inodeCapacity ≠ 0 := by decide
  have hst := (storable_of_link? hc).resize (Nat.le_refl inodeCapacity)
  have hsited := s.resize (Nat.le_refl inodeCapacity) hblk hn
  have howned := Inode.owned_resize hblk
  rw [growFrom, if_neg hz, if_neg hlim, if_neg hroom, if_neg hslot,
    if_neg (Nat.not_lt.mpr s.wellFormed.bounded), ensures_bind]
  generalize inodeCapacity - inode.size = room at *
  apply (Inode.put_ensures (by rw [hc]; rfl) hst).mono_never
  intro _ u ru
  have hcu : u.link? last = some { inode with size := inodeCapacity } := by
    rw [ru.links, Function.update_self]
  have tu := tended_update t hsited ru.links
  have hru : u.Rooted := hr.update (fun _ => hcap) ru.links
  rw [ensures_bind, ensures_attempt]
  apply (Inode.alloc_ensures u).mono
  case he =>
    rintro _ _ ⟨rfl, rfl, _⟩
    refine ⟨Nat.le_add_right .., tu, hru, [(last, { inode with size := inodeCapacity })], ?_⟩
    rw [Nat.add_sub_cancel_left]
    exact .revise ru.links (k := room) (n := 0) hfull.symm (by simp [howned]) (.refl hcu hn)
  case ho =>
    rintro n x ⟨hnlt, hnfree, _, rx⟩
    have hne : last ≠ n := by
      rintro rfl
      simp [hnfree] at hcu
    have hcx : x.link? last = some { inode with size := inodeCapacity } := by
      rw [rx.links, Function.update_of_ne hne, hcu]
    -- what has been free cannot be the root, which is there
    have hroot : n ≠ rootInode := by
      rintro rfl
      have ⟨_, h, _⟩ := hru
      simp [hnfree] at h
    have tx := tended_update tu (.default first n) rx.links
    have hrx : x.Rooted := hru.update (absurd · hroot) rx.links
    rw [ensures_bind]
    apply (Inode.put_ensures (by rw [hcx]; rfl) (hst.relink (some n) (by simpa using hnlt))).mono_never
    intro _ y ry
    have ty := tended_update tx (hsited.relink (some n) fun _ => rfl) ry.links
    have hry : y.Rooted := hrx.update (fun _ => hcap) ry.links
    have hny : y.link? n = some {} := by
      rw [ry.links, Function.update_of_ne (Ne.symm hne), rx.links, Function.update_self]
    apply (hi n y ty hry hny rfl).mono
    case he =>
      intro _ _ he
      have : (0 : Nat) + (remaining - room) ≤ inode.size + remaining := by omega
      exact absurd (Nat.le_trans he.right this) hlim
    case ho =>
      rintro g z ⟨hle, ht, hrooted, m, e⟩
      refine ⟨by omega, ht, hrooted,
        (last, { inode with size := inodeCapacity, next := some n }) :: m, ?_⟩
      have hnv : v.link? n = none := by
        rwa [ru.links, Function.update_of_ne (Ne.symm hne)] at hnfree
      have hlinks : y.link? = Function.update (Function.update v.link? n (some {})) last
          (some { inode with size := inodeCapacity, next := some n }) := by
        rw [ry.links, rx.links, ru.links, Function.update_comm hne, Function.update_idem]
      have := Extends.relink hc hnv hlinks rfl hfull.symm (howned ▸ List.prefix_rfl) e
      rwa [show room + (g.grown - (done + room)) = g.grown - done by omega] at this

end ExtendsFrom

theorem extendsFrom (first : Option Nat) (last : Nat) (inode : Inode) (remaining done : Nat) :
    ExtendsFrom first last inode remaining done := by
  induction last, inode, remaining, done using growFrom.induct
  case case1 last inode done =>
    intro v t hr hc hn
    rw [growFrom, if_pos rfl]
    refine ⟨Nat.le_refl _, t, hr, [(last, inode)], ?_⟩
    rw [Nat.sub_self]
    exact .refl hc hn
  case case2 last inode remaining done hz hlim =>
    intro v t hr hc hn
    rw [growFrom, if_neg hz, if_pos hlim]
    exact ⟨rfl, hlim⟩
  case case3 hz hlim hroom          => exact .fill hz hlim hroom
  case case4 hz hlim hroom hslot hi => exact .hold hz hlim hroom hslot hi
  case case5 last inode remaining done _ _ _ _ hover =>
    intro v t _ hc _
    exact absurd (t last inode hc).wellFormed.bounded (Nat.not_le.mpr hover)
  case case6 hz hlim hroom hslot _ _ hi => exact .extend hz hlim hroom hslot hi

theorem grow_lengthens (t : v.Tended first) (hr : v.Rooted) (hw : v.Walks h l) (n : Nat) :
    (grow h n).Ensures v
      (fun g w => ∃ m : Chain, m.size = l.size + g.grown ∧ v.Lengthens first w h l m)
      fun _ w => w = v := by
  rw [grow]
  split
  case isTrue => exact ⟨l, rfl, t, hr, hw, fun _ => .inl⟩
  case isFalse =>
    have ⟨k, last, inode, hk, hn⟩ := hw.exists_last
    subst hk
    have hc := hw.links last inode (by simp)
    rw [ensures_bind, ensures_attempt, ensures_query_ok hw.lastLink_eq]
    apply (extendsFrom first last inode n 0 v t hr hc hn).mono
    case he => exact fun _ _ he => he.left
    case ho =>
      rintro g w ⟨-, ht, hroot, m, e⟩
      have ⟨hk, _⟩ := Chain.formed_append.mp (hw.formed t)
      have hsize := Chain.length_blocks_of_next hk hw.leads.next_isSome
      refine ⟨k ++ m, ?_, ht, hroot, ?_, ?_⟩
      case refine_1 => rw [Chain.size_append, e.size]; simp; omega
      case refine_2 => exact e.walks_append hw
      case refine_3 =>
        intro a ha
        refine (e.live t ht hc ha).imp_right fun ⟨p, hle, hlt, he⟩ => ?_
        refine ⟨Chain.size k + p, ?_, ?_, ?_⟩
        case refine_1 => rw [Chain.size_append]; simpa using hle
        case refine_2 => rw [Chain.size_append]; simpa using hlt
        case refine_3 => rw [Chain.address_append hsize, he]

-- Room for one entry comes as a whole or not at all, for a block is a whole number of entries.
theorem growFrom_whole (last : Nat) (inode : Inode) (remaining done : Nat) (v : Volume)
    (hs : inode.size % entrySize = 0) (hb : inode.size ≤ inodeCapacity)
    (hr : remaining = 0 ∨ remaining = entrySize) :
    (growFrom last inode remaining done).Ensures v
      (fun g _ => g.cut = none ∧ g.grown = done + remaining ∨ g.grown = done) fun _ _ => True := by
  have any : ∀ {i c v} {ok : Unit → Volume → Prop}, (∀ w, ok () w) →
      (Inode.put i c).Ensures v ok fun _ _ => True := by
    intro i c v ok h
    rw [Inode.put]
    split
    case isTrue  => exact h _
    case isFalse => trivial
  induction last, inode, remaining, done using growFrom.induct generalizing v
  case case1 =>
    rw [growFrom, if_pos rfl]
    exact .inl ⟨rfl, rfl⟩
  case case2 hz hlim =>
    rw [growFrom, if_neg hz, if_pos hlim]
    trivial
  case case3 hz hlim hroom =>
    rw [growFrom, if_neg hz, if_neg hlim, if_pos hroom, ensures_bind]
    exact any fun _ => .inl ⟨rfl, rfl⟩
  case case4 last inode remaining done hz hlim hroom hslot hi =>
    have hlen : min blockSize remaining = remaining := by lia
    rw [growFrom, if_neg hz, if_neg hlim, if_neg hroom, if_pos hslot, ensures_bind, ensures_attempt]
    apply (Block.alloc_ensures v).mono
    case he =>
      rintro _ _ ⟨rfl, _, _⟩
      exact .inr rfl
    case ho =>
      intro b u _
      rw [ensures_bind]
      refine any fun w => ?_
      rw [hlen, growFrom.eq_def, if_pos (Nat.sub_self _)]
      exact .inl ⟨rfl, rfl⟩
  case case5 hover => exact absurd hb (Nat.not_le.mpr hover)
  case case6 last inode remaining done hz hlim hroom hslot _ room hi =>
    -- all slots are full, to the last byte
    have hfull : inodeCapacity - inode.size = 0 := by
      simp only [Inode.usedBlocks, blocksFor, blockSize, slotsPerInode] at hroom hslot
      lia
    rw [growFrom, if_neg hz, if_neg hlim, if_neg hroom, if_neg hslot, if_neg (Nat.not_lt.mpr hb),
      ensures_bind]
    refine any fun u => ?_
    rw [ensures_bind, ensures_attempt]
    simp only [room, hfull, Nat.sub_zero, Nat.add_zero] at hi ⊢
    apply (Inode.alloc_ensures u).mono
    case he =>
      rintro _ _ ⟨rfl, _, _⟩
      exact .inr rfl
    case ho =>
      intro n w _
      rw [ensures_bind]
      exact any fun x => hi n x (by rfl) (Nat.zero_le _) hr

theorem grow_whole (t : v.Tended first) (hw : v.Walks h l) (hs : l.size % entrySize = 0) :
    (grow h entrySize).Ensures v
      (fun g _ => g.cut = none ∧ g.grown = entrySize ∨ g.grown = 0) fun _ _ => True := by
  have ⟨k, last, inode, hk, _⟩ := hw.exists_last
  subst hk
  have hc := (t last inode (hw.links last inode (by simp))).wellFormed
  have ⟨hk, _⟩ := Chain.formed_append.mp (hw.formed t)
  have hfull := Chain.length_blocks_of_next hk hw.leads.next_isSome
  rw [grow, if_neg (by decide), ensures_bind, ensures_attempt, ensures_query_ok hw.lastLink_eq]
  apply (growFrom_whole last inode entrySize 0 v ?_ hc.bounded (.inr rfl)).mono_ok
  case _ => exact fun _ _ h => h.imp_left fun h => ⟨h.left, h.right.trans (Nat.zero_add _)⟩
  rw [Chain.size_append, ← hfull] at hs
  simp at hs
  lia

end File
end InodeVolume
