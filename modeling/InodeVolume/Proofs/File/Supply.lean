import InodeVolume.Proofs.File.Growth
import InodeVolume.Proofs.File.Turnover

namespace InodeVolume

open VolumeM Volume

structure Marks (before after : Nat → Bool) (l : List Nat) : Prop where
  nodup : l.Nodup
  clear : ∀ x ∈ l, before x = false
  set   : ∀ x, after x ↔ before x ∨ x ∈ l

namespace Marks

variable {p q r : Nat → Bool} {l m : List Nat} {v w : Volume} {n x : Nat}

theorem refl (p : Nat → Bool) : Marks p p [] where
  nodup := List.nodup_nil
  clear := nofun
  set   := by simp

theorem single (hx : p x = false) : Marks p (Function.update p x true) [x] where
  nodup := List.nodup_singleton x
  clear := by simpa using hx
  set   := by
    intro y
    rw [Function.update_apply, List.mem_singleton]
    split <;> simp_all

theorem trans (h₁ : Marks p q l) (h₂ : Marks q r m) : Marks p r (l ++ m) where
  nodup := by
    refine List.nodup_append.mpr ⟨h₁.nodup, h₂.nodup, fun x hx y hy e => ?_⟩
    have := h₂.clear x (e ▸ hy)
    simp [(h₁.set x).mpr (.inr hx)] at this
  clear := by
    intro x hx
    cases List.mem_append.mp hx
    case inl hx => exact h₁.clear x hx
    case inr hx =>
      by_contra hp
      have := h₂.clear x hx
      simp [(h₁.set x).mpr (.inl (Bool.not_eq_false _ ▸ hp))] at this
  set   := by
    intro x
    rw [h₂.set, h₁.set, List.mem_append, or_assoc]

theorem countP_add (h : Marks p q l) (hl : ∀ x ∈ l, x < n) :
    (List.range n).countP (!q ·) + l.length = (List.range n).countP (!p ·) := by
  have hq : ∀ x, q x = false ↔ p x = false ∧ x ∉ l := by
    intro x
    simpa using not_congr (h.set x)
  have hnodup : ((List.range n).filter (!q ·) ++ l).Nodup := by
    refine List.nodup_append.mpr ⟨List.nodup_range.filter _, h.nodup, fun x hx y hy e => ?_⟩
    simp only [List.mem_filter, Bool.not_eq_true', hq] at hx
    exact hx.right.right (e ▸ hy)
  have hperm : ((List.range n).filter (!p ·)).Perm ((List.range n).filter (!q ·) ++ l) := by
    refine (List.perm_ext_iff_of_nodup (List.nodup_range.filter _) hnodup).mpr fun x => ?_
    simp only [List.mem_filter, List.mem_append, List.mem_range, Bool.not_eq_true', hq]
    have := h.clear x
    have := hl x
    by_cases hx : x ∈ l <;> simp_all
  rw [List.countP_eq_length_filter, List.countP_eq_length_filter, hperm.length_eq, List.length_append]

theorem freeBlocks_add (h : Marks v.blockTaken w.blockTaken l) :
    w.freeBlocks + l.length = v.freeBlocks := by
  rw [freeBlocks_eq_countP, freeBlocks_eq_countP]
  exact h.countP_add fun b hb => lt_of_blockTaken ((h.set b).mpr (.inr hb))

theorem freeInodes_add (h : Marks v.inodeTaken w.inodeTaken l) :
    w.freeInodes + l.length = v.freeInodes := by
  rw [freeInodes_eq_countP, freeInodes_eq_countP]
  refine h.countP_add fun i hi => ?_
  obtain ⟨_, hc⟩ := Option.isSome_iff_exists.mp (isSome_link? ▸ (h.set i).mpr (.inr hi))
  exact lt_of_link? hc

end Marks

-- So many blocks and inodes are enough for a last link of `size` bytes to become one of `goal` bytes,
-- with further links behind it if need be.
def Suffices (blocks inodes size goal : Nat) : Prop :=
  blocksFor goal ≤ blocksFor size + blocks ∧ linksFor goal ≤ 1 + inodes

-- There is room in the last block, but with so many blocks the last link does not get full, so that
-- this room is not come to.
def Slack (blocks size : Nat) : Prop :=
  size % blockSize ≠ 0 ∧ blocksFor size + blocks < slotsPerInode

-- Growth of a last link by `n` bytes from so many blocks and inodes. If these are not enough, all blocks
-- are used up but none of the room in the last one, or else not even one byte more has a place.
structure Growth.Reaches (g : Growth) (blocks inodes size n done : Nat) : Prop where
  fits  : g.Fits n done
  whole : g.cut = none ↔ Suffices blocks inodes size (size + n)
  slack : g.cut ≠ none → Slack blocks size → g.grown = done + blocks * blockSize
  most  : g.cut ≠ none → ¬Slack blocks size →
    ¬Suffices blocks inodes size (size + (g.grown - done) + 1)

namespace Growth.Reaches

variable {g : Growth} {blocks inodes size n done : Nat}

theorem zero (hs : size ≤ inodeCapacity) : Reaches ⟨done, none⟩ blocks inodes size 0 done where
  fits  := .inl ⟨rfl, rfl⟩
  whole := by
    exact iff_of_true rfl ⟨Nat.le_add_right .., linksFor_eq_one hs ▸ Nat.le_add_right ..⟩
  slack := absurd rfl
  most  := absurd rfl

theorem fill (hroom : blocksFor (size + n) = blocksFor size)
    (hslot : blocksFor size ≤ slotsPerInode) :
    Reaches ⟨done + n, none⟩ blocks inodes size n done where
  fits  := .inl ⟨rfl, rfl⟩
  whole := by
    have hle : size + n ≤ inodeCapacity := blocksFor_le_iff.mp (hroom ▸ hslot)
    exact iff_of_true rfl
      ⟨hroom ▸ Nat.le_add_right .., linksFor_eq_one hle ▸ Nat.le_add_right ..⟩
  slack := absurd rfl
  most  := absurd rfl

theorem crowded (hroom : blocksFor (size + n) ≠ blocksFor size)
    (hslot : blocksFor size < slotsPerInode) :
    Reaches ⟨done, some .noSpace⟩ 0 inodes size n done where
  fits  := by
    have : n ≠ 0 := by
      rintro rfl
      exact hroom rfl
    exact .inr ⟨rfl, by simp, by simp; omega⟩
  whole := by
    refine iff_of_false nofun fun h => hroom ?_
    exact Nat.le_antisymm h.left (blocksFor_mono (Nat.le_add_right ..))
  slack := fun _ _ => by simp
  most  := by
    intro _ hs h
    have := h.left
    simp only [Slack, blocksFor, blockSize, Nat.sub_self, Nat.add_zero] at *
    omega

theorem hold {len : Nat} (hlen : min blockSize n = len)
    (hu : blocksFor (size + len) = blocksFor size + 1)
    (h : g.Reaches blocks inodes (size + len) (n - len) (done + len)) :
    g.Reaches (blocks + 1) inodes size n done := by
  have hsuffices : ∀ goal,
      Suffices (blocks + 1) inodes size goal ↔ Suffices blocks inodes (size + len) goal := by
    intro goal
    rw [Suffices, Suffices, hu, Nat.add_assoc, Nat.add_comm 1 blocks]
  -- if it has been cut short, this was a whole block
  have hwhole : g.cut ≠ none → len = blockSize := by
    intro hcut
    rcases h.fits with hf | hf
    case inl => exact absurd hf.left hcut
    case inr => omega
  have hslack : g.cut ≠ none → (Slack (blocks + 1) size ↔ Slack blocks (size + len)) := by
    intro hcut
    rw [Slack, Slack, hu, hwhole hcut, Nat.add_mod_right, Nat.add_assoc, Nat.add_comm 1]
  have := h.fits.le
  constructor
  case fits  => exact h.fits.step (by omega)
  case whole => rw [h.whole, hsuffices, Nat.add_assoc size, Nat.add_sub_cancel' (by omega)]
  case slack =>
    intro hcut hs
    rw [h.slack hcut ((hslack hcut).mp hs), hwhole hcut, Nat.succ_mul]
    omega
  case most =>
    intro hcut hs
    have := h.most hcut (mt (hslack hcut).mpr hs)
    rwa [← hsuffices, Nat.add_assoc size,
      show len + (g.grown - (done + len)) = g.grown - done by omega] at this

section

variable {room : Nat}

theorem exhausted (hfull : size + room = inodeCapacity) (hover : room < n)
    (hslot : blocksFor size = slotsPerInode) :
    Reaches ⟨done + room, some .noSpace⟩ blocks 0 size n done where
  fits  := .inr ⟨rfl, by simp, by simp; omega⟩
  whole := by
    refine iff_of_false nofun fun h => ?_
    have := (linksFor_le_iff Nat.one_pos).mp h.right
    lia
  slack := fun _ hs => absurd hs.right (by omega)
  most  := by
    intro _ _ h
    have := (linksFor_le_iff Nat.one_pos).mp h.right
    lia

theorem suffices_link (hslot : blocksFor size = slotsPerInode) (goal : Nat) :
    Suffices blocks (inodes + 1) size (inodeCapacity + goal) ↔ Suffices blocks inodes 0 goal := by
  have := blocksFor_add 1 goal
  rw [one_mul, one_mul] at this
  rw [Suffices, Suffices, hslot, blocksFor_zero, this, linksFor_le_iff (by omega),
    linksFor_le_iff (by omega), ← Nat.add_assoc 1, Nat.succ_mul]
  omega

theorem extend (hfull : size + room = inodeCapacity) (hover : room < n)
    (hslot : blocksFor size = slotsPerInode) (h : g.Reaches blocks inodes 0 (n - room) (done + room)) :
    g.Reaches blocks (inodes + 1) size n done where
  fits  := h.fits.step (Nat.le_of_lt hover)
  whole := by
    rw [h.whole, Nat.zero_add, ← suffices_link hslot, ← hfull, Nat.add_assoc,
      Nat.add_sub_cancel' (Nat.le_of_lt hover)]
  slack := fun _ hs => absurd hs.right (by omega)
  most  := by
    intro hcut _
    have := h.fits.le
    have hm := h.most hcut fun hs => hs.left rfl
    rwa [← suffices_link hslot, Nat.zero_add, ← hfull,
      show size + room + (g.grown - (done + room) + 1) = size + (g.grown - done) + 1 by omega] at hm

end

end Growth.Reaches

namespace Volume

variable {v u w : Volume} {h i j k last n : Nat} {l m : Chain} {c d : Inode} {bs cs js : List Nat}

theorem inodeTaken_update (hc : v.link? i = some c)
    (hu : u.link? = Function.update v.link? i (some d)) : u.inodeTaken = v.inodeTaken := by
  funext k
  rw [← isSome_link?, ← isSome_link?, hu, Function.update_apply]
  split <;> simp_all

theorem inodeTaken_link (hc : v.link? i = some c)
    (hu : u.link? = Function.update (Function.update v.link? j (some {})) i (some d)) :
    u.inodeTaken = Function.update v.inodeTaken j true := by
  funext k
  rw [← isSome_link?, hu, Function.update_apply, Function.update_apply, Function.update_apply,
    ← isSome_link?]
  split
  case isTrue  => simp_all
  case isFalse => split <;> simp_all

theorem Reserved.marks (hr : v.Reserved) (hm : Marks v.blockTaken w.blockTaken bs) : w.Reserved :=
  fun b hb => (hm.set b).mpr (.inl (hr b hb))

structure Takes (v w : Volume) (last : Nat) (c : Inode) (m : Chain) (n : Nat) (bs js : List Nat) :
    Prop extends v.Extends w last c m n where
  formed   : m.Formed
  owned    : m.blocks = c.owned ++ bs
  numbers  : m.numbers = last :: js
  blockMap : Marks v.blockTaken w.blockTaken bs
  inodeMap : Marks v.inodeTaken w.inodeTaken js
  data     : ∀ a, dataStart ≤ a → w.byte a = v.byte a

namespace Takes

theorem refl (hc : v.link? last = some c) (hw : c.WellFormed) (hn : c.next = none) :
    v.Takes v last c [(last, c)] 0 [] [] where
  toExtends := .refl hc hn
  formed    := Chain.formed_cons.mpr ⟨hw, Chain.formed_nil⟩
  owned     := by simp
  numbers   := rfl
  blockMap  := .refl _
  inodeMap  := .refl _
  data      := fun _ _ => rfl

theorem revise (hc : v.link? last = some c)
    (hu : u.link? = Function.update v.link? last (some d)) (hs : d.size = c.size + k)
    (ho : d.owned = c.owned ++ cs) (hb : Marks v.blockTaken u.blockTaken cs)
    (hd : ∀ a, dataStart ≤ a → u.byte a = v.byte a) (t : u.Takes w last d m n bs js) :
    v.Takes w last c m (k + n) (cs ++ bs) js where
  toExtends := t.toExtends.revise hu hs (ho ▸ List.prefix_append ..)
  formed    := t.formed
  owned     := by rw [t.owned, ho, List.append_assoc]
  numbers   := t.numbers
  blockMap  := hb.trans t.blockMap
  inodeMap  := inodeTaken_update hc hu ▸ t.inodeMap
  data      := fun a ha => (t.data a ha).trans (hd a ha)

theorem relink (hc : v.link? last = some c) (hj : v.link? j = none)
    (hu : u.link? = Function.update (Function.update v.link? j (some {})) last (some d))
    (hw : d.WellFormed) (hn : d.next = some j) (hs : d.size = c.size + k) (ho : d.owned = c.owned)
    (hb : u.blockTaken = v.blockTaken) (hd : ∀ a, dataStart ≤ a → u.byte a = v.byte a)
    (t : u.Takes w j {} m n bs js) : v.Takes w last c ((last, d) :: m) (k + n) bs (j :: js) where
  toExtends := t.toExtends.relink hc hj hu hn hs (ho ▸ List.prefix_rfl)
  formed    := Chain.formed_cons.mpr ⟨hw, t.formed⟩
  owned     := by rw [Chain.blocks_cons, t.owned, ho, Inode.owned_default, List.nil_append]
  numbers   := by rw [Chain.numbers_cons, t.numbers]
  blockMap  := hb ▸ t.blockMap
  inodeMap  := by
    have hfree : v.inodeTaken j = false := by rw [← isSome_link?, hj]; rfl
    exact (Marks.single hfree).trans (inodeTaken_link hc hu ▸ t.inodeMap)
  data      := fun a ha => (t.data a ha).trans (hd a ha)

end Takes
end Volume

namespace File

def TakesFrom (last : Nat) (inode : Inode) (remaining done : Nat) : Prop :=
  ∀ v : Volume, v.Reserved → v.link? last = some inode → inode.WellFormed → inode.next = none →
    (growFrom last inode remaining done).Ensures v
      (fun g w => g.Reaches v.freeBlocks v.freeInodes inode.size remaining done ∧
        ∃ m bs js, v.Takes w last inode m (g.grown - done) bs js ∧
          (g.cut = none → m.length = linksFor (inode.size + remaining)))
      fun _ w => w = v ∧ wordLimit ≤ inode.size + remaining

namespace TakesFrom

variable {last remaining done : Nat} {inode : Inode}

theorem fill (hz : remaining ≠ 0) (hlim : ¬wordLimit ≤ inode.size + remaining)
    (hroom : blocksFor (inode.size + remaining) = inode.usedBlocks) :
    TakesFrom last inode remaining done := by
  intro v hr hc hf hn
  have hle : inode.size + remaining ≤ inodeCapacity :=
    blocksFor_le_iff.mp (hroom ▸ hf.usedBlocks_le)
  rw [growFrom, if_neg hz, if_neg hlim, if_pos hroom, ensures_bind]
  apply (Inode.put_ensures (by rw [hc]; rfl) ((storable_of_link? hc).resize hle)).mono_never
  intro _ w r
  have hw : w.link? last = some { inode with size := inode.size + remaining } := by
    rw [r.links, Function.update_self]
  refine ⟨.fill hroom hf.usedBlocks_le, [(last, { inode with size := inode.size + remaining })],
    [], [], ?_, fun _ => (linksFor_eq_one hle).symm⟩
  have ho : { inode with size := inode.size + remaining }.owned = inode.owned ++ [] := by
    rw [Inode.owned_resize hroom, List.append_nil]
  rw [Nat.add_sub_cancel_left]
  exact .revise hc r.links rfl ho (r.taken ▸ .refl _) r.data (.refl hw (hf.resize hle hroom hn) hn)

theorem hold (hz : remaining ≠ 0) (hlim : ¬wordLimit ≤ inode.size + remaining)
    (hroom : blocksFor (inode.size + remaining) ≠ inode.usedBlocks)
    (hslot : inode.usedBlocks < slotsPerInode)
    (hi : ∀ b, TakesFrom last (inode.hold b (min blockSize remaining))
      (remaining - min blockSize remaining) (done + min blockSize remaining)) :
    TakesFrom last inode remaining done := by
  intro v hr hc hf hn
  rw [growFrom, if_neg hz, if_neg hlim, if_neg hroom, if_pos hslot, ensures_bind, ensures_attempt]
  apply (Block.alloc_ensures v).mono
  case he =>
    rintro _ _ ⟨rfl, rfl, hall⟩
    refine ⟨hr.crowded_iff.mp hall ▸ .crowded hroom hslot, [(last, inode)], [], [], ?_,
      fun _ => by contradiction⟩
    rw [Nat.sub_self]
    exact .refl hc hf hn
  case ho =>
    rintro b u ⟨_, hb, hfree, _, ru⟩
    have hu := Inode.usedBlocks_hold (Nat.pos_of_ne_zero hz) hroom b
    generalize hlen : min blockSize remaining = len at hu hi ⊢
    have hcap : inode.size + len ≤ inodeCapacity :=
      (Inode.usedBlocks_le_iff (c := inode.hold b len)).mp (by omega)
    have hcu : u.link? last = some inode := ru.links ▸ hc
    rw [ensures_bind]
    apply (Inode.put_ensures (by rw [hcu]; rfl)
      ((storable_of_link? hcu).hold hslot hb hcap)).mono_never
    intro _ x rx
    have r := ru.trans (ru.links ▸ ru.taken ▸ rx)
    have hm : Marks v.blockTaken x.blockTaken [b] := r.taken ▸ .single hfree
    have hfree : v.freeBlocks = x.freeBlocks + 1 := hm.freeBlocks_add.symm
    -- no inode has been taken for this
    have hsame : x.freeInodes = v.freeInodes := by
      have : Marks v.inodeTaken x.inodeTaken [] := inodeTaken_update hc r.links ▸ .refl _
      exact this.freeInodes_add
    apply (hi b x (hr.marks hm) (by rw [r.links, Function.update_self]) (hf.hold hslot hu hn) hn).mono
    case he =>
      have : 0 < len := by lia
      exact fun _ _ he => absurd he.right (by simp only [Inode.hold]; omega)
    case ho =>
      rintro g y ⟨hg, m, bs, js, t, hm'⟩
      have := hg.fits.le
      refine ⟨hfree ▸ .hold hlen hu (hsame ▸ hg), m, b :: bs, js, ?takes, fun hcut => ?length⟩
      case takes =>
        have := t.revise hc r.links rfl (Inode.owned_hold hf hslot hu hn) hm r.data
        rwa [show len + (g.grown - (done + len)) = g.grown - done by omega] at this
      case length =>
        have := hm' hcut
        rwa [show (inode.hold b len).size + (remaining - len) = inode.size + remaining by
          simp only [Inode.hold]; omega] at this

theorem extend (hz : remaining ≠ 0) (hlim : ¬wordLimit ≤ inode.size + remaining)
    (hroom : blocksFor (inode.size + remaining) ≠ inode.usedBlocks)
    (hslot : ¬inode.usedBlocks < slotsPerInode)
    (hi : ∀ n, TakesFrom n {} (remaining - (inodeCapacity - inode.size))
      (done + (inodeCapacity - inode.size))) :
    TakesFrom last inode remaining done := by
  intro v hr hc hf hn
  have hfull : inode.size + (inodeCapacity - inode.size) = inodeCapacity :=
    Nat.add_sub_cancel' hf.bounded
  have hused : inode.usedBlocks = slotsPerInode :=
    Nat.le_antisymm hf.usedBlocks_le (Nat.le_of_not_lt hslot)
  have hover : inodeCapacity - inode.size < remaining := by
    by_contra hle
    have := blocksFor_le_iff.mpr (show inode.size + remaining ≤ slotsPerInode * blockSize by lia)
    exact hroom (Nat.le_antisymm (hused ▸ this) (blocksFor_mono (Nat.le_add_right ..)))
  have hblk : blocksFor inodeCapacity = inode.usedBlocks := by rw [hused]; decide
  have hst := (storable_of_link? hc).resize (Nat.le_refl inodeCapacity)
  have hff := hf.resize (Nat.le_refl inodeCapacity) hblk hn
  have howned := Inode.owned_resize hblk
  rw [growFrom, if_neg hz, if_neg hlim, if_neg hroom, if_neg hslot,
    if_neg (Nat.not_lt.mpr hf.bounded), ensures_bind]
  generalize inodeCapacity - inode.size = room at *
  apply (Inode.put_ensures (by rw [hc]; rfl) hst).mono_never
  intro _ u ru
  have hcu : u.link? last = some { inode with size := inodeCapacity } := by
    rw [ru.links, Function.update_self]
  have hut : u.inodeTaken = v.inodeTaken := inodeTaken_update hc ru.links
  rw [ensures_bind, ensures_attempt]
  apply (Inode.alloc_ensures u).mono
  case he =>
    rintro _ w ⟨rfl, rfl, hall⟩
    have hnone : v.freeInodes = 0 := by
      have : Marks w.inodeTaken v.inodeTaken [] := hut ▸ .refl _
      exact this.freeInodes_add.trans (exhausted_iff.mp hall)
    refine ⟨hnone ▸ .exhausted hfull hover hused, [(last, { inode with size := inodeCapacity })], [], [],
      ?_, fun _ => by contradiction⟩
    have ho : { inode with size := inodeCapacity }.owned = inode.owned ++ [] := by
      rw [howned, List.append_nil]
    rw [Nat.add_sub_cancel_left]
    exact .revise (k := room) (n := 0) hc ru.links hfull.symm ho (ru.taken ▸ .refl _) ru.data
      (.refl hcu hff hn)
  case ho =>
    rintro n x ⟨hnlt, hnfree, _, rx⟩
    have hne : last ≠ n := by
      rintro rfl
      simp [hnfree] at hcu
    have hcx : x.link? last = some { inode with size := inodeCapacity } := by
      rw [rx.links, Function.update_of_ne hne, hcu]
    rw [ensures_bind]
    apply (Inode.put_ensures (by rw [hcx]; rfl) (hst.relink (some n) (by simpa using hnlt))).mono_never
    intro _ y ry
    have hnv : v.link? n = none := by
      rwa [ru.links, Function.update_of_ne (Ne.symm hne)] at hnfree
    have r := ru.trans (ru.links ▸ ru.taken ▸ rx)
    have r := r.trans (r.links ▸ r.taken ▸ ry)
    -- the last link has been written twice, but only the second time counts
    have hlinks : y.link? = Function.update (Function.update v.link? n (some {})) last
        (some { inode with size := inodeCapacity, next := some n }) := by
      rw [r.links, Function.update_comm hne, Function.update_idem]
    have hny : y.link? n = some {} := by
      rw [hlinks, Function.update_of_ne (Ne.symm hne), Function.update_self]
    have hmb : Marks v.blockTaken y.blockTaken [] := r.taken ▸ .refl _
    have hmi : Marks v.inodeTaken y.inodeTaken [n] := by
      rw [inodeTaken_link hc hlinks]
      exact .single (by rw [← isSome_link?, hnv]; rfl)
    apply (hi n y (hr.marks hmb) hny .default rfl).mono
    case he =>
      intro _ _ he
      have : (0 : Nat) + (remaining - room) ≤ inode.size + remaining := by omega
      exact absurd (Nat.le_trans he.right this) hlim
    case ho =>
      rintro g z ⟨hg, m, bs, js, t, hm⟩
      have := hg.fits.le
      rw [show y.freeBlocks = v.freeBlocks from hmb.freeBlocks_add] at hg
      refine ⟨hmi.freeInodes_add ▸ .extend hfull hover hused hg,
        (last, { inode with size := inodeCapacity, next := some n }) :: m, bs, n :: js,
        ?takes, fun hcut => ?length⟩
      case takes =>
        have := t.relink hc hnv hlinks (hff.relink (some n) fun _ => rfl) rfl hfull.symm howned
          r.taken r.data
        rwa [show room + (g.grown - (done + room)) = g.grown - done by omega] at this
      case length =>
        rw [List.length_cons, hm hcut, Nat.zero_add, Nat.add_comm, ← linksFor_add (by omega), one_mul,
          ← hfull, Nat.add_assoc, Nat.add_sub_cancel' (Nat.le_of_lt hover)]

end TakesFrom

theorem takesFrom (last : Nat) (inode : Inode) (remaining done : Nat) :
    TakesFrom last inode remaining done := by
  induction last, inode, remaining, done using growFrom.induct
  case case1 last inode done =>
    intro v hr hc hf hn
    rw [growFrom, if_pos rfl]
    refine ⟨.zero hf.bounded, [(last, inode)], [], [], ?_, fun _ => (linksFor_eq_one hf.bounded).symm⟩
    rw [Nat.sub_self]
    exact .refl hc hf hn
  case case2 last inode remaining done hz hlim =>
    intro v hr hc hf hn
    rw [growFrom, if_neg hz, if_pos hlim]
    exact ⟨rfl, hlim⟩
  case case3 hz hlim hroom          => exact .fill hz hlim hroom
  case case4 hz hlim hroom hslot hi => exact .hold hz hlim hroom hslot hi
  case case5 last inode remaining done _ _ _ _ hover =>
    intro v _ _ hf _
    exact absurd hf.bounded (Nat.not_le.mpr hover)
  case case6 hz hlim hroom hslot _ _ hi => exact .extend hz hlim hroom hslot hi

end File
end InodeVolume
