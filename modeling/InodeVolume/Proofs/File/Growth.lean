import InodeVolume.Proofs.File.Content
import InodeVolume.Proofs.File.Space

namespace InodeVolume

open VolumeM Volume

structure Chain.Grown (l m : Chain) (n : Nat) : Prop where
  size   : m.size = l.size + n
  blocks : l.blocks <+: m.blocks
  head   : m.head?.map (fun a => (a.2.refs, a.2.mode)) = l.head?.map fun a => (a.2.refs, a.2.mode)

namespace Chain.Grown

variable {l m k : Chain} {i n j : Nat} {c d : Inode}

theorem refl (l : Chain) : Grown l l 0 :=
  ⟨rfl, List.prefix_rfl, rfl⟩

theorem trans (h₁ : Grown l m n) (h₂ : Grown m k j) : Grown l k (n + j) where
  size   := by rw [h₂.size, h₁.size, Nat.add_assoc]
  blocks := h₁.blocks.trans h₂.blocks
  head   := h₂.head.trans h₁.head

theorem last (hr : d.refs = c.refs) (hm : d.mode = c.mode) (hs : d.size + k.size = c.size + n)
    (hb : c.owned <+: d.owned ++ k.blocks) : Grown (l ++ [(i, c)]) (l ++ (i, d) :: k) n where
  size   := by simp; omega
  blocks := by simpa using hb
  head   := by cases l <;> simp [hr, hm]

theorem file {byte : Nat → UInt8} {f : FileState} (h : Grown l m n) (hf : l.file byte = some f)
    (hl : l.blocks.length = blocksFor l.size) :
    ∃ new, new.length = n ∧ m.file byte = some { f with bytes := f.bytes ++ new } := by
  have ⟨new, hn, hc⟩ : ∃ new : List UInt8, new.length = n ∧ m.content byte = l.content byte ++ new := by
    refine ⟨(m.content byte).drop l.size, by simp [h.size], ?_⟩
    rw [content_eq_take h.blocks hl (h.size ▸ Nat.le_add_right ..), List.take_append_drop]
  refine ⟨new, hn, ?_⟩
  obtain ⟨a, hl, hfa⟩ := Option.map_eq_some_iff.mp hf
  obtain ⟨b, hm, hab⟩ := Option.map_eq_some_iff.mp (h.head.trans (congrArg _ hl))
  obtain ⟨hr, hmode⟩ := Prod.mk.inj hab
  rw [Chain.file, hm, Option.map_some, hc, hr, hmode, ← hfa]

end Chain.Grown

namespace File

variable {v w : Volume} {chains : Nat → Chain} {h : Nat} {l : Chain} {last : Nat} {inode : Inode}

theorem reshaped_hold (hs : Sound v.link? v.blockTaken chains) (hc : chains h = l ++ [(last, inode)])
    (hn : inode.next = none) (hslot : inode.usedBlocks < slotsPerInode) {b len : Nat}
    (hu : (inode.hold b len).usedBlocks = inode.usedBlocks + 1) (hb : v.blockTaken b = false)
    (r : v.Relinked w (Function.update v.link? last (some (inode.hold b len)))
      (Function.update v.blockTaken b true)) :
    v.Reshaped w chains h (l ++ [(last, inode.hold b len)]) ∧
      (chains h).Grown (l ++ [(last, inode.hold b len)]) len := by
  have hw : inode.WellFormed := (hs.formed_of_eq hc).right.left
  have ho := Inode.owned_hold hw hslot hu hn
  refine ⟨r.reshaped (hs.occupy hc (hw.hold hslot hu hn) rfl hb ho), ?_⟩
  rw [hc]
  exact .last rfl rfl rfl (by rw [ho]; simp)

theorem reshaped_fill (hs : Sound v.link? v.blockTaken chains) (hc : chains h = l ++ [(last, inode)])
    (hn : inode.next = none) {n : Nat} (hle : inode.size + n ≤ inodeCapacity)
    (hu : blocksFor (inode.size + n) = inode.usedBlocks)
    (r : v.Relinked w (Function.update v.link? last (some { inode with size := inode.size + n }))
      v.blockTaken) :
    v.Reshaped w chains h (l ++ [(last, { inode with size := inode.size + n })]) ∧
      (chains h).Grown (l ++ [(last, { inode with size := inode.size + n })]) n := by
  have hw : inode.WellFormed := (hs.formed_of_eq hc).right.left
  have ho := Inode.owned_resize hu
  refine ⟨r.reshaped (hs.revise hc (hw.resize hle hu hn) rfl ho), ?_⟩
  rw [hc]
  exact .last rfl rfl rfl (by rw [ho]; simp)

theorem reshaped_extend (hs : Sound v.link? v.blockTaken chains)
    (hc : chains h = l ++ [(last, inode)]) (hf : inode.size = inodeCapacity) {n : Nat}
    (hfree : v.link? n = none)
    (r : v.Relinked w (Function.update (Function.update v.link? n (some {})) last
      (some { inode with next := some n })) v.blockTaken) :
    v.Reshaped w chains h (l ++ [(last, { inode with next := some n })] ++ [(n, ({} : Inode))]) ∧
      (chains h).Grown (l ++ [(last, { inode with next := some n })] ++ [(n, ({} : Inode))]) 0 := by
  rw [List.append_assoc, List.singleton_append]
  have hw : inode.WellFormed := (hs.formed_of_eq hc).right.left
  refine ⟨r.reshaped (hs.extend hc (hw.relink _ fun _ => hf) rfl rfl hfree), ?_⟩
  rw [hc]
  exact .last rfl rfl (by simp) (by simp; exact List.prefix_rfl)

end File

def Growth.Fits (g : Growth) (n done : Nat) : Prop :=
  (g.cut = none ∧ g.grown = done + n) ∨
    (g.cut = some .noSpace ∧ done ≤ g.grown ∧ g.grown < done + n)

theorem Growth.Fits.le {g : Growth} {n done : Nat} (h : g.Fits n done) : done ≤ g.grown := by
  cases h <;> omega

theorem Growth.Fits.le_add {g : Growth} {n done : Nat} (h : g.Fits n done) : g.grown ≤ done + n := by
  cases h <;> omega

theorem Growth.Fits.step {g : Growth} {n k done : Nat} (hk : k ≤ n)
    (h : g.Fits (n - k) (done + k)) : g.Fits n done := by
  cases h
  case inl h => exact .inl ⟨h.left, by omega⟩
  case inr h => exact .inr ⟨h.left, by omega⟩

-- What growth by `n` bytes makes of the end of a chain. Where it is cut short, another block has
-- been wanted. Otherwise no link is left that has nothing in it.
structure Growth.Leaves (g : Growth) (n : Nat) (l m : Chain) : Prop where
  short : g.cut ≠ none → blocksFor m.size < blocksFor (l.size + n)
  whole : g.cut = none → m.Trails → n = 0 ∧ l.Trails

-- When growth is cut short right away, and what the end of the chain is then. It may be that a link
-- has been found, but no block for it.
structure Growth.Stops (g : Growth) (v : Volume) (n done : Nat) (l m : Chain) : Prop where
  trails : l.Trails → (g.grown = done ↔ v.Crowded)
  brims  : l.Brims → v.Crowded → g.grown = done
  left   : g.grown = done → (m.Trails ↔ l.Trails ∨ l.Brims ∧ v.Crowded ∧ ¬v.Exhausted)
  block  : n ≤ blockSize → l.size % inodeCapacity + blockSize ≤ inodeCapacity →
    v.Crowded ∨ l.Brims ∧ v.Exhausted

-- Growth by `n` bytes of a file of so many has been cut short. If the bytes that it has added are
-- taken off again, an empty link may still be left, or one may be gone.
structure Growth.Halts (g : Growth) (v w : Volume) (h len n : Nat) : Prop where
  short  : blocksFor (len + g.grown) < blocksFor (len + n)
  undone : g.grown = 0 ∧ w.Trails h ↔ v.Trails h ∧ v.freeBlocks = 0 ∨ v.Strands h 0 0
  block  : n ≤ blockSize → len % inodeCapacity + blockSize ≤ inodeCapacity →
    v.freeBlocks = 0 ∨ v.Brims h ∧ v.freeInodes = 0

structure Growth.Tidies (g : Growth) (v w : Volume) (h len n : Nat) : Prop where
  spares : v.Spares w h
  whole  : g.cut = none → w.Trails h → n = 0 ∧ v.Trails h
  halts  : g.cut ≠ none → g.Halts v w h len n

theorem Growth.Tidies.congr {g : Growth} {u v w : Volume} {h len n : Nat} (t : g.Tidies v u h len n)
    (hw : ∀ k, w.Trails k ↔ u.Trails k) : g.Tidies v w h len n where
  spares := fun k hk => (hw k).trans (t.spares k hk)
  whole  := fun hcut ht => t.whole hcut ((hw h).mp ht)
  halts  := fun hcut => { t.halts hcut with undone := by rw [hw, (t.halts hcut).undone] }

namespace Growth.Stops

variable {g : Growth} {u v : Volume} {n done room full last : Nat} {l k m : Chain}

theorem of_taken (hlt : done < g.grown) (hc : ¬v.Crowded) (hn : blockSize < n) :
    g.Stops v n done l m where
  trails := fun _ => iff_of_false (by omega) hc
  brims  := fun _ h => absurd h hc
  left   := fun h => by omega
  block  := fun h => by omega

theorem of_exhausted (e : Chain.Ends l full last) (hlast : inodeCapacity < last + blockSize)
    (hroom : last + room = inodeCapacity) (hg : g.grown = done + room) (hm : ¬m.Trails)
    (hx : v.Exhausted) : g.Stops v n done l m where
  trails := fun ht => by
    have := (e.trails.mp ht).right
    lia
  brims  := fun hb _ => by
    have := e.brims.mp hb
    omega
  left   := fun _ => by
    refine iff_of_false hm fun h => h.elim (fun ht => ?_) fun ⟨_, _, hn⟩ => hn hx
    have := (e.trails.mp ht).right
    lia
  block  := fun _ h => by
    refine .inr ⟨e.brims.mpr ?_, hx⟩
    rw [e.size] at h
    lia

theorem of_link (e : Chain.Ends l full last) (hlast : inodeCapacity < last + blockSize)
    (hroom : last + room = inodeCapacity) (hk : Chain.Ends k (full + 1) 0)
    (hle : done + room ≤ g.grown) (hc : u.Crowded ↔ v.Crowded) (hx : ¬v.Exhausted)
    (hs : g.Stops u (n - room) (done + room) k m) : g.Stops v n done l m where
  trails := fun ht => by
    have := (e.trails.mp ht).right
    lia
  brims  := fun hb hcrowded => by
    have := e.brims.mp hb
    have := (hs.trails (hk.trails.mpr ⟨by omega, rfl⟩)).mpr (hc.mpr hcrowded)
    omega
  left   := fun hg => by
    have hkt := hk.trails.mpr ⟨by omega, rfl⟩
    have hg : g.grown = done + room := by omega
    have hcrowded := hc.mp ((hs.trails hkt).mp hg)
    exact iff_of_true ((hs.left hg).mpr (.inl hkt)) (.inr ⟨e.brims.mpr (by omega), hcrowded, hx⟩)
  block  := fun hn h => by
    have hsize := hk.size
    rw [e.size] at h
    rcases hs.block (by omega) (by lia) with hcrowded | ⟨hb, _⟩
    case inl => exact .inl (hc.mp hcrowded)
    case inr => exact absurd (hk.brims.mp hb) (by decide)

theorem undone (hs : g.Stops v n 0 l m) :
    g.grown = 0 ∧ m.Trails ↔ l.Trails ∧ v.Crowded ∨ l.Brims ∧ v.Crowded ∧ ¬v.Exhausted := by
  constructor
  case mp =>
    intro ⟨hg, hm⟩
    exact ((hs.left hg).mp hm).imp_left fun ht => ⟨ht, (hs.trails ht).mp hg⟩
  case mpr =>
    intro h
    have hg : g.grown = 0 :=
      h.elim (fun ⟨ht, hc⟩ => (hs.trails ht).mpr hc) fun ⟨hb, hc, _⟩ => hs.brims hb hc
    exact ⟨hg, (hs.left hg).mpr (h.imp_left And.left)⟩

theorem halts {w : Volume} {chains : Nat → Chain} {h : Nat}
    (hs : Sound v.link? v.blockTaken chains) (hr : v.Reshaped w chains h m)
    (hstops : g.Stops v n 0 (chains h) m) (hgrown : (chains h).Grown m g.grown)
    (hshort : blocksFor m.size < blocksFor ((chains h).size + n)) :
    g.Halts v w h (chains h).size n where
  short  := hgrown.size ▸ hshort
  undone := by
    rw [hr.trails_iff, hstops.undone, hs.trails_iff, hs.strands_iff, hs.crowded_iff]
  block  := by
    rw [hs.brims_iff, ← hs.crowded_iff, ← exhausted_iff]
    exact hstops.block

end Growth.Stops

namespace File

variable {v w : Volume} {chains : Nat → Chain} {h : Nat} {l : Chain} {last : Nat} {inode : Inode}

theorem grown_step {u : Volume} {k : Chain} {len n done : Nat} {g : Growth}
    (hr : v.Reshaped u chains h k) (hk : (chains h).Grown k len) (hl : len ≤ n)
    (ht : n = len → ¬k.Trails) (hg : g.Fits (n - len) (done + len)) (hf : g.cut ≠ none → w.Full)
    (hstops : ∀ m, g.cut ≠ none → g.Stops u (n - len) (done + len) k m →
      g.Stops v n done (chains h) m)
    (hm : ∃ m, (Function.update chains h k h).Grown m (g.grown - (done + len)) ∧
      u.Reshaped w (Function.update chains h k) h m ∧
      g.Leaves (n - len) (Function.update chains h k h) m ∧
      (g.cut ≠ none → g.Stops u (n - len) (done + len) (Function.update chains h k h) m)) :
    g.Fits n done ∧ (g.cut ≠ none → w.Full) ∧
      ∃ m, (chains h).Grown m (g.grown - done) ∧ v.Reshaped w chains h m ∧
        g.Leaves n (chains h) m ∧ (g.cut ≠ none → g.Stops v n done (chains h) m) := by
  rw [Function.update_self] at hm
  have ⟨m, hgrown, hx, hleaves, hstop⟩ := hm
  have hle := hg.le
  refine ⟨hg.step hl, hf, m, ?grown, hr.trans hx, ⟨?short, ?whole⟩,
    fun hcut => hstops m hcut (hstop hcut)⟩
  case grown =>
    have := hk.trans hgrown
    rwa [show len + (g.grown - (done + len)) = g.grown - done by omega] at this
  case short =>
    intro hcut
    have := hleaves.short hcut
    rwa [hk.size, Nat.add_assoc, Nat.add_sub_cancel' hl] at this
  case whole =>
    intro hcut hm
    have ⟨hn, hk⟩ := hleaves.whole hcut hm
    exact absurd hk (ht (by omega))

theorem blocksFor_lt_of_room (hs : Sound v.link? v.blockTaken chains)
    (hc : chains h = l ++ [(last, inode)]) {n : Nat}
    (hroom : blocksFor (inode.size + n) ≠ inode.usedBlocks) :
    blocksFor (chains h).size < blocksFor ((chains h).size + n) := by
  rw [(hs.ends_of_eq hc).size]
  simp only [Inode.usedBlocks, blocksFor, blockSize, inodeCapacity, slotsPerInode] at *
  omega

-- What growth ensures that starts from a last link, whatever chain it is the last one of.
def GrowsFrom (last : Nat) (inode : Inode) (remaining done : Nat) : Prop :=
  ∀ (v : Volume) (chains : Nat → Chain) (h : Nat) (l : Chain), Sound v.link? v.blockTaken chains →
    chains h = l ++ [(last, inode)] → inode.next = none →
    (growFrom last inode remaining done).Ensures v
      (fun g w => g.Fits remaining done ∧ (g.cut ≠ none → w.Full) ∧
        ∃ m, (chains h).Grown m (g.grown - done) ∧ v.Reshaped w chains h m ∧
          g.Leaves remaining (chains h) m ∧
          (g.cut ≠ none → g.Stops v remaining done (chains h) m))
      (fun e w => e = .crash ∧ w = v ∧ wordLimit ≤ inode.size + remaining)

namespace GrowsFrom

variable {remaining done : Nat}

theorem fill (hz : remaining ≠ 0) (hlim : ¬wordLimit ≤ inode.size + remaining)
    (hroom : blocksFor (inode.size + remaining) = inode.usedBlocks) :
    GrowsFrom last inode remaining done := by
  intro v chains h l hs hc hn
  have hlink : v.link? last = some inode := hs.link_of_eq hc
  have hw : inode.WellFormed := (hs.formed_of_eq hc).right.left
  have hle : inode.size + remaining ≤ inodeCapacity :=
    blocksFor_le_iff.mp (hroom ▸ hw.usedBlocks_le)
  rw [growFrom, if_neg hz, if_neg hlim, if_pos hroom, ensures_bind]
  apply (Inode.put_ensures (by rw [hlink]; rfl) ((storable_of_link? hlink).resize hle)).mono_never
  intro _ w r
  obtain ⟨hr, hg⟩ := reshaped_fill hs hc hn hle hroom r
  refine ⟨.inl ⟨rfl, rfl⟩, absurd rfl, _, (Nat.add_sub_cancel_left done remaining).symm ▸ hg, hr,
    ⟨absurd rfl, fun _ ht => ?_⟩, absurd rfl⟩
  have ⟨_, hzero⟩ := Chain.trails_concat.mp ht
  exact absurd (Nat.eq_zero_of_add_eq_zero hzero).right hz

theorem hold (hz : remaining ≠ 0) (hlim : ¬wordLimit ≤ inode.size + remaining)
    (hroom : blocksFor (inode.size + remaining) ≠ inode.usedBlocks)
    (hslot : inode.usedBlocks < slotsPerInode)
    (hi : ∀ b, GrowsFrom last (inode.hold b (min blockSize remaining))
      (remaining - min blockSize remaining) (done + min blockSize remaining)) :
    GrowsFrom last inode remaining done := by
  intro v chains h l hs hc hn
  have hlink : v.link? last = some inode := hs.link_of_eq hc
  rw [growFrom, if_neg hz, if_neg hlim, if_neg hroom, if_pos hslot, ensures_bind, ensures_attempt]
  apply (Block.alloc_ensures v).mono
  case he =>
    rintro e w ⟨he, hw, hall⟩
    subst he hw
    refine ⟨.inr ⟨rfl, by simp, by simp; omega⟩, fun _ => .inl hall, chains h, ?grown, .refl hs,
      ⟨fun _ => blocksFor_lt_of_room hs hc hroom, by simp⟩, fun _ => ?stops⟩
    case grown => simpa using .refl (chains h)
    case stops =>
      have hbrims : ¬(chains h).Brims := by
        rw [hc, Chain.brims_concat]
        intro hfull
        rw [Inode.usedBlocks, hfull] at hslot
        exact absurd hslot (by decide)
      exact {
        trails := fun _ => iff_of_true rfl hall
        brims  := fun _ _ => rfl
        left   := fun _ => by simp [hbrims]
        block  := fun _ _ => .inl hall
      }
  case ho =>
    rintro b u ⟨hlow, hb, hfree, _, ru⟩
    have hu := Inode.usedBlocks_hold (Nat.pos_of_ne_zero hz) hroom b
    generalize hlen : min blockSize remaining = len at hu hi ⊢
    have hcap : inode.size + len ≤ inodeCapacity :=
      (Inode.usedBlocks_le_iff (c := inode.hold b len)).mp (by omega)
    have hisSome : (u.link? last).isSome := by rw [ru.links, hlink]; rfl
    rw [ensures_bind]
    apply (Inode.put_ensures hisSome ((storable_of_link? hlink).hold hslot hb hcap)).mono_never
    intro _ w rw'
    obtain ⟨hr, hg⟩ := reshaped_hold hs hc hn hslot hu hfree (ru.trans (ru.links ▸ ru.taken ▸ rw'))
    apply (hi b w _ h l hr.sound (Function.update_self ..) hn).mono
    case he => exact fun e _ he => absurd he.right.right (by simp only [Inode.hold]; omega)
    case ho =>
      rintro g x ⟨hf, hfull, hx⟩
      have hpos : 0 < len := by lia
      refine grown_step hr hg (by omega) (fun _ ht => ?_) hf hfull (fun m hcut _ => ?_) hx
      case refine_1 =>
        obtain ⟨_, hzero⟩ := Chain.trails_concat.mp ht
        exact absurd (Nat.eq_zero_of_add_eq_zero hzero).right (Nat.ne_of_gt hpos)
      case refine_2 =>
        have := hf.le
        -- growth that was cut short later on had more to do than fill this block
        have hlong : blockSize < remaining := by
          rcases hf with hf | hf
          case inl => exact absurd hf.left hcut
          case inr => omega
        exact .of_taken (by omega) (fun hall => by simpa [hfree] using hall b hlow hb) hlong

theorem extend (hz : remaining ≠ 0) (hlim : ¬wordLimit ≤ inode.size + remaining)
    (hroom : blocksFor (inode.size + remaining) ≠ inode.usedBlocks)
    (hslot : ¬inode.usedBlocks < slotsPerInode)
    (hi : ∀ n, GrowsFrom n {} (remaining - (inodeCapacity - inode.size))
      (done + (inodeCapacity - inode.size))) :
    GrowsFrom last inode remaining done := by
  intro v chains h l hs hc hn
  have hlink : v.link? last = some inode := hs.link_of_eq hc
  have hw : inode.WellFormed := (hs.formed_of_eq hc).right.left
  have hst := (storable_of_link? hlink).resize (Nat.le_refl inodeCapacity)
  have hused : inode.usedBlocks = slotsPerInode :=
    Nat.le_antisymm hw.usedBlocks_le (Nat.le_of_not_lt hslot)
  have hover : inodeCapacity < inode.size + remaining := by
    by_contra hle
    have := blocksFor_le_iff.mpr (Nat.le_of_not_lt hle)
    simp only [Inode.usedBlocks, blocksFor, blockSize] at *
    omega
  have hfull : inode.size + (inodeCapacity - inode.size) = inodeCapacity :=
    Nat.add_sub_cancel' hw.bounded
  have hblk : blocksFor inodeCapacity = inode.usedBlocks := by rw [hused]; decide
  have hlast : inodeCapacity < inode.size + blockSize := by
    simp only [Inode.usedBlocks, blocksFor, blockSize, inodeCapacity, slotsPerInode] at *
    omega
  have he := hs.ends_of_eq hc
  rw [growFrom, if_neg hz, if_neg hlim, if_neg hroom, if_neg hslot,
    if_neg (Nat.not_lt.mpr hw.bounded), ensures_bind]
  generalize inodeCapacity - inode.size = room at *
  apply (Inode.put_ensures (by rw [hlink]; rfl) hst).mono_never
  intro _ u ru
  obtain ⟨hr, hg⟩ := reshaped_fill (w := u) hs hc hn (Nat.le_of_eq hfull) (hfull.symm ▸ hblk)
    (hfull.symm ▸ ru)
  rw [hfull] at hr hg
  have hcu := Function.update_self h (l ++ [(last, { inode with size := inodeCapacity })]) chains
  have hulast := hr.sound.link_of_eq hcu
  have hsome : ∀ i, (u.link? i).isSome = (v.link? i).isSome := by
    intro i
    rw [ru.links, Function.update_apply]
    by_cases hi : i = last <;> simp [hi, hlink]
  rw [ensures_bind, ensures_attempt]
  apply (Inode.alloc_ensures u).mono
  case he =>
    rintro e w ⟨he', hw, hall⟩
    subst he' hw
    refine ⟨.inr ⟨rfl, by simp, by simp; omega⟩, fun _ => .inr hall, _, by simpa using hg, hr,
      ⟨fun _ => ?short, by simp⟩, fun _ => ?stops⟩
    case short =>
      have := hg.size
      have := he.size
      simp only [blocksFor, blockSize, inodeCapacity, slotsPerInode] at *
      omega
    case stops =>
      -- the last link has been filled all the same
      refine .of_exhausted he hlast hfull rfl ?_ fun i hi => hsome i ▸ hall i hi
      rw [Chain.trails_concat]
      exact fun h => absurd h.right (show inodeCapacity ≠ 0 by decide)
  case ho =>
    rintro n x ⟨hnlt, hnfree, _, rx⟩
    have hne : last ≠ n := by
      intro e
      simp [e, hnfree] at hulast
    have hisSome : (x.link? last).isSome := by
      rw [rx.links, Function.update_of_ne hne, hulast]
      rfl
    rw [ensures_bind]
    apply (Inode.put_ensures hisSome (hst.relink (some n) (by simpa using hnlt))).mono_never
    intro _ w rw'
    obtain ⟨hr', hg'⟩ :=
      reshaped_extend hr.sound hcu rfl hnfree (rx.trans (rx.links ▸ rx.taken ▸ rw'))
    -- the new link is hung on before there is a block for it
    have hr'' := hr.trans hr'
    apply (hi n w _ h _ hr''.sound (Function.update_self ..) rfl).mono
    case he => exact fun e _ he => absurd he.right.right (by dsimp only; omega)
    case ho =>
      rintro g y ⟨hf, hcut, hy⟩
      refine grown_step hr'' (hg.trans (hcu ▸ hg')) (by omega) (by omega) hf hcut
        (fun m _ hs => ?_) hy
      have hk := hr''.sound.ends_of_eq (Function.update_self ..)
      rw [Function.update_self, List.length_append, List.length_singleton] at hk
      have hcrowded : w.Crowded ↔ v.Crowded := by
        rw [Crowded, rw'.taken, rx.taken, ru.taken, Crowded]
      have hx : ¬v.Exhausted := fun hx => by simpa [← hsome, hnfree] using hx n hnlt
      exact .of_link he hlast hfull hk hf.le hcrowded hx hs

end GrowsFrom

theorem growsFrom (last : Nat) (inode : Inode) (remaining done : Nat) :
    GrowsFrom last inode remaining done := by
  induction last, inode, remaining, done using growFrom.induct
  case case1 last inode done =>
    intro v chains h l hs hc hn
    rw [growFrom, if_pos rfl]
    exact ⟨.inl ⟨rfl, rfl⟩, absurd rfl, chains h, by simpa using .refl (chains h), .refl hs,
      ⟨absurd rfl, fun _ ht => ⟨rfl, ht⟩⟩, absurd rfl⟩
  case case2 last inode remaining done hz hlim =>
    intro v chains h l hs hc hn
    rw [growFrom, if_neg hz, if_pos hlim]
    exact ⟨rfl, rfl, hlim⟩
  case case3 hz hlim hroom          => exact .fill hz hlim hroom
  case case4 hz hlim hroom hslot hi => exact .hold hz hlim hroom hslot hi
  case case5 last inode remaining done _ _ _ _ hover =>
    intro v chains h l hs hc hn
    exact absurd (hs.formed_of_eq hc).right.left.bounded (Nat.not_le.mpr hover)
  case case6 hz hlim hroom hslot _ _ hi => exact .extend hz hlim hroom hslot hi

theorem grow_chain_ensures (hs : Sound v.link? v.blockTaken chains) (hc : chains h ≠ []) (n : Nat) :
    (grow h n).Ensures v
      (fun g w => g.Fits n 0 ∧ (g.cut ≠ none → w.Full) ∧
        ∃ m, (chains h).Grown m g.grown ∧ v.Reshaped w chains h m ∧ g.Leaves n (chains h) m ∧
          (g.cut ≠ none → g.Stops v n 0 (chains h) m))
      (fun e w => e = .crash ∧ w = v ∧ wordLimit ≤ (chains h).size + n) := by
  rw [grow]
  by_cases hn : n = 0
  case pos =>
    rw [if_pos hn]
    exact ⟨.inl ⟨rfl, by simp [hn]⟩, absurd rfl, chains h, .refl _, .refl hs,
      ⟨absurd rfl, fun _ ht => ⟨hn, ht⟩⟩, absurd rfl⟩
  rw [if_neg hn]
  have ⟨l, last, inode, hl, hnext⟩ := hs.exists_last hc
  rw [ensures_bind, ensures_attempt, ensures_query_ok (lastLink_eq hs hl)]
  apply (growsFrom last inode n 0 v chains h l hs hl hnext).mono
  case ho => exact fun g w h => h
  case he =>
    intro e w ⟨he, hw, hle⟩
    have := (hs.ends_of_eq hl).size
    exact ⟨he, hw, by omega⟩

theorem recedes_of_short (hs : Sound v.link? v.blockTaken chains) {m : Chain}
    (hr : v.Reshaped w chains h m) (hn : chains h ≠ []) (hm : m.size < inodeCapacity)
    (hne : m ≠ []) : v.Recedes w := by
  intro i c hc
  have ⟨k, hk⟩ := (hr.sound.links i c).mp hc
  by_cases hkh : k = h
  case pos =>
    have hu : Function.update chains h m h = m := Function.update_self ..
    have hl := hr.sound.leads h (by rwa [hu])
    have hf := hr.sound.formed h
    rw [hu] at hl hf
    have ⟨d, hd, hnext⟩ := Chain.eq_singleton hl hf hm
    rw [hkh, hu, hd, List.mem_singleton] at hk
    obtain ⟨rfl, rfl⟩ := Prod.mk.inj hk
    cases hch : chains i
    case nil => exact absurd hch hn
    case cons a l =>
      have ⟨ha, _⟩ := hch ▸ hs.leads i hn
      obtain ⟨j, e⟩ := a
      obtain rfl := Option.some.inj ha
      exact ⟨e, hs.link_of_eq (l := []) hch, .inl hnext⟩
  case neg =>
    rw [Function.update_of_ne hkh] at hk
    exact ⟨c, hs.link hk, .inr rfl⟩

variable {files : Nat → Option FileState} {f : FileState}

theorem grow_ensures (hv : v.Holds files) (hf : files h = some f) (n : Nat) :
    (grow h n).Ensures v
      (fun g w => g.Fits n 0 ∧ (g.cut ≠ none → w.Full) ∧ g.Tidies v w h f.bytes.length n ∧
        ∃ new : List UInt8, new.length = g.grown ∧
          w.Holds (Function.update files h (some { f with bytes := f.bytes ++ new })) ∧
          (f.bytes.length + n < inodeCapacity → v.Recedes w))
      (fun e w => e = .crash ∧ w = v ∧ wordLimit ≤ f.bytes.length + n) := by
  have ⟨chains, hs, hc, c, k, hk, _, _, hb⟩ := hv.exists_chain hf
  rw [← hb, Chain.length_content]
  apply (grow_chain_ensures hs (by simp [hk]) n).mono_ok
  intro g w ⟨hg, hfull, m, hm, hr, hleaves, hstops⟩
  have ⟨new, hlen, hfile⟩ := hm.file ((hc h).trans hf) (hs.length_blocks h)
  have htidies : g.Tidies v w h (chains h).size n := by
    refine ⟨hr.spares hs, ?_, fun hcut => (hstops hcut).halts hs hr hm (hleaves.short hcut)⟩
    rw [hr.trails_iff, hs.trails_iff]
    exact hleaves.whole
  refine ⟨hg, hfull, htidies, new, by simpa using hlen, hb ▸ hfile ▸ hr.holds hc, fun hlt => ?_⟩
  have hsize : m.size ≤ (chains h).size + n := by
    rw [hm.size]
    have := hg.le_add
    omega
  exact recedes_of_short hs hr (by simp [hk]) (by omega) fun e => by simp [e, Chain.file] at hfile

theorem growZeroed_ensures (hv : v.Holds files) (hf : files h = some f) (n : Nat) :
    (growZeroed h n).Ensures v
      (fun g w => g.Fits n 0 ∧ (g.cut ≠ none → w.Full) ∧ g.Tidies v w h f.bytes.length n ∧
        w.Holds (Function.update files h
          (some { f with bytes := f.bytes ++ .replicate g.grown 0 })))
      (fun e w => e = .crash ∧ w = v ∧ wordLimit ≤ f.bytes.length + n) := by
  rw [growZeroed, ensures_bind, ensures_attempt, ensures_query_ok (hv.fileSize hf)]
  dsimp only
  rw [ensures_bind]
  apply (grow_ensures hv hf n).mono_ok
  intro g u ⟨hg, hfull, htidies, new, hnew, hu, _⟩
  rw [ensures_bind, ensures_attempt]
  apply (zero_ensures hu (Function.update_self ..) (by simp [hnew])).mono_never
  intro _ w ⟨hw, hsame⟩
  refine ⟨hg, fun hcut => hsame.full (hfull hcut), htidies.congr (hsame.trails_iff hu), ?_⟩
  rw [Function.update_idem] at hw
  simpa [overwrite, ← hnew] using hw

end File
end InodeVolume
