import InodeVolume.Directory.Basic
import InodeVolume.Proofs.Inode.Walk
import Mathlib.Algebra.Ring.Nat

namespace InodeVolume

namespace Volume

variable {v : Volume} {h i d n k offset len total index count : Nat} {ps : List Piece}

def Backed (v : Volume) (h n : Nat) : Prop :=
  ∃ b, v.fileBlock h n = .ok (some b) ∧ b < blockCount

def Overshoots (v : Volume) (h n : Nat) : Prop :=
  ∃ b, v.fileBlock h n = .ok (some b) ∧ blockCount ≤ b

def Mapped (v : Volume) (h n : Nat) : Prop :=
  ∃ b, v.fileBlock h n = .ok (some b)

def Torn (v : Volume) (d : Nat) : Prop :=
  ∃ total, v.fileSize d = .ok total ∧ total % entrySize ≠ 0

-- Of all blocks of a directory that cannot be read, the first one has a number that no block has.
def Misleads (v : Volume) (d : Nat) : Prop :=
  ∃ total n, v.fileSize d = .ok total ∧ n * blockSize < total ∧ v.Overshoots d n ∧
    ∀ m < n, v.Backed d m

-- Of some bytes, each is in a block that has a number, but not always the number of a block.
def Derails (v : Volume) (h offset len : Nat) : Prop :=
  (∀ a, offset ≤ a → a < offset + len → v.Mapped h (a / blockSize)) ∧
    ∃ a, offset ≤ a ∧ a < offset + len ∧ v.Overshoots h (a / blockSize)

theorem Backed.mapped (b : v.Backed h n) : v.Mapped h n :=
  have ⟨k, hk, _⟩ := b
  ⟨k, hk⟩

theorem Overshoots.mapped (o : v.Overshoots h n) : v.Mapped h n :=
  have ⟨k, hk, _⟩ := o
  ⟨k, hk⟩

theorem Overshoots.not_backed (o : v.Overshoots h n) : ¬v.Backed h n := by
  intro ⟨b, hb, hlt⟩
  have ⟨c, hc, hle⟩ := o
  obtain rfl : b = c := by simpa [hb] using hc
  exact absurd hlt (Nat.not_lt.mpr hle)

theorem exists_slot_of_blockFrom {slot : Fin slotsPerInode} {limit skip b : Nat}
    (hb : v.blockFrom slot limit skip h = .ok (some b)) :
    ∃ i c, v.link? i = some c ∧ c.slot slot = some b := by
  induction limit generalizing skip h
  case zero => simp [blockFrom] at hb
  case succ limit hi =>
    cases hc : v.link? h
    case none => simp [blockFrom, inode_of_not_link? hc, bind, Except.bind] at hb
    case some c =>
      rw [blockFrom, inode_of_link? hc] at hb
      cases skip
      case zero => exact ⟨h, c, hc, (Inode.slot_of_lt slot.isLt).trans (Except.ok.inj hb)⟩
      case succ skip =>
        cases hn : c.next <;> simp only [bind, Except.bind, hn] at hb
        case none => cases hb
        case some => exact hi hb

theorem not_overshoots (hv : ∀ i c s b, v.link? i = some c → c.slot s = some b → b < blockCount) :
    ¬v.Overshoots h n := by
  intro ⟨b, hb, hle⟩
  have ⟨i, c, hc, hs⟩ := exists_slot_of_blockFrom hb
  exact absurd (hv i c _ b hc hs) (Nat.not_lt.mpr hle)

theorem inode_ne_crash : v.inode i ≠ .error .crash := by
  rw [inode]
  split <;> simp

theorem isDir_ne_crash : v.isDir i ≠ .error .crash := by
  intro hc
  rw [isDir] at hc
  rcases Except.bind_eq_error_iff.mp hc with hc | ⟨_, _, hc⟩
  case inl => exact inode_ne_crash hc
  case inr => contradiction

theorem chainFrom_ne_crash {limit : Nat} : v.chainFrom limit h ≠ .error .crash := by
  induction limit generalizing h
  case zero => simp [chainFrom]
  case succ limit hi =>
    intro hc
    rw [chainFrom] at hc
    rcases Except.bind_eq_error_iff.mp hc with hc | ⟨c, _, hc⟩
    case inl => exact inode_ne_crash hc
    case inr =>
      cases hn : c.next <;> simp only [hn] at hc
      case none => contradiction
      case some =>
        rcases Except.bind_eq_error_iff.mp hc with hc | ⟨_, _, hc⟩
        case inl => exact hi hc
        case inr => contradiction

theorem fileSize_ne_crash : v.fileSize h ≠ .error .crash := by
  intro hc
  rw [fileSize] at hc
  rcases Except.bind_eq_error_iff.mp hc with hc | ⟨_, _, hc⟩
  case inl => exact chainFrom_ne_crash hc
  case inr => contradiction

theorem blockFrom_ne_crash {slot : Fin slotsPerInode} {limit skip : Nat} :
    v.blockFrom slot limit skip h ≠ .error .crash := by
  induction limit generalizing skip h
  case zero => simp [blockFrom]
  case succ limit hi =>
    intro hc
    rw [blockFrom] at hc
    rcases Except.bind_eq_error_iff.mp hc with hc | ⟨c, _, hc⟩
    case inl => exact inode_ne_crash hc
    case inr =>
      cases skip
      case zero => contradiction
      case succ skip =>
        cases hn : c.next <;> simp only [hn] at hc
        case none => contradiction
        case some => exact hi hc

theorem fileBlock_cases (v : Volume) (h n : Nat) :
    (∃ b, v.fileBlock h n = .ok (some b)) ∨
      (v.fileBlock h n = .ok none ∨ ∃ e, v.fileBlock h n = .error (.errno e)) := by
  rcases hb : v.fileBlock h n with (e | _) | (_ | b)
  case error.errno => exact .inr (.inr ⟨e, rfl⟩)
  case error.crash => exact absurd hb blockFrom_ne_crash
  case ok.none     => exact .inr (.inl rfl)
  case ok.some     => exact .inl ⟨b, rfl⟩

structure Spans (v : Volume) (h offset len : Nat) (ps : List Piece) : Prop where
  length : (ps.map Piece.len).sum = len
  inner  : ∀ p ∈ ps, p.start + p.len ≤ blockSize
  covers : ∀ a, offset ≤ a → a < offset + len →
    ∃ p ∈ ps, v.fileBlock h (a / blockSize) = .ok (some p.block)
  used   : ∀ p ∈ ps, ∃ a, offset ≤ a ∧ a < offset + len ∧
    v.fileBlock h (a / blockSize) = .ok (some p.block)

theorem Spans.nil : v.Spans h offset 0 [] where
  length := rfl
  inner  := by simp
  covers := by omega
  used   := by simp

theorem Spans.cons {b : Nat} (hb : v.fileBlock h (offset / blockSize) = .ok (some b))
    (hn : n = min (blockSize - offset % blockSize) len) (hlen : len ≠ 0)
    (s : v.Spans h (offset + n) (len - n) ps) :
    v.Spans h offset len (⟨b, offset % blockSize, n⟩ :: ps) := by
  have hmod := Nat.mod_lt offset (show blockSize > 0 by decide)
  constructor
  case length =>
    rw [List.map_cons, List.sum_cons, s.length]
    show n + (len - n) = len
    omega
  case inner =>
    refine List.forall_mem_cons.mpr ⟨?_, s.inner⟩
    show offset % blockSize + n ≤ blockSize
    omega
  case covers =>
    intro a hlo hhi
    by_cases ha : a < offset + n
    case pos =>
      have : a / blockSize = offset / blockSize := by
        simp only [blockSize] at hn ⊢
        omega
      exact ⟨_, List.mem_cons_self, this ▸ hb⟩
    case neg =>
      have ⟨p, hp, hblock⟩ := s.covers a (Nat.le_of_not_lt ha) (by omega)
      exact ⟨p, List.mem_cons_of_mem _ hp, hblock⟩
  case used =>
    refine List.forall_mem_cons.mpr ⟨⟨offset, Nat.le_refl _, by omega, hb⟩, fun p hp => ?_⟩
    have ⟨a, hlo, hhi, hblock⟩ := s.used p hp
    exact ⟨a, by omega, by omega, hblock⟩

theorem pieces_cases (v : Volume) (h offset len : Nat) :
    (∃ ps, v.pieces h offset len = .ok ps ∧ v.Spans h offset len ps) ∨
      (∃ e, v.pieces h offset len = .error (.errno e)) ∧
        ∃ a, offset ≤ a ∧ a < offset + len ∧ ¬v.Mapped h (a / blockSize) := by
  induction len using Nat.strongRecOn generalizing offset
  case ind len hi =>
    by_cases hz : len = 0
    case pos =>
      subst hz
      exact .inl ⟨[], by rw [pieces, if_pos rfl], .nil⟩
    rw [pieces, if_neg hz]
    rcases v.fileBlock_cases h (offset / blockSize) with ⟨b, hb⟩ | hb
    case inl =>
      simp only [hb, bind, Except.bind]
      generalize hn : min (blockSize - offset % blockSize) len = n
      have hmod := Nat.mod_lt offset (show blockSize > 0 by decide)
      rcases hi (len - n) (by omega) (offset + n) with ⟨ps, hp, s⟩ | ⟨⟨e, he⟩, a, hlo, hhi, ha⟩
      case inl => exact .inl ⟨_, by rw [hp]; rfl, s.cons hb hn.symm hz⟩
      case inr => exact .inr ⟨⟨e, by rw [he]⟩, a, by omega, by omega, ha⟩
    case inr =>
      refine .inr ⟨?_, offset, Nat.le_refl _, by omega, ?_⟩
      case refine_1 =>
        rcases hb with hb | ⟨e, hb⟩
        case inl => exact ⟨.io, by simp [hb, bind, Except.bind]⟩
        case inr => exact ⟨e, by simp [hb, bind, Except.bind]⟩
      case refine_2 => exact fun ⟨b, hm⟩ => by simp [hm] at hb

theorem readPieces_cases (hp : ∀ p ∈ ps, p.start + p.len ≤ blockSize) :
    (∃ bytes, v.readPieces ps = .ok bytes ∧ bytes.length = (ps.map Piece.len).sum ∧
      ∀ p ∈ ps, p.block < blockCount) ∨
      v.readPieces ps = .error .crash ∧ ∃ p ∈ ps, blockCount ≤ p.block := by
  induction ps
  case nil => exact .inl ⟨[], rfl, rfl, by simp⟩
  case cons p ps hi =>
    have ⟨hinner, hp⟩ := List.forall_mem_cons.mp hp
    rw [readPieces]
    by_cases hb : p.block < blockCount
    case pos =>
      rw [readBlock, if_pos ⟨hb, hinner⟩]
      simp only [bind, Except.bind]
      rcases hi hp with ⟨bytes, hr, hlen, hall⟩ | ⟨hr, q, hq, hle⟩
      case inl =>
        rw [hr]
        exact .inl ⟨_, rfl, by simp [hlen], List.forall_mem_cons.mpr ⟨hb, hall⟩⟩
      case inr =>
        rw [hr]
        exact .inr ⟨rfl, q, List.mem_cons_of_mem p hq, hle⟩
    case neg =>
      rw [readBlock, if_neg fun h => hb h.left]
      exact .inr ⟨rfl, p, List.mem_cons_self, Nat.le_of_not_lt hb⟩

theorem readWithin_cases (v : Volume) (h total offset len : Nat) :
    (∃ bytes, v.readWithin h total offset len = .ok bytes ∧
      bytes.length = clip total offset len ∧
      ∀ a, offset ≤ a → a < offset + clip total offset len → v.Backed h (a / blockSize)) ∨
    (∃ e, v.readWithin h total offset len = .error (.errno e)) ∧
      (∃ a, offset ≤ a ∧ a < offset + clip total offset len ∧ ¬v.Mapped h (a / blockSize)) ∨
    v.readWithin h total offset len = .error .crash ∧
      v.Derails h offset (clip total offset len) := by
  rw [readWithin]
  rcases v.pieces_cases h offset (clip total offset len) with ⟨ps, hp, s⟩ | ⟨⟨e, he⟩, hm⟩
  case inr => exact .inr (.inl ⟨⟨e, by rw [he]; rfl⟩, hm⟩)
  simp only [hp, bind, Except.bind]
  rcases readPieces_cases (v := v) s.inner with ⟨bytes, hr, hlen, hall⟩ | ⟨hr, p, hp, hle⟩
  case inl =>
    refine .inl ⟨bytes, hr, hlen.trans s.length, fun a hlo hhi => ?_⟩
    have ⟨p, hp, hb⟩ := s.covers a hlo hhi
    exact ⟨p.block, hb, hall p hp⟩
  case inr =>
    refine .inr (.inr ⟨hr, fun a hlo hhi => ?_, ?_⟩)
    case refine_1 =>
      have ⟨p, _, hb⟩ := s.covers a hlo hhi
      exact ⟨p.block, hb⟩
    case refine_2 =>
      have ⟨a, hlo, hhi, hb⟩ := s.used p hp
      exact ⟨a, hlo, hhi, p.block, hb, hle⟩

theorem readWithin_crash_iff :
    v.readWithin h total offset len = .error .crash ↔
      v.Derails h offset (clip total offset len) := by
  constructor
  case mp =>
    intro hc
    rcases v.readWithin_cases h total offset len with ⟨_, hr, _⟩ | ⟨⟨_, hr⟩, _⟩ | ⟨_, hd⟩
    case inl     => simp [hr] at hc
    case inr.inl => simp [hr] at hc
    case inr.inr => exact hd
  case mpr =>
    intro ⟨hmapped, a, hlo, hhi, ho⟩
    rcases v.readWithin_cases h total offset len with ⟨_, _, _, hb⟩ | ⟨_, b, hlo, hhi, hm⟩ | ⟨hr, _⟩
    case inl     => exact absurd (hb a hlo hhi) ho.not_backed
    case inr.inl => exact absurd (hmapped b hlo hhi) hm
    case inr.inr => exact hr

theorem readFile_crash_iff :
    v.readFile h offset len = .error .crash ↔
      ∃ total, v.fileSize h = .ok total ∧ v.Derails h offset (clip total offset len) := by
  rw [readFile, Except.bind_eq_error_iff, or_iff_right fileSize_ne_crash]
  simp only [readWithin_crash_iff]

theorem slotWithin_cases (hk : k * entrySize + entrySize ≤ total) :
    (∃ e, v.slotWithin d total k = .ok e) ∧ v.Backed d (k * entrySize / blockSize) ∨
    (∃ e, v.slotWithin d total k = .error (.errno e)) ∧ ¬v.Mapped d (k * entrySize / blockSize) ∨
    v.slotWithin d total k = .error .crash ∧ v.Overshoots d (k * entrySize / blockSize) := by
  have hclip : clip total (k * entrySize) entrySize = entrySize := by
    rw [clip]
    omega
  have hblock : ∀ a, k * entrySize ≤ a → a < k * entrySize + entrySize →
      a / blockSize = k * entrySize / blockSize := by
    intro a hlo hhi
    simp only [blockSize, entrySize] at *
    omega
  have hc := v.readWithin_cases d total (k * entrySize) entrySize
  rw [hclip] at hc
  rw [slotWithin]
  rcases hc with ⟨bytes, hr, hlen, hb⟩ | ⟨⟨e, he⟩, a, hlo, hhi, hm⟩ | ⟨hr, _, a, hlo, hhi, ho⟩
  case inl =>
    refine .inl ⟨⟨.ofBytes bytes, ?_⟩, hb _ (Nat.le_refl _) (Nat.lt_add_of_pos_right (by decide))⟩
    simp only [hr, bind, Except.bind, hlen, if_true]
    rfl
  case inr.inl => exact .inr (.inl ⟨⟨e, by simp [he, bind, Except.bind]⟩, hblock a hlo hhi ▸ hm⟩)
  case inr.inr => exact .inr (.inr ⟨by simp [hr, bind, Except.bind], hblock a hlo hhi ▸ ho⟩)

theorem slotWithin_crash_iff (hk : k * entrySize + entrySize ≤ total) :
    v.slotWithin d total k = .error .crash ↔ v.Overshoots d (k * entrySize / blockSize) := by
  rcases slotWithin_cases (v := v) (d := d) hk with ⟨⟨e, he⟩, hb⟩ | ⟨⟨e, he⟩, hm⟩ | ⟨he, ho⟩
  case inl     => simpa [he] using fun ho : v.Overshoots d _ => ho.not_backed hb
  case inr.inl => simpa [he] using fun ho : v.Overshoots d _ => hm ho.mapped
  case inr.inr => simpa [he] using ho

theorem slotWithin_ok_iff (hk : k * entrySize + entrySize ≤ total) :
    (∃ e, v.slotWithin d total k = .ok e) ↔ v.Backed d (k * entrySize / blockSize) := by
  rcases slotWithin_cases (v := v) (d := d) hk with ⟨⟨e, he⟩, hb⟩ | ⟨⟨e, he⟩, hm⟩ | ⟨he, ho⟩
  case inl     => simpa [he] using hb
  case inr.inl => simpa [he] using fun hb : v.Backed d _ => hm hb.mapped
  case inr.inr => simpa [he] using ho.not_backed

theorem slotsFrom_crash_iff :
    v.slotsFrom d total index count = .error .crash ↔
      ∃ k, index ≤ k ∧ k < index + count ∧ v.slotWithin d total k = .error .crash ∧
        ∀ j, index ≤ j → j < k → ∃ e, v.slotWithin d total j = .ok e := by
  induction count generalizing index
  case zero => simpa [slotsFrom] using fun k hle hlt => absurd hlt (Nat.not_lt.mpr hle)
  case succ count hi =>
    rw [slotsFrom, Except.bind_eq_error_iff]
    constructor
    case mp =>
      intro hc
      rcases hc with hc | ⟨e, he, hc⟩
      case inl => exact ⟨index, Nat.le_refl _, by omega, hc, by omega⟩
      rcases Except.bind_eq_error_iff.mp hc with hc | ⟨_, _, hc⟩
      case inr => contradiction
      have ⟨k, hlo, hhi, hk, hbefore⟩ := hi.mp hc
      refine ⟨k, by omega, by omega, hk, fun j hj hjk => ?_⟩
      by_cases hji : j = index
      case pos => exact hji ▸ ⟨e, he⟩
      case neg => exact hbefore j (by omega) hjk
    case mpr =>
      intro ⟨k, hlo, hhi, hk, hbefore⟩
      by_cases hki : k = index
      case pos => exact .inl (hki ▸ hk)
      case neg =>
        have ⟨e, he⟩ := hbefore index (Nat.le_refl _) (by omega)
        refine .inr ⟨e, he, Except.bind_eq_error_iff.mpr (.inl (hi.mpr ?_))⟩
        exact ⟨k, by omega, by omega, hk, fun j hj => hbefore j (by omega)⟩

theorem firstSlot_block (n : Nat) : n * (blockSize / entrySize) * entrySize / blockSize = n := by
  simp only [blockSize, entrySize]
  omega

theorem slot_fits (h : k < count) : k * entrySize + entrySize ≤ count * entrySize := by
  simp only [entrySize]
  omega

theorem slotsFrom_zero_crash_iff (hs : v.fileSize d = .ok (count * entrySize)) :
    v.slotsFrom d (count * entrySize) 0 count = .error .crash ↔ v.Misleads d := by
  rw [slotsFrom_crash_iff]
  constructor
  case mp =>
    intro ⟨k, _, hk, hcrash, hbefore⟩
    rw [slotWithin_crash_iff (slot_fits (by omega))] at hcrash
    refine ⟨_, _, hs, ?_, hcrash, fun m hm => ?_⟩
    case refine_1 => simp only [blockSize, entrySize]; omega
    case refine_2 =>
      have hj : m * (blockSize / entrySize) < k := by
        simp only [blockSize, entrySize] at hm ⊢
        omega
      rw [← firstSlot_block m, ← slotWithin_ok_iff (slot_fits (by omega : _ < count))]
      exact hbefore _ (Nat.zero_le _) hj
  case mpr =>
    intro ⟨total, n, htotal, hn, ho, hbacked⟩
    obtain rfl : count * entrySize = total := by simpa [hs] using htotal
    have hlt : n * (blockSize / entrySize) < count := by
      simp only [blockSize, entrySize] at hn ⊢
      omega
    refine ⟨n * (blockSize / entrySize), Nat.zero_le _, by omega, ?_, fun j _ hj => ?_⟩
    case refine_1 => rwa [slotWithin_crash_iff (slot_fits hlt), firstSlot_block]
    case refine_2 =>
      rw [slotWithin_ok_iff (slot_fits (by omega))]
      apply hbacked
      simp only [blockSize, entrySize] at hj ⊢
      omega

theorem slots_crash_iff : v.slots d = .error .crash ↔ v.Torn d ∨ v.Misleads d := by
  rw [slots, slotCount]
  rcases hs : v.fileSize d with e | total
  case error =>
    have he : e ≠ .crash := fun h => fileSize_ne_crash (h ▸ hs)
    simp [bind, Except.bind, Torn, Misleads, hs, he]
  by_cases hmod : total % entrySize = 0
  case neg =>
    have : v.Torn d := ⟨total, hs, hmod⟩
    simp [bind, Except.bind, hmod, this]
  case pos =>
    have htorn : ¬v.Torn d := by
      intro ⟨n, hn, hne⟩
      obtain rfl : total = n := by simpa [hs] using hn
      exact hne hmod
    obtain ⟨count, rfl⟩ : ∃ count, total = count * entrySize :=
      ⟨_, (Nat.div_mul_cancel (Nat.dvd_of_mod_eq_zero hmod)).symm⟩
    have hdiv : count * entrySize / entrySize = count := Nat.mul_div_cancel _ (by decide)
    simp only [bind, Except.bind, hmod, if_true, pure, Except.pure, hdiv, or_iff_right htorn,
      slotsFrom_zero_crash_iff hs]

theorem lookup_crash_iff {name : String} :
    v.lookup d name = .error .crash ↔ Entry.fits name ∧ (v.Torn d ∨ v.Misleads d) := by
  rw [← slots_crash_iff, lookup, findSlot]
  by_cases hfit : Entry.fits name
  case neg => simp [hfit, bind, Except.bind]
  simp only [hfit, Bool.not_true, Bool.false_eq_true, if_false, true_and, bind, Except.bind, pure,
    Except.pure]
  cases hs : v.slots d
  case error => simp
  case ok ss =>
    simp only [reduceCtorEq, iff_false]
    split <;> simp

theorem listing_crash_iff : v.listing d = .error .crash ↔ v.Torn d ∨ v.Misleads d := by
  rw [← slots_crash_iff, listing, Except.bind_eq_error_iff]
  simp [pure, Except.pure]

end Volume
end InodeVolume
