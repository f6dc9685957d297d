import InodeVolume.Proofs.File.Heads

namespace InodeVolume

namespace Volume

def Brims (v : Volume) (h : Nat) : Prop :=
  v.Head h ∧ ∃ l, v.chain h = .ok l ∧ Chain.Brims l

def Trails (v : Volume) (h : Nat) : Prop :=
  v.Head h ∧ ∃ l, v.chain h = .ok l ∧ Chain.Trails l

-- A file that grows when so many blocks and inodes have been taken before gets another link, but no
-- block for it.
def Strands (v : Volume) (h blocks inodes : Nat) : Prop :=
  v.Brims h ∧ v.freeBlocks = blocks ∧ inodes < v.freeInodes

instance (v : Volume) (h : Nat) : Decidable (v.Brims h) :=
  match hc : v.chain h with
  | .ok l    => decidable_of_iff (v.Head h ∧ Chain.Brims l) (by simp [Brims, hc])
  | .error _ => .isFalse (by simp [Brims, hc])

instance (v : Volume) (h : Nat) : Decidable (v.Trails h) :=
  match hc : v.chain h with
  | .ok l    => decidable_of_iff (v.Head h ∧ Chain.Trails l) (by simp [Trails, hc])
  | .error _ => .isFalse (by simp [Trails, hc])

instance (v : Volume) (h blocks inodes : Nat) : Decidable (v.Strands h blocks inodes) :=
  inferInstanceAs (Decidable (_ ∧ _))

def trailing (v : Volume) : Finset Nat :=
  v.heads.filter v.Trails

def Crowded (v : Volume) : Prop :=
  ∀ b, reservedBlocks ≤ b → b < blockCount → v.blockTaken b

def Reserved (v : Volume) : Prop :=
  ∀ b < reservedBlocks, v.blockTaken b

def Exhausted (v : Volume) : Prop :=
  ∀ i < inodeCount, (v.link? i).isSome

def Full (v : Volume) : Prop :=
  v.Crowded ∨ v.Exhausted

variable {v w : Volume} {chains : Nat → Chain} {h : Nat}

theorem mem_trailing : h ∈ v.trailing ↔ v.Trails h := by
  rw [trailing, Finset.mem_filter, mem_heads, and_iff_right_iff_imp]
  exact And.left

theorem clearBits_eq_zero {a n : Nat} : v.clearBits a n = 0 ↔ ∀ k < n, v.bit a k := by
  simp [clearBits, List.countP_eq_zero]

theorem freeBlocks_eq_countP (v : Volume) :
    v.freeBlocks = (List.range blockCount).countP (!v.blockTaken ·) := by
  refine List.countP_congr fun b hb => ?_
  simp [blockTaken, List.mem_range.mp hb]

theorem freeInodes_eq_countP (v : Volume) :
    v.freeInodes = (List.range inodeCount).countP (!v.inodeTaken ·) := by
  refine List.countP_congr fun i hi => ?_
  simp [inodeTaken, List.mem_range.mp hi]

theorem Reserved.crowded_iff (hr : v.Reserved) : v.Crowded ↔ v.freeBlocks = 0 := by
  rw [freeBlocks, clearBits_eq_zero]
  constructor
  case mp =>
    intro hall b hb
    have ht : v.blockTaken b := by
      by_cases hlow : b < reservedBlocks
      case pos => exact hr b hlow
      case neg => exact hall b (Nat.le_of_not_lt hlow) hb
    rw [blockTaken, Bool.and_eq_true] at ht
    exact ht.right
  case mpr =>
    intro hall b _ hb
    rw [blockTaken, hall b hb, decide_eq_true hb, Bool.and_self]

theorem exhausted_iff : v.Exhausted ↔ v.freeInodes = 0 := by
  rw [freeInodes, clearBits_eq_zero]
  refine forall₂_congr fun i hi => ?_
  rw [isSome_link?, inodeTaken, decide_eq_true hi, Bool.true_and]

end Volume

namespace Sound

open Volume

variable {v : Volume} {chains : Nat → Chain} {h : Nat}

theorem brims_iff (hs : Sound v.link? v.blockTaken chains) : v.Brims h ↔ (chains h).Brims := by
  rw [Volume.Brims, hs.head_iff]
  constructor
  case mp =>
    intro ⟨hne, l, hl, hb⟩
    rw [chain_eq hs hne, Except.ok.injEq] at hl
    exact hl ▸ hb
  case mpr => exact fun hb => ⟨hb.ne_nil, _, chain_eq hs hb.ne_nil, hb⟩

theorem trails_iff (hs : Sound v.link? v.blockTaken chains) : v.Trails h ↔ (chains h).Trails := by
  rw [Volume.Trails, hs.head_iff]
  constructor
  case mp =>
    intro ⟨hne, l, hl, ht⟩
    rw [chain_eq hs hne, Except.ok.injEq] at hl
    exact hl ▸ ht
  case mpr => exact fun ht => ⟨ht.ne_nil, _, chain_eq hs ht.ne_nil, ht⟩

theorem reserved (hs : Sound v.link? v.blockTaken chains) : v.Reserved :=
  fun b hb => (hs.taken b).mpr (.inl hb)

theorem crowded_iff (hs : Sound v.link? v.blockTaken chains) : v.Crowded ↔ v.freeBlocks = 0 :=
  hs.reserved.crowded_iff

theorem strands_iff (hs : Sound v.link? v.blockTaken chains) :
    v.Strands h 0 0 ↔ (chains h).Brims ∧ v.Crowded ∧ ¬v.Exhausted := by
  rw [Volume.Strands, hs.brims_iff, hs.crowded_iff, exhausted_iff, Nat.pos_iff_ne_zero]

end Sound

def tally (cost : Nat → Nat) (files : Nat → Option FileState) : Nat :=
  ∑ h ∈ Finset.range inodeCount, (files h).elim 0 fun f => cost f.bytes.length

theorem tally_update (cost : Nat → Nat) (files : Nat → Option FileState) {h : Nat}
    (hh : h < inodeCount) (x : Option FileState) :
    tally cost (Function.update files h x) + (files h).elim 0 (fun f => cost f.bytes.length) =
      tally cost files + x.elim 0 fun f => cost f.bytes.length := by
  have hm := Finset.mem_range.mpr hh
  rw [tally, tally, ← Finset.add_sum_erase _ _ hm, ← Finset.add_sum_erase _ _ hm,
    Function.update_self]
  have hrest : ∀ k ∈ (Finset.range inodeCount).erase h,
      (Function.update files h x k).elim 0 (fun f => cost f.bytes.length) =
        (files k).elim 0 fun f => cost f.bytes.length := by
    intro k hk
    rw [Function.update_of_ne (Finset.ne_of_mem_erase hk)]
  rw [Finset.sum_congr rfl hrest]
  omega

theorem tally_none (cost : Nat → Nat) : tally cost (fun _ => none) = 0 := by
  simp [tally]

theorem tally_insert (cost : Nat → Nat) {files : Nat → Option FileState} {h : Nat} {f : FileState}
    (hh : h < inodeCount) (hn : files h = none) :
    tally cost (Function.update files h (some f)) = tally cost files + cost f.bytes.length := by
  have := tally_update cost files hh (some f)
  rwa [hn, Option.elim_none, Option.elim_some, Nat.add_zero] at this

namespace Volume

variable {v w : Volume} {chains : Nat → Chain} {files : Nat → Option FileState} {h : Nat}
variable {f : FileState}

theorem sum_heads (hs : Sound v.link? v.blockTaken chains)
    (hc : ∀ h, (chains h).file v.byte = files h) (cost : Nat → Nat) :
    ∑ h ∈ v.heads, cost (chains h).size = tally cost files := by
  rw [heads, Finset.sum_filter, tally]
  refine Finset.sum_congr rfl fun h _ => ?_
  rw [← hc, if_congr hs.head_iff rfl rfl]
  cases hl : chains h
  case nil        => simp [Chain.file]
  case cons a l => simp [Chain.file]

namespace Holds

theorem freeBlocks_add (hv : v.Holds files) :
    v.freeBlocks + tally blocksFor files = blockCount - reservedBlocks := by
  have ⟨chains, hs, hc⟩ := hv
  rw [← sum_heads hs hc, hs.freeBlocks_add]

theorem freeInodes_add (hv : v.Holds files) :
    v.freeInodes + (tally linksFor files + v.trailing.card) = inodeCount := by
  have ⟨chains, hs, hc⟩ := hv
  have hlen : ∀ h ∈ v.heads, (chains h).numbers.length =
      linksFor (chains h).size + if v.Trails h then 1 else 0 := by
    intro h hh
    have ⟨_, _, he⟩ := hs.exists_ends (hs.head_iff.mp (mem_heads.mp hh))
    rw [Chain.numbers, List.length_map, he.length_eq, if_congr hs.trails_iff rfl rfl]
  rw [trailing, Finset.card_eq_sum_ones, Finset.sum_filter, ← sum_heads hs hc, ← Finset.sum_add_distrib,
    ← Finset.sum_congr rfl hlen, hs.freeInodes_add]

theorem exists_ends (hv : v.Holds files) (hf : files h = some f) :
    ∃ l full last, Chain.Ends l full last ∧ l.size = f.bytes.length ∧
      (v.Brims h ↔ l.Brims) ∧ (v.Trails h ↔ l.Trails) := by
  have ⟨chains, hs, _, c, l, hl, _, _, hb⟩ := hv.exists_chain hf
  have ⟨full, last, he⟩ := hs.exists_ends (h := h) (by simp [hl])
  exact ⟨chains h, full, last, he, by rw [← hb, Chain.length_content], hs.brims_iff, hs.trails_iff⟩

theorem brims_iff (hv : v.Holds files) (hf : files h = some f) :
    v.Brims h ↔ f.bytes.length ≠ 0 ∧ f.bytes.length % inodeCapacity = 0 ∧ ¬v.Trails h := by
  have ⟨l, _, _, he, hsize, hb, ht⟩ := hv.exists_ends hf
  rw [hb, ht, ← hsize, he.brims_iff]

theorem size_of_trails (hv : v.Holds files) (hf : files h = some f) (ht : v.Trails h) :
    f.bytes.length ≠ 0 ∧ f.bytes.length % inodeCapacity = 0 := by
  have ⟨l, _, _, he, hsize, _, ht'⟩ := hv.exists_ends hf
  exact hsize ▸ he.size_of_trails (ht'.mp ht)

theorem not_trails (hv : v.Holds files) (hf : files h = some f) (hlt : f.bytes.length < inodeCapacity) :
    ¬v.Trails h := by
  intro ht
  have := hv.size_of_trails hf ht
  rw [Nat.mod_eq_of_lt hlt] at this
  exact this.left this.right

variable {x : Option FileState}

theorem freeBlocks_update (hv : v.Holds files) (hw : w.Holds (Function.update files h x))
    (hh : h < inodeCount) :
    w.freeBlocks + x.elim 0 (fun f => blocksFor f.bytes.length) =
      v.freeBlocks + (files h).elim 0 fun f => blocksFor f.bytes.length := by
  have := hv.freeBlocks_add
  have := hw.freeBlocks_add
  have := tally_update blocksFor files hh x
  omega

theorem freeInodes_update (hv : v.Holds files) (hw : w.Holds (Function.update files h x))
    (hh : h < inodeCount) (ht : ∀ k, w.Trails k ↔ v.Trails k) :
    w.freeInodes + x.elim 0 (fun f => linksFor f.bytes.length) =
      v.freeInodes + (files h).elim 0 fun f => linksFor f.bytes.length := by
  have := hv.freeInodes_add
  have := hw.freeInodes_add
  have := tally_update linksFor files hh x
  have hsame : w.trailing = v.trailing := Finset.ext fun k => by rw [mem_trailing, mem_trailing, ht]
  have := congrArg Finset.card hsame
  omega

theorem brims_congr (hv : v.Holds files) (hw : w.Holds (Function.update files h x)) {k : Nat}
    (hk : k ≠ h) (ht : w.Trails k ↔ v.Trails k) : w.Brims k ↔ v.Brims k := by
  have hsame : Function.update files h x k = files k := Function.update_of_ne hk ..
  cases hf : files k
  case some f => rw [hv.brims_iff hf, hw.brims_iff (hsame.trans hf), ht]
  case none =>
    refine iff_of_false (fun hb => ?_) fun hb => ?_
    case refine_1 => simpa [hsame, hf] using hw.head_iff.mp hb.left
    case refine_2 => simpa [hf] using hv.head_iff.mp hb.left

theorem strands_update (hv : v.Holds files) (hw : w.Holds (Function.update files h x))
    (hh : h < inodeCount) {k : Nat} (hk : k ≠ h) (ht : ∀ k, w.Trails k ↔ v.Trails k) (b n : Nat)
    (hb : x.elim 0 (fun f => blocksFor f.bytes.length) =
      (files h).elim 0 (fun f => blocksFor f.bytes.length) + b)
    (hn : x.elim 0 (fun f => linksFor f.bytes.length) =
      (files h).elim 0 (fun f => linksFor f.bytes.length) + n) (blocks inodes : Nat) :
    w.Strands k blocks inodes ↔ v.Strands k (blocks + b) (inodes + n) := by
  have := hv.freeBlocks_update hw hh
  have := hv.freeInodes_update hw hh ht
  rw [Strands, Strands, hv.brims_congr hw hk (ht k)]
  refine and_congr_right fun _ => ?_
  omega

end Holds

def Spares (v w : Volume) (h : Nat) : Prop :=
  ∀ k ≠ h, (w.Trails k ↔ v.Trails k)

namespace Spares

variable {u : Volume}

theorem refl (v : Volume) (h : Nat) : v.Spares v h :=
  fun _ _ => .rfl

theorem trans (h₁ : v.Spares u h) (h₂ : u.Spares w h) : v.Spares w h :=
  fun k hk => (h₂ k hk).trans (h₁ k hk)

theorem trails_iff (s : v.Spares w h) (hv : ¬v.Trails h) (hw : ¬w.Trails h) (k : Nat) :
    w.Trails k ↔ v.Trails k := by
  by_cases hk : k = h
  case pos => exact hk ▸ iff_of_false hw hv
  case neg => exact s k hk

end Spares

-- Growth of a file has failed and all bytes that it has added are off again.
def Undone (v w : Volume) (h : Nat) : Prop :=
  ∀ k, w.Trails k ↔ v.Trails k ∧ ¬(k = h ∧ v.freeBlocks ≠ 0) ∨ k = h ∧ v.Strands h 0 0

namespace Reshaped

variable {l : Chain}

theorem trails_iff (r : v.Reshaped w chains h l) : w.Trails h ↔ l.Trails := by
  rw [r.sound.trails_iff, Function.update_self]

theorem spares (r : v.Reshaped w chains h l) (hs : Sound v.link? v.blockTaken chains) :
    v.Spares w h :=
  fun _ hk => by rw [r.sound.trails_iff, hs.trails_iff, Function.update_of_ne hk]

end Reshaped

theorem SameChains.trails_iff (hv : v.Holds files) (s : v.SameChains w) (h : Nat) :
    w.Trails h ↔ v.Trails h := by
  have ⟨chains, hs, _⟩ := hv
  have hs' : Sound w.link? w.blockTaken chains := by rwa [s.left, s.right]
  rw [hs.trails_iff, hs'.trails_iff]

theorem SameChains.full (s : v.SameChains w) (hv : v.Full) : w.Full := by
  simpa only [Full, Crowded, Exhausted, s.left, s.right] using hv

theorem SameChains.spares (hv : v.Holds files) (s : v.SameChains w) (h : Nat) : v.Spares w h :=
  fun k _ => s.trails_iff hv k

end Volume
end InodeVolume
