import InodeVolume.Proofs.Inode.Walk
import InodeVolume.Proofs.Volume.Sound

namespace InodeVolume

structure FileState where
  refs  : Nat
  mode  : UInt32
  bytes : List UInt8

def FileState.isDir (f : FileState) : Bool :=
  Mode.kindBits f.mode = Mode.directory

namespace Chain

def address (l : Chain) (p : Nat) : Nat :=
  l.blocks.getD (p / blockSize) 0 * blockSize + p % blockSize

def content (l : Chain) (byte : Nat → UInt8) : List UInt8 :=
  (List.range l.size).map fun p => byte (l.address p)

def file (l : Chain) (byte : Nat → UInt8) : Option FileState :=
  l.head?.map fun a => ⟨a.2.refs, a.2.mode, l.content byte⟩

@[simp]
theorem length_content (l : Chain) (byte : Nat → UInt8) : (l.content byte).length = l.size := by
  simp [content]

theorem block_of_lt {l : Chain} {p : Nat} (hl : l.blocks.length = blocksFor l.size)
    (hp : p < l.size) :
    ∃ b, l.blocks[p / blockSize]? = some b ∧ b ∈ l.blocks ∧
      l.address p = b * blockSize + p % blockSize := by
  have : p / blockSize < l.blocks.length := hl ▸ div_lt_blocksFor hp
  refine ⟨l.blocks[p / blockSize], by simp [this], List.getElem_mem this, ?_⟩
  simp only [address, List.getD_eq_getElem?_getD, List.getElem?_eq_getElem this, Option.getD_some]

theorem dataStart_le_address {l : Chain} {p : Nat} (hl : l.blocks.length = blocksFor l.size)
    (hr : ∀ b ∈ l.blocks, reservedBlocks ≤ b) (hp : p < l.size) : Volume.dataStart ≤ l.address p := by
  have ⟨b, _, hb, ha⟩ := block_of_lt hl hp
  have := hr b hb
  rw [ha]
  lia

theorem address_eq_of_front {l m : Chain} {p : Nat} (hb : l.blocks <+: m.blocks)
    (hl : l.blocks.length = blocksFor l.size) (hp : p < l.size) : m.address p = l.address p := by
  have hlt : p / blockSize < l.blocks.length := hl ▸ div_lt_blocksFor hp
  obtain ⟨bs, hbs⟩ := hb
  simp only [address, List.getD_eq_getElem?_getD, ← hbs, List.getElem?_append_left hlt]

theorem content_eq_take {l m : Chain} (hb : l.blocks <+: m.blocks)
    (hl : l.blocks.length = blocksFor l.size) (hs : l.size ≤ m.size) (byte : Nat → UInt8) :
    l.content byte = (m.content byte).take l.size := by
  rw [content, content, ← List.map_take, List.take_range, Nat.min_eq_left hs]
  refine List.map_congr_left fun p hp => ?_
  rw [address_eq_of_front hb hl (List.mem_range.mp hp)]

theorem block_of_address {l m : Chain} {p q : Nat} (hl : l.blocks.length = blocksFor l.size)
    (hm : m.blocks.length = blocksFor m.size) (hp : p < l.size) (hq : q < m.size)
    (e : l.address p = m.address q) :
    ∃ b, l.blocks[p / blockSize]? = some b ∧ m.blocks[q / blockSize]? = some b ∧
      p % blockSize = q % blockSize := by
  have ⟨b, hb, _, hpa⟩ := block_of_lt hl hp
  have ⟨c, hc, _, hqa⟩ := block_of_lt hm hq
  rw [hpa, hqa] at e
  have hbc : b = c := by simp only [blockSize] at e; omega
  exact ⟨b, hb, hbc ▸ hc, by simp only [blockSize] at e ⊢; omega⟩

theorem address_inj {l : Chain} {p q : Nat} (hl : l.blocks.length = blocksFor l.size)
    (hn : l.blocks.Nodup) (hp : p < l.size) (hq : q < l.size) (e : l.address p = l.address q) :
    p = q := by
  have ⟨b, hb, hc, hr⟩ := block_of_address hl hl hp hq e
  have ⟨hlt, _⟩ := List.getElem?_eq_some_iff.mp hb
  have hd : p / blockSize = q / blockSize := (List.getElem?_inj hlt hn).mp (hb.trans hc.symm)
  simp only [blockSize] at hr hd
  omega

theorem file_eq_none {l : Chain} {byte : Nat → UInt8} : l.file byte = none ↔ l = [] := by
  simp [file]

theorem content_congr {l : Chain} {f g : Nat → UInt8} (h : ∀ p < l.size, f (l.address p) = g (l.address p)) :
    l.content f = l.content g :=
  List.map_congr_left fun p hp => h p (List.mem_range.mp hp)

theorem file_congr {l : Chain} {f g : Nat → UInt8} (h : ∀ p < l.size, f (l.address p) = g (l.address p)) :
    l.file f = l.file g := by
  simp only [file, content_congr h]

end Chain

namespace Sound

variable {links : Nat → Option Inode} {taken : Nat → Bool} {chains : Nat → Chain}
variable {h k p q : Nat}

theorem length_blocks (s : Sound links taken chains) (h : Nat) :
    (chains h).blocks.length = blocksFor (chains h).size := by
  by_cases hc : chains h = []
  case pos => simp [hc, blocksFor_zero]
  case neg => exact Chain.length_blocks (s.leads h hc) (s.formed h)

theorem block_of_lt (s : Sound links taken chains) (hp : p < (chains h).size) :
    ∃ b, (chains h).blocks[p / blockSize]? = some b ∧ b ∈ (chains h).blocks ∧
      (chains h).address p = b * blockSize + p % blockSize :=
  Chain.block_of_lt (s.length_blocks h) hp

theorem dataStart_le_address (s : Sound links taken chains) (hp : p < (chains h).size) :
    Volume.dataStart ≤ (chains h).address p :=
  Chain.dataStart_le_address (s.length_blocks h) (s.beyond h) hp

theorem address_inj (s : Sound links taken chains) (hp : p < (chains h).size)
    (hq : q < (chains k).size) (e : (chains h).address p = (chains k).address q) :
    h = k ∧ p = q := by
  have ⟨b, hb, hc, _⟩ := Chain.block_of_address (s.length_blocks h) (s.length_blocks k) hp hq e
  obtain rfl := s.alone h k b (List.mem_of_getElem? hb) (List.mem_of_getElem? hc)
  exact ⟨rfl, Chain.address_inj (s.length_blocks h) (s.blocks h) hp hq e⟩

end Sound

namespace Volume

-- These are the files of a volume, and nothing of it is taken but by them.
def Holds (v : Volume) (files : Nat → Option FileState) : Prop :=
  ∃ chains, Sound v.link? v.blockTaken chains ∧ ∀ h, (chains h).file v.byte = files h

-- No inode was free in `v` or has come to stand behind another one since.
def Recedes (v w : Volume) : Prop :=
  ∀ i c, w.link? i = some c → ∃ d, v.link? i = some d ∧ (c.next = none ∨ c.next = d.next)

theorem Recedes.refl (v : Volume) : Recedes v v :=
  fun _ c hc => ⟨c, hc, .inr rfl⟩

theorem Recedes.trans {v w x : Volume} (h₁ : Recedes v w) (h₂ : Recedes w x) : Recedes v x := by
  intro i c hc
  have ⟨d, hd, hn⟩ := h₂ i c hc
  have ⟨e, he, hm⟩ := h₁ i d hd
  refine ⟨e, he, ?_⟩
  cases hn
  case inl hn => exact .inl hn
  case inr hn => rw [hn]; exact hm

def SameChains (v w : Volume) : Prop :=
  w.link? = v.link? ∧ w.blockTaken = v.blockTaken

theorem SameChains.recedes {v w : Volume} (h : SameChains v w) : Recedes v w :=
  fun _ c hc => ⟨c, h.left ▸ hc, .inr rfl⟩

variable {v w : Volume} {chains : Nat → Chain} {files : Nat → Option FileState} {h : Nat}
variable {f : FileState}

structure Reshaped (v w : Volume) (chains : Nat → Chain) (h : Nat) (l : Chain) : Prop where
  sound : Sound w.link? w.blockTaken (Function.update chains h l)
  data  : ∀ a, dataStart ≤ a → w.byte a = v.byte a

theorem Relinked.reshaped {links : Nat → Option Inode} {taken : Nat → Bool} {l : Chain}
    (r : Relinked v w links taken) (hs : Sound links taken (Function.update chains h l)) :
    v.Reshaped w chains h l where
  sound := r.links ▸ r.taken ▸ hs
  data  := r.data

namespace Reshaped

variable {u : Volume} {l m : Chain}

theorem refl (hs : Sound v.link? v.blockTaken chains) : v.Reshaped v chains h (chains h) where
  sound := by rwa [Function.update_eq_self]
  data  := fun _ _ => rfl

theorem trans (r₁ : v.Reshaped u chains h l)
    (r₂ : u.Reshaped w (Function.update chains h l) h m) : v.Reshaped w chains h m where
  sound := by have := r₂.sound; rwa [Function.update_idem] at this
  data  := fun a ha => (r₂.data a ha).trans (r₁.data a ha)

theorem holds (r : v.Reshaped w chains h l) (hf : ∀ h, (chains h).file v.byte = files h) :
    w.Holds (Function.update files h (l.file v.byte)) := by
  refine ⟨_, r.sound, fun k => ?_⟩
  rw [Chain.file_congr fun p hp => r.data _ (r.sound.dataStart_le_address hp)]
  by_cases hk : k = h
  case pos => simp [hk]
  case neg => simp [hk, hf]

end Reshaped

namespace Holds

theorem exists_chain (hv : v.Holds files) (hf : files h = some f) :
    ∃ chains, Sound v.link? v.blockTaken chains ∧ (∀ k, (chains k).file v.byte = files k) ∧
      ∃ c l, chains h = (h, c) :: l ∧ c.refs = f.refs ∧ c.mode = f.mode ∧
        (chains h).content v.byte = f.bytes := by
  have ⟨chains, hs, hc⟩ := hv
  refine ⟨chains, hs, hc, ?_⟩
  have hh := (hc h).trans hf
  cases hl : chains h
  case nil => simp [hl, Chain.file] at hh
  case cons a l =>
    have ⟨ha, _⟩ := hl ▸ hs.leads h (by simp [hl])
    obtain ⟨i, c⟩ := a
    obtain rfl := Option.some.inj ha
    simp only [hl, Chain.file, List.head?_cons, Option.map_some, Option.some.injEq] at hh
    exact ⟨c, l, rfl, by simp [← hh], by simp [← hh], by simp [← hh]⟩

theorem link?_isSome (hv : v.Holds files) (hf : files h = some f) : (v.link? h).isSome := by
  have ⟨_, hs, _, c, l, hl, _⟩ := hv.exists_chain hf
  rw [hs.link (h := h) (c := c) (by simp [hl])]
  rfl

theorem lt (hv : v.Holds files) (hf : files h = some f) : h < inodeCount :=
  have ⟨_, hc⟩ := Option.isSome_iff_exists.mp (hv.link?_isSome hf)
  lt_of_link? hc

theorem inode (hv : v.Holds files) (hf : files h = some f) :
    ∃ c, v.inode h = .ok c ∧ c.refs = f.refs ∧ c.mode = f.mode := by
  have ⟨_, hs, _, c, l, hl, hr, hm, _⟩ := hv.exists_chain hf
  exact ⟨c, inode_of_link? (hs.link (by rw [hl]; exact List.mem_cons_self)), hr, hm⟩

theorem isDir (hv : v.Holds files) (hf : files h = some f) : v.isDir h = .ok f.isDir := by
  have ⟨c, hc, _, hm⟩ := hv.inode hf
  simp only [Volume.isDir, hc, FileState.isDir, ← hm]
  rfl

theorem regular_iff (hv : v.Holds files) (hf : files h = some f) :
    v.isDir h = .ok false ↔ ¬f.isDir := by
  rw [hv.isDir hf, Except.ok.injEq, Bool.not_eq_true]

end Holds

theorem walks_chain (hs : Sound v.link? v.blockTaken chains) (hc : chains h ≠ []) :
    v.Walks h (chains h) :=
  ⟨fun _ _ hm => hs.link hm, hs.leads h hc⟩

theorem chain_eq (hs : Sound v.link? v.blockTaken chains) (hc : chains h ≠ []) :
    v.chain h = .ok (chains h) :=
  (walks_chain hs hc).chain_eq

theorem fileSize_eq (hs : Sound v.link? v.blockTaken chains) (hc : chains h ≠ []) :
    v.fileSize h = .ok (chains h).size :=
  (walks_chain hs hc).fileSize_eq

theorem chainLength_eq (hs : Sound v.link? v.blockTaken chains) (hc : chains h ≠ []) :
    v.chainLength h = .ok (chains h).length := by
  rw [chainLength, chain_eq hs hc]
  rfl

theorem lastLink_eq (hs : Sound v.link? v.blockTaken chains) {l : Chain} {a : Link}
    (hc : chains h = l ++ [a]) : v.lastLink h = .ok (a, l.reverse) :=
  (hc ▸ walks_chain hs (by simp [hc])).lastLink_eq

theorem fileBlock_eq (hs : Sound v.link? v.blockTaken chains) (hc : chains h ≠ []) (n : Nat) :
    v.fileBlock h n = .ok (chains h).blocks[n]? :=
  (walks_chain hs hc).fileBlock_eq (hs.formed h) n

theorem Holds.length_le (hv : v.Holds files) (hf : files h = some f) :
    f.bytes.length ≤ inodeCount * inodeCapacity := by
  have ⟨_, hs, _, c, l, hl, _, _, hb⟩ := hv.exists_chain hf
  have hn := (walks_chain hs (h := h) (by simp [hl])).length_le
  rw [← hb, Chain.length_content]
  exact Nat.le_trans (Chain.size_le (hs.formed h)) (Nat.mul_le_mul_right _ hn)

theorem Holds.fileSize (hv : v.Holds files) (hf : files h = some f) :
    v.fileSize h = .ok f.bytes.length := by
  have ⟨_, hs, _, c, l, hl, _, _, hb⟩ := hv.exists_chain hf
  rw [fileSize_eq hs (by simp [hl]), ← hb, Chain.length_content]

def Continues (v : Volume) (i : Nat) : Prop :=
  ∃ k c, v.link? k = some c ∧ c.next = some i

def Head (v : Volume) (i : Nat) : Prop :=
  v.inodeTaken i ∧ ¬v.Continues i

theorem Recedes.head {v w : Volume} {i : Nat} (hr : v.Recedes w) (hh : v.Head i)
    (ht : w.inodeTaken i) : w.Head i := by
  refine ⟨ht, fun ⟨k, c, hk, hn⟩ => ?_⟩
  have ⟨d, hd, hc⟩ := hr k c hk
  refine hh.right ⟨k, d, hd, (hc.resolve_left ?_).symm.trans hn⟩
  simp [hn]

theorem Recedes.length_le {v w : Volume} {h : Nat} {l m : Chain} (hr : v.Recedes w)
    (hl : v.Walks h l) (hm : w.Walks h m) : m.length ≤ l.length := by
  induction m generalizing h l
  case nil => exact Nat.zero_le _
  case cons y m hi =>
    obtain ⟨j, c⟩ := y
    obtain rfl := Option.some.inj hm.leads.left
    obtain ⟨x, l, rfl⟩ := List.exists_cons_of_ne_nil hl.ne_nil
    obtain ⟨i, d⟩ := x
    obtain rfl := Option.some.inj hl.leads.left
    have ⟨d', hd', hn⟩ := hr _ _ (hm.links _ _ List.mem_cons_self)
    obtain rfl := Option.some.inj (hd'.symm.trans (hl.links _ _ List.mem_cons_self))
    cases hc : c.next
    case none =>
      rw [hm.tail_eq_nil hc]
      exact Nat.succ_le_succ (Nat.zero_le _)
    case some n =>
      have hd : d'.next = some n := (hn.resolve_left (by simp [hc])).symm.trans hc
      exact Nat.succ_le_succ (hi (hl.tail hd) (hm.tail hc))

end Volume

def Addresses (v : Volume) (files : Nat → Option FileState) (i : Nat) : Prop :=
  (∃ f, files i = some f) ∨ v.link? i = none

namespace Volume.Holds

variable {v : Volume} {files : Nat → Option FileState} {i : Nat}

theorem addresses (hv : v.Holds files) (hc : ¬v.Continues i) : Addresses v files i := by
  have ⟨chains, hs, hfile⟩ := hv
  cases hl : v.link? i
  case none => exact .inr hl
  case some c =>
    have ⟨h, hm⟩ := hs.isSome_iff.mp (Option.isSome_of_eq_some hl)
    have hne : chains h ≠ [] := by
      intro e
      simp [e] at hm
    cases (hs.leads h hne).mem_next hm
    case inr hn =>
      have ⟨j, d, hj, hd⟩ := hn
      exact absurd ⟨j, d, hs.link hj, hd⟩ hc
    case inl hn =>
      obtain rfl := Option.some.inj hn
      refine .inl (Option.ne_none_iff_exists'.mp fun hnone => hne ?_)
      rwa [← hfile, Chain.file_eq_none] at hnone

theorem head_iff (hv : v.Holds files) : v.Head i ↔ ∃ f, files i = some f := by
  constructor
  case mp =>
    intro ⟨ht, hc⟩
    refine (hv.addresses hc).resolve_right fun hn => ?_
    rw [← isSome_link?, hn] at ht
    contradiction
  case mpr =>
    intro ⟨f, hf⟩
    refine ⟨isSome_link? ▸ hv.link?_isSome hf, fun ⟨k, c, hk, hn⟩ => ?_⟩
    have ⟨chains, hs, _, d, l, hl, _⟩ := hv.exists_chain hf
    have hne : chains i ≠ [] := by simp [hl]
    have ⟨h, hm⟩ := (hs.links k c).mp hk
    have hh : chains h ≠ [] := by
      intro e
      simp [e] at hm
    have hi := (hs.leads h hh).next_mem hm hn
    obtain rfl := hs.apart h i i hi (by simp [hl])
    exact (hs.leads h hne).next_ne_head (hs.numbers h) hm hn

end Volume.Holds
end InodeVolume
