import InodeVolume.Proofs.File.Provision
import InodeVolume.Proofs.Tree.Space

namespace InodeVolume

open VolumeM Volume

theorem marks_update {items : Chain → List Nat} {p q : Nat → Bool} {chains : Nat → Chain} {h : Nat}
    {m : Chain} {rest : List Nat} (base : Nat → Prop)
    (hm : items (chains h) = items m ++ rest) (hn : (items (chains h)).Nodup)
    (alone : ∀ j k x, x ∈ items (chains j) → x ∈ items (chains k) → j = k)
    (apart : ∀ x ∈ items (chains h), ¬base x)
    (hp : ∀ x, p x ↔ base x ∨ ∃ k, x ∈ items (chains k))
    (hq : ∀ x, q x ↔ base x ∨ ∃ k, x ∈ items (Function.update chains h m k)) : Marks q p rest := by
  have hq : ∀ x, q x ↔ base x ∨ x ∈ items m ∨ ∃ k, k ≠ h ∧ x ∈ items (chains k) := by
    intro x
    rw [hq, Function.exists_update_iff chains fun _ (l : Chain) => x ∈ items l]
  have hmem : ∀ x, x ∈ items (chains h) ↔ x ∈ items m ∨ x ∈ rest := by
    intro x
    rw [hm, List.mem_append]
  rw [hm, List.nodup_append] at hn
  constructor
  case nodup => exact hn.right.left
  case clear =>
    intro x hx
    have hxh := (hmem x).mpr (.inr hx)
    rw [← Bool.not_eq_true, hq]
    rintro (hb | hb | ⟨k, hk, hb⟩)
    case inl     => exact apart x hxh hb
    case inr.inl => exact hn.right.right x hb x hx rfl
    case inr.inr => exact hk (alone k h x hb hxh)
  case set =>
    intro x
    rw [hp, hq]
    constructor
    case mp =>
      rintro (hb | ⟨k, hk⟩)
      case inl => exact .inl (.inl hb)
      case inr =>
        by_cases hkh : k = h
        case neg => exact .inl (.inr (.inr ⟨k, hkh, hk⟩))
        case pos => exact ((hmem x).mp (hkh ▸ hk)).imp_left fun hk => .inr (.inl hk)
    case mpr =>
      rintro ((hb | hb | ⟨k, _, hk⟩) | hb)
      case inl.inl     => exact .inl hb
      case inl.inr.inl => exact .inr ⟨h, (hmem x).mpr (.inl hb)⟩
      case inl.inr.inr => exact .inr ⟨k, hk⟩
      case inr         => exact .inr ⟨h, (hmem x).mpr (.inr hb)⟩

theorem Chain.numbers_of_leads {a : Option Nat} {l m : Chain} (hl : Leads a l none)
    (hm : Leads a m none) (hln : l.numbers.Nodup) (hmn : m.numbers.Nodup)
    (h : ∀ i c, (i, c) ∈ m → ∃ d, (i, d) ∈ l ∧ (c.next = none ∨ c.next = d.next)) :
    m.numbers <+: l.numbers := by
  induction m generalizing a l
  case nil => exact List.nil_prefix
  case cons x m hi =>
    obtain ⟨i, c⟩ := x
    obtain ⟨rfl, hm⟩ := hm
    cases l
    case nil => simp [Leads] at hl
    case cons y l =>
      obtain ⟨j, e⟩ := y
      obtain ⟨hij, hl⟩ := hl
      obtain rfl := Option.some.inj hij
      rw [numbers_cons, List.nodup_cons] at hln hmn
      obtain ⟨d, hd, hn⟩ := h i c List.mem_cons_self
      have hde : d = e := by
        cases List.mem_cons.mp hd
        case inl he => exact (Prod.mk.inj he).right
        case inr he => exact absurd (mem_numbers.mpr ⟨d, he⟩) hln.left
      subst hde
      rw [numbers_cons, numbers_cons, List.prefix_cons_inj]
      cases hn
      case inl hn =>
        have hm : Leads c.next m none := hm
        rw [hn] at hm
        rw [hm.eq_nil]
        exact List.nil_prefix
      case inr hn =>
        refine hi (a := d.next) hl (hn ▸ hm) hln.right hmn.right fun k x hk => ?_
        obtain ⟨z, hz, hzn⟩ := h k x (List.mem_cons_of_mem _ hk)
        refine ⟨z, ?_, hzn⟩
        cases List.mem_cons.mp hz
        case inr hz => exact hz
        case inl hz =>
          have hki := (Prod.mk.inj hz).left
          exact absurd (mem_numbers.mpr ⟨x, hki ▸ hk⟩) hmn.left

namespace Volume

variable {v w : Volume} {chains : Nat → Chain} {h : Nat} {m : Chain}

structure Trims (v w : Volume) (h size : Nat) (l m : Chain) : Prop where
  before   : v.chain h = .ok l
  after    : w.chain h = .ok m
  blocks   : m.blocks = l.blocks.take (blocksFor size)
  length   : m.blocks.length = blocksFor size
  numbers  : m.numbers = l.numbers.take m.length
  links    : size < l.size → m.length = linksFor size
  same     : size = l.size → m.length = l.length
  blockMap : Marks w.blockTaken v.blockTaken (l.blocks.drop (blocksFor size))
  inodeMap : Marks w.inodeTaken v.inodeTaken (l.numbers.drop m.length)

namespace Reshaped

variable {bs js : List Nat}

theorem marks_blocks (r : v.Reshaped w chains h m) (hs : Sound v.link? v.blockTaken chains)
    (hm : (chains h).blocks = m.blocks ++ bs) : Marks w.blockTaken v.blockTaken bs :=
  marks_update (· < reservedBlocks) hm (hs.blocks h) hs.alone
    (fun b hb => Nat.not_lt.mpr (hs.beyond h b hb)) hs.taken r.sound.taken

theorem marks_inodes (r : v.Reshaped w chains h m) (hs : Sound v.link? v.blockTaken chains)
    (hm : (chains h).numbers = m.numbers ++ js) : Marks w.inodeTaken v.inodeTaken js := by
  refine marks_update (fun _ => False) hm (hs.numbers h) hs.apart (fun _ _ => id) ?_ ?_ <;>
    intro i <;> rw [false_or, ← isSome_link?]
  case refine_1 => exact hs.isSome_iff
  case refine_2 => exact r.sound.isSome_iff

end Reshaped
end Volume

namespace File

variable {v : Volume} {chains : Nat → Chain} {h size : Nat}

theorem shrink_trims (hs : Sound v.link? v.blockTaken chains) (hc : chains h ≠ [])
    (hle : size ≤ (chains h).size) :
    (shrink h ((chains h).size - size)).Ensures v (fun _ w => ∃ m, v.Trims w h size (chains h) m)
      Never := by
  apply (shrink_chain_ensures hs hc _).mono_ok
  intro _ w ⟨_, m, hm, hr, ht⟩
  have hu : Function.update chains h m h = m := Function.update_self ..
  have hne : m ≠ [] := by
    rintro rfl
    have := hm.head
    simp_all
  have hw : w.Walks h m := hu ▸ walks_chain hr.sound (hu.symm ▸ hne)
  have hf : m.Formed := hu ▸ hr.sound.formed h
  have hsize : m.size = size := by rw [hm.size]; omega
  have hlen : m.blocks.length = blocksFor size := by rw [Chain.length_blocks hw.leads hf, hsize]
  have hblocks := List.prefix_iff_eq_take.mp hm.blocks
  have hnumbers := List.prefix_iff_eq_take.mp
    (Chain.numbers_of_leads (hs.leads h hc) hw.leads (hs.numbers h) hw.nodup hm.links)
  have hcount : m.numbers.length = m.length := List.length_map ..
  rw [hlen] at hblocks
  rw [hcount] at hnumbers
  have ⟨_, _, hle⟩ := hs.exists_ends hc
  have ⟨_, _, hme⟩ := Chain.exists_ends hw.leads hf hne
  refine ⟨m, ?_⟩
  exact {
    before   := Volume.chain_eq hs hc
    after    := hw.chain_eq
    blocks   := hblocks
    length   := hlen
    numbers  := hnumbers
    links    := by
      intro hlt
      have hm : ¬m.Trails := fun h => by have := (ht.mp h).left; omega
      rw [hme.length_eq, hsize, if_neg hm, Nat.add_zero]
    same     := by
      intro heq
      have hm : m.Trails ↔ (chains h).Trails := ht.trans (and_iff_right (by omega))
      rw [hme.length_eq, hle.length_eq, hsize, heq, if_congr hm rfl rfl]
    blockMap := hr.marks_blocks hs (by rw [hblocks, List.take_append_drop])
    inodeMap := hr.marks_inodes hs (by rw [hnumbers, List.take_append_drop])
  }

end File

namespace Tree

variable {files : Nat → Option FileState} {v : Volume} {i size : Nat} {f : FileState}

theorem truncate_trims (hv : v.Holds files) (hf : files i = some f) (hd : ¬f.isDir)
    (hle : size ≤ f.bytes.length) :
    (truncate i size).Ensures v (fun _ w => ∃ l m, v.Trims w i size l m) Never := by
  have ⟨chains, hs, _, c, l, hl, _, _, hb⟩ := hv.exists_chain hf
  have hsize : (chains i).size = f.bytes.length := by rw [← hb, Chain.length_content]
  rw [truncate, ensures_bind, ensures_query_ok (hv.isDir hf), if_neg hd]
  dsimp only
  rw [ensures_bind, ensures_query_ok (hv.fileSize hf), if_neg (Nat.not_lt.mpr hle), ensures_discard,
    ← hsize]
  apply (File.shrink_trims hs (by simp [hl]) (hsize ▸ hle)).mono_ok
  rintro _ _ ⟨m, hm⟩
  exact ⟨_, m, hm⟩

theorem truncate_affords (hv : v.Holds files) (hf : files i = some f) (hd : ¬f.isDir)
    (hlt : f.bytes.length < size) (hsize : size < wordLimit) :
    (truncate i size).Ensures v (fun _ _ => v.Affords i size) (fun _ _ => ¬v.Affords i size) := by
  have hsum : f.bytes.length + (size - f.bytes.length) = size := Nat.add_sub_cancel' (Nat.le_of_lt hlt)
  rw [truncate, ensures_bind, ensures_query_ok (hv.isDir hf), if_neg hd]
  dsimp only
  rw [ensures_bind, ensures_query_ok (hv.fileSize hf), if_pos hlt, ensures_bind]
  apply (File.growZeroed_provides hv hf (hsum.symm ▸ hsize)).mono_never
  intro g u hg
  have hwhole := hsum ▸ hg.whole
  cases hcut : g.cut
  case none => exact hwhole.mp hcut
  case some e =>
    have hnot : ¬v.Affords i size := fun h => by simp [hwhole.mpr h] at hcut
    dsimp only
    rw [ensures_bind]
    exact .of_forall (fun _ _ => hnot) fun _ _ => hnot

theorem truncate_file_ensures (hv : v.Holds files) (hf : files i = some f) (hd : ¬f.isDir)
    (hsize : size < wordLimit) :
    (truncate i size).Ensures v
      (fun _ w => w.Holds (Function.update files i (some
          { f with bytes := f.bytes.take size ++ .replicate (size - f.bytes.length) 0 })) ∧
        (f.bytes.length < size → v.Affords i size) ∧
        (size ≤ f.bytes.length → ∃ l m, v.Trims w i size l m))
      (fun e w => e = .errno .noSpace ∧ f.bytes.length < size ∧ ¬v.Affords i size ∧
        w.Holds files) := by
  have htruncate : (truncate i size).Ensures v _ _ := truncate_ensures hv (.inl ⟨f, hf⟩)
  rcases Nat.lt_or_ge f.bytes.length size with hlt | hle
  case inl =>
    apply (htruncate.and (truncate_affords hv hf hd hlt hsize)).mono
    case ho =>
      intro _ w ⟨⟨g, hg, _, hw, _⟩, ha⟩
      obtain rfl := Option.some.inj (hf.symm.trans hg)
      exact ⟨hw, fun _ => ha, fun hle => absurd hlt (Nat.not_lt.mpr hle)⟩
    case he =>
      intro e w ⟨⟨_, hw, _, hnone⟩, ha⟩
      exact ⟨(hnone f hf hd hsize).left, hlt, ha, hw⟩
  case inr =>
    apply (htruncate.and (truncate_trims hv hf hd hle)).mono
    case he => exact fun _ _ h => h.right.elim
    case ho =>
      intro _ w ⟨⟨g, hg, _, hw, _⟩, ht⟩
      obtain rfl := Option.some.inj (hf.symm.trans hg)
      exact ⟨hw, fun hlt => absurd hlt (Nat.not_lt.mpr hle), fun _ => ht⟩

theorem truncate_of_affords (hv : v.Holds files) (hf : files i = some f) (hd : ¬f.isDir)
    (hsize : size < wordLimit) (ha : v.Affords i size) :
    (Operation.truncate (.inode i) size).perform.Ensures v
      (fun _ w => w.Holds (Function.update files i (some
        { f with bytes := f.bytes.take size ++ .replicate (size - f.bytes.length) 0 }))) Never := by
  rw [Operation.perform, Node.find, pure_bind, ensures_bind]
  apply (truncate_file_ensures hv hf hd hsize).mono
  case ho => exact fun _ _ h => h.left
  case he => exact fun _ _ h => h.right.right.left ha

-- What becomes of a file that looks like `x` when its length is set to `size`. Once it has been cut,
-- nothing of what it had comes back when it is made longer again.
def Truncates (v : Volume) (i size : Nat) (x : View) : Prop :=
  (truncate i size).Ensures v
    (fun _ w =>
      w.view i = .ok (x.withContent
        (x.content.take size ++ .replicate (size - x.content.length) 0)) ∧
      (x.content.length < size → v.Affords i size) ∧
      (size ≤ x.content.length → (∃ l m, v.Trims w i size l m) ∧
        ∀ goal, size ≤ goal → (truncate i goal).Ensures w
          (fun _ u => u.view i =
            .ok (x.withContent (x.content.take size ++ .replicate (goal - size) 0)))
          (fun _ _ => True)))
    (fun e w => e = .errno .noSpace ∧ x.content.length < size ∧ ¬v.Affords i size ∧
      w.view i = .ok x)

-- A file can always be cut, and it gets longer just if the volume has what it needs for that.
theorem Reachable.truncate_exact (r : Reachable v) (hh : v.Head i) (hd : v.isDir i = .ok false)
    (hsize : size < wordLimit) : ∃ x, v.view i = .ok x ∧ Truncates v i size x := by
  have ⟨_, f, hv, hf, hd⟩ := r.exists_regular hh hd
  refine ⟨f.view i, hv.view_eq hf hd, ?_⟩
  apply (truncate_file_ensures hv hf hd hsize).mono
  case he =>
    intro e w ⟨he, hlt, ha, hw⟩
    exact ⟨he, hlt, ha, hw.view_eq hf hd⟩
  case ho =>
    intro _ w ⟨hw, ha, ht⟩
    have hview := hw.view_eq (Function.update_self ..) hd
    rw [FileState.view_bytes hd] at hview
    refine ⟨hview, ha, fun hle => ⟨ht hle, fun goal hgoal => ?_⟩⟩
    apply (truncate_ensures hw (.inl ⟨_, Function.update_self ..⟩)).barring fun _ _ _ => trivial
    intro _ u ⟨g, hg, _, hu, _⟩
    rw [Function.update_self, Option.some.injEq] at hg
    subst hg
    have hle : size ≤ f.bytes.length := hle
    have hlen : (f.bytes.take size).length = size := List.length_take_of_le hle
    have hagain := hu.view_eq (Function.update_self ..) hd
    rw [FileState.view_bytes hd] at hagain
    dsimp only at hagain
    rwa [Nat.sub_eq_zero_of_le hle, List.replicate_zero, List.append_nil,
      List.take_of_length_le (hlen.symm ▸ hgoal), hlen] at hagain

theorem truncate_exact_filled :
    let v := ((Operation.truncate (.inode 1) 1032192).perform
      ((Operation.mknod rootInode "a" 0o100644).perform fresh).2).2
    ∃ x, (Reachable v ∧ v.Head 1 ∧ v.isDir 1 = .ok false ∧ 5000 < wordLimit) ∧
      v.view 1 = .ok x ∧ Truncates v 1 5000 x := by
  intro v
  have hv : Reachable v ∧ v.Head 1 ∧ v.isDir 1 = .ok false :=
    filled_regular 1032192 (by decide) (by decide)
  -- what the volume comes from is not to be computed
  clear_value v
  have ⟨r, hh, hd⟩ := hv
  have hsize : 5000 < wordLimit := by decide
  have ⟨x, hx, ht⟩ := r.truncate_exact hh hd hsize
  exact ⟨x, ⟨r, hh, hd, hsize⟩, hx, ht⟩

end Tree
end InodeVolume
