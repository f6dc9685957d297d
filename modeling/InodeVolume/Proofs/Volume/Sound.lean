import InodeVolume.Proofs.Inode.Tail
import Mathlib.Logic.Function.Basic

namespace InodeVolume

-- A number that is no head has the empty chain.
structure Sound (links : Nat → Option Inode) (taken : Nat → Bool) (chains : Nat → Chain) : Prop where
  leads   : ∀ h, chains h ≠ [] → (chains h).Leads (some h) none
  formed  : ∀ h, (chains h).Formed
  links   : ∀ i c, links i = some c ↔ ∃ h, (i, c) ∈ chains h
  numbers : ∀ h, (chains h).numbers.Nodup
  apart   : ∀ h k i, i ∈ (chains h).numbers → i ∈ (chains k).numbers → h = k
  blocks  : ∀ h, (chains h).blocks.Nodup
  alone   : ∀ h k b, b ∈ (chains h).blocks → b ∈ (chains k).blocks → h = k
  beyond  : ∀ h b, b ∈ (chains h).blocks → reservedBlocks ≤ b
  taken   : ∀ b, taken b ↔ b < reservedBlocks ∨ ∃ h, b ∈ (chains h).blocks

-- What may take the place of a chain: it keeps links and blocks or gets them from those not taken.
structure Replaces (links : Nat → Option Inode) (taken : Nat → Bool) (h : Nat) (old new : Chain) :
    Prop where
  leads   : new ≠ [] → new.Leads (some h) none
  formed  : new.Formed
  numbers : new.numbers.Nodup
  fresh   : ∀ i ∈ new.numbers, i ∈ old.numbers ∨ links i = none
  blocks  : new.blocks.Nodup
  gained  : ∀ b ∈ new.blocks, b ∈ old.blocks ∨ taken b = false

namespace Sound

variable {links links' : Nat → Option Inode} {taken taken' : Nat → Bool} {chains : Nat → Chain}
variable {h i n : Nat} {c d : Inode} {l m new : Chain}

theorem link (s : Sound links taken chains) (hm : (i, c) ∈ chains h) : links i = some c :=
  (s.links i c).mpr ⟨h, hm⟩

theorem link_iff (s : Sound links taken chains) (hi : i ∈ (chains h).numbers) :
    links i = some c ↔ (i, c) ∈ chains h := by
  constructor
  case mpr => exact s.link
  case mp =>
    intro hc
    have ⟨k, hk⟩ := (s.links i c).mp hc
    exact s.apart h k i hi (Chain.mem_numbers.mpr ⟨c, hk⟩) ▸ hk

theorem not_mem_of_link (s : Sound links taken chains) (hi : links i = none) (h : Nat) :
    i ∉ (chains h).numbers := by
  intro hm
  have ⟨c, hc⟩ := Chain.mem_numbers.mp hm
  simp [s.link hc] at hi

theorem not_mem_of_taken (s : Sound links taken chains) {b : Nat} (hb : taken b = false) (h : Nat) :
    b ∉ (chains h).blocks := by
  intro hm
  simp [(s.taken b).mpr (.inr ⟨h, hm⟩)] at hb

theorem taken_of_mem (s : Sound links taken chains) {b : Nat} (hb : b ∈ (chains h).blocks) :
    taken b :=
  (s.taken b).mpr (.inr ⟨h, hb⟩)

theorem taken_same (s : Sound links taken chains) (hb : new.blocks = (chains h).blocks) (b : Nat) :
    taken b ↔ b ∈ new.blocks ∨ b ∉ (chains h).blocks ∧ taken b := by
  have : b ∈ (chains h).blocks → taken b := s.taken_of_mem
  grind

theorem isSome_iff (s : Sound links taken chains) :
    (links i).isSome ↔ ∃ h, i ∈ (chains h).numbers := by
  simp only [Option.isSome_iff_exists, s.links, Chain.mem_numbers]
  exact ⟨fun ⟨c, h, hm⟩ => ⟨h, c, hm⟩, fun ⟨h, c, hm⟩ => ⟨c, h, hm⟩⟩

theorem unique_update {items : Chain → List Nat} {old : List Nat} (ho : old = items (chains h))
    (hu : ∀ j k x, x ∈ items (chains j) → x ∈ items (chains k) → j = k)
    (hn : ∀ x ∈ items new, x ∈ old ∨ ∀ k, x ∉ items (chains k)) (j k x : Nat)
    (hj : x ∈ items (Function.update chains h new j))
    (hk : x ∈ items (Function.update chains h new k)) : j = k := by
  have hf : ∀ k ≠ h, x ∈ items new → x ∉ items (chains k) := by
    intro k hk hx
    cases hn x hx
    case inl hx => exact fun hm => hk (hu k h x hm (ho ▸ hx))
    case inr hx => exact hx k
  by_cases e : j = h
  case pos =>
    by_cases e' : k = h
    case pos => rw [e, e']
    case neg => simp [e, e'] at hj hk; exact absurd hk (hf k e' hj)
  case neg =>
    by_cases e' : k = h
    case pos => simp [e, e'] at hj hk; exact absurd hj (hf j e hk)
    case neg => simp [e, e'] at hj hk; exact hu j k x hj hk

theorem replace (s : Sound links taken chains) (r : Replaces links taken h (chains h) new)
    (hl : ∀ i c, links' i = some c ↔
      (i, c) ∈ new ∨ i ∉ (chains h).numbers ∧ links i = some c)
    (ht : ∀ b, taken' b ↔ b ∈ new.blocks ∨ b ∉ (chains h).blocks ∧ taken b) :
    Sound links' taken' (Function.update chains h new) where
  leads   := (Function.forall_update_iff _ fun k (l : Chain) => l ≠ [] → l.Leads (some k) none).mpr
    ⟨r.leads, fun k _ => s.leads k⟩
  formed  := (Function.forall_update_iff _ fun _ (l : Chain) => l.Formed).mpr
    ⟨r.formed, fun k _ => s.formed k⟩
  numbers := (Function.forall_update_iff _ fun _ (l : Chain) => l.numbers.Nodup).mpr
    ⟨r.numbers, fun k _ => s.numbers k⟩
  blocks  := (Function.forall_update_iff _ fun _ (l : Chain) => l.blocks.Nodup).mpr
    ⟨r.blocks, fun k _ => s.blocks k⟩
  apart   := unique_update rfl s.apart fun i hi => (r.fresh i hi).imp_right s.not_mem_of_link
  alone   := unique_update rfl s.alone fun b hb => (r.gained b hb).imp_right s.not_mem_of_taken
  beyond  := by
    refine (Function.forall_update_iff _ fun _ (l : Chain) => ∀ b ∈ l.blocks, reservedBlocks ≤ b).mpr
      ⟨fun b hb => ?_, fun k _ => s.beyond k⟩
    cases r.gained b hb
    case inl ho => exact s.beyond h b ho
    case inr hn =>
      by_contra hr
      simp [(s.taken b).mpr (.inl (Nat.lt_of_not_le hr))] at hn
  links i c := by
    rw [hl]
    constructor
    case mp =>
      intro hm
      cases hm
      case inl hm => exact ⟨h, by simpa using hm⟩
      case inr hm =>
        have ⟨k, hk⟩ := (s.links i c).mp hm.right
        have : k ≠ h := fun e => hm.left (Chain.mem_numbers.mpr ⟨c, e ▸ hk⟩)
        exact ⟨k, by simpa [this] using hk⟩
    case mpr =>
      intro ⟨k, hk⟩
      by_cases hkh : k = h
      case pos => subst hkh; exact .inl (by simpa using hk)
      case neg =>
        simp only [ne_eq, hkh, not_false_eq_true, Function.update_of_ne] at hk
        -- a link of another chain is none of this one
        refine .inr ⟨fun hm => hkh ?_, s.link hk⟩
        exact s.apart k h i (Chain.mem_numbers.mpr ⟨c, hk⟩) hm
  taken b := by
    rw [ht]
    constructor
    case mp =>
      intro hb
      cases hb
      case inl hb => exact .inr ⟨h, by simpa using hb⟩
      case inr hb =>
        cases (s.taken b).mp hb.right
        case inl hr => exact .inl hr
        case inr hk =>
          have ⟨k, hk⟩ := hk
          have : k ≠ h := fun e => hb.left (e ▸ hk)
          exact .inr ⟨k, by simpa [this] using hk⟩
    case mpr =>
      intro hb
      cases hb
      case inl hr =>
        exact .inr ⟨fun hm => absurd (s.beyond h b hm) (Nat.not_le.mpr hr), (s.taken b).mpr (.inl hr)⟩
      case inr hk =>
        have ⟨k, hk⟩ := hk
        by_cases hkh : k = h
        case pos => subst hkh; exact .inl (by simpa using hk)
        case neg =>
          simp only [ne_eq, hkh, not_false_eq_true, Function.update_of_ne] at hk
          exact .inr ⟨fun hm => hkh (s.alone k h b hk hm), (s.taken b).mpr (.inr ⟨k, hk⟩)⟩

theorem links_revise (s : Sound links taken chains) (hc : chains h = l ++ (i, c) :: m) (j : Nat)
    (x : Inode) :
    Function.update links i (some d) j = some x ↔
      (j, x) ∈ l ++ (i, d) :: m ∨ j ∉ (chains h).numbers ∧ links j = some x := by
  have hn : (i, c) ∈ chains h := by simp [hc]
  have hd := s.numbers h
  have hi : i ∈ (chains h).numbers := Chain.mem_numbers.mpr ⟨c, hn⟩
  have hu : ∀ y, (i, y) ∉ l ∧ (i, y) ∉ m := by
    simp only [hc, Chain.numbers_append, Chain.numbers_cons, List.nodup_append, List.nodup_cons] at hd
    intro y
    constructor
    case left  => exact fun hy => hd.right.right i (Chain.mem_numbers.mpr ⟨y, hy⟩) i (by simp) rfl
    case right => exact fun hy => hd.right.left.left (Chain.mem_numbers.mpr ⟨y, hy⟩)
  by_cases hj : j = i
  case pos =>
    subst hj
    simp [hu, hi, eq_comm]
  case neg =>
    rw [Function.update_of_ne hj]
    have : (j, x) ∈ l ++ (i, d) :: m ↔ (j, x) ∈ chains h := by simp [hc, hj]
    rw [this]
    by_cases hm : j ∈ (chains h).numbers
    case pos => simp [hm, s.link_iff hm]
    case neg =>
      have : (j, x) ∉ chains h := fun e => hm (Chain.mem_numbers.mpr ⟨x, e⟩)
      simp [hm, this]

theorem link_of_eq (s : Sound links taken chains) (hc : chains h = l ++ (i, c) :: m) :
    links i = some c :=
  s.link (h := h) (by rw [hc]; exact List.mem_append_right _ List.mem_cons_self)

theorem leads_of_eq (s : Sound links taken chains) (hc : chains h = l ++ (i, c) :: m) :
    Chain.Leads (some h) (l ++ (i, c) :: m) none :=
  hc ▸ s.leads h (by simp [hc])

theorem formed_of_eq (s : Sound links taken chains) (hc : chains h = l ++ (i, c) :: m) :
    Chain.Formed l ∧ c.WellFormed ∧ Chain.Formed m := by
  have := s.formed h
  rwa [hc, Chain.formed_append, Chain.formed_cons] at this

theorem exists_last (s : Sound links taken chains) (hc : chains h ≠ []) :
    ∃ l i c, chains h = l ++ [(i, c)] ∧ c.next = none := by
  have ⟨l, ⟨i, c⟩, hl⟩ := (List.eq_nil_or_concat (chains h)).resolve_left hc
  rw [List.concat_eq_append] at hl
  have ⟨_, _, _, hn⟩ := Chain.Leads.append.mp (s.leads_of_eq hl)
  exact ⟨l, i, c, hl, hn⟩

theorem ends_of_eq (s : Sound links taken chains) (hc : chains h = l ++ [(i, c)]) :
    Chain.Ends (chains h) l.length c.size :=
  hc ▸ Chain.ends_concat (s.leads_of_eq hc) (hc ▸ s.formed h)

theorem exists_ends (s : Sound links taken chains) (hc : chains h ≠ []) :
    ∃ full last, Chain.Ends (chains h) full last :=
  Chain.exists_ends (s.leads h hc) (s.formed h) hc

theorem revise (s : Sound links taken chains) (hc : chains h = l ++ (i, c) :: m)
    (hw : d.WellFormed) (hn : d.next = c.next) (ho : d.owned = c.owned) :
    Sound (Function.update links i (some d)) taken
      (Function.update chains h (l ++ (i, d) :: m)) := by
  have ⟨hl, _, hm⟩ := s.formed_of_eq hc
  have hnum : Chain.numbers (l ++ (i, d) :: m) = (chains h).numbers := by simp [hc]
  have hblk : Chain.blocks (l ++ (i, d) :: m) = (chains h).blocks := by simp [hc, ho]
  refine s.replace ?new (s.links_revise hc) (s.taken_same hblk)
  exact {
    leads   := fun _ => (s.leads_of_eq hc).replace hn
    formed  := Chain.formed_append.mpr ⟨hl, Chain.formed_cons.mpr ⟨hw, hm⟩⟩
    numbers := hnum ▸ s.numbers h
    fresh   := fun i hi => .inl (hnum ▸ hi)
    blocks  := hblk ▸ s.blocks h
    gained  := fun b hb => .inl (hblk ▸ hb)
  }

theorem occupy (s : Sound links taken chains) (hc : chains h = l ++ [(i, c)]) (hw : d.WellFormed)
    (hn : d.next = c.next) {b : Nat} (hb : taken b = false) (ho : d.owned = c.owned ++ [b]) :
    Sound (Function.update links i (some d)) (Function.update taken b true)
      (Function.update chains h (l ++ [(i, d)])) := by
  have ⟨hl, _, hm⟩ := s.formed_of_eq hc
  have hnum : Chain.numbers (l ++ [(i, d)]) = (chains h).numbers := by simp [hc]
  have hblk : Chain.blocks (l ++ [(i, d)]) = (chains h).blocks ++ [b] := by simp [hc, ho]
  have hfree := s.not_mem_of_taken hb h
  refine s.replace ?new (s.links_revise hc) ?taken
  case taken =>
    intro x
    have : x ∈ (chains h).blocks → taken x := s.taken_of_mem
    rw [hblk, Function.update_apply]
    grind
  exact {
    leads   := fun _ => (s.leads_of_eq hc).replace hn
    formed  := Chain.formed_append.mpr ⟨hl, Chain.formed_cons.mpr ⟨hw, hm⟩⟩
    numbers := hnum ▸ s.numbers h
    fresh   := fun i hi => .inl (hnum ▸ hi)
    blocks  := hblk ▸ List.nodup_append.mpr ⟨s.blocks h, by simp, by grind⟩
    gained  := by rw [hblk]; grind
  }

theorem vacate (s : Sound links taken chains) (hc : chains h = l ++ [(i, c)]) (hw : d.WellFormed)
    (hn : d.next = c.next) {b : Nat} (ho : c.owned = d.owned ++ [b]) :
    Sound (Function.update links i (some d)) (Function.update taken b false)
      (Function.update chains h (l ++ [(i, d)])) := by
  have ⟨hl, _, hm⟩ := s.formed_of_eq hc
  have hnum : Chain.numbers (l ++ [(i, d)]) = (chains h).numbers := by simp [hc]
  have hblk : (chains h).blocks = Chain.blocks (l ++ [(i, d)]) ++ [b] := by simp [hc, ho]
  have hd := s.blocks h
  rw [hblk, List.nodup_append] at hd
  refine s.replace ?new (s.links_revise hc) ?taken
  case taken =>
    intro x
    have : x ∈ (chains h).blocks → taken x := s.taken_of_mem
    rw [hblk] at this ⊢
    rw [Function.update_apply]
    grind
  exact {
    leads   := fun _ => (s.leads_of_eq hc).replace hn
    formed  := Chain.formed_append.mpr ⟨hl, Chain.formed_cons.mpr ⟨hw, hm⟩⟩
    numbers := hnum ▸ s.numbers h
    fresh   := fun i hi => .inl (hnum ▸ hi)
    blocks  := hd.left
    gained  := by rw [hblk]; grind
  }

theorem extend (s : Sound links taken chains) (hc : chains h = l ++ [(i, c)]) (hw : d.WellFormed)
    (hn : d.next = some n) (ho : d.owned = c.owned) (hf : links n = none) :
    Sound (Function.update (Function.update links n (some {})) i (some d)) taken
      (Function.update chains h (l ++ [(i, d), (n, {})])) := by
  have ⟨hl, _, hm⟩ := s.formed_of_eq hc
  have hfree := s.not_mem_of_link hf h
  have hnum : Chain.numbers (l ++ [(i, d), (n, {})]) = (chains h).numbers ++ [n] := by simp [hc]
  have hblk : Chain.blocks (l ++ [(i, d), (n, {})]) = (chains h).blocks := by simp [hc, ho]
  have hi : i ≠ n := by
    intro e
    exact hfree (by simp [hc, e])
  refine s.replace ?new ?links (s.taken_same hblk)
  case links =>
    intro j x
    have hx : ∀ y, (n, y) ∉ l := by
      intro y hy
      exact hfree (by simpa [hc] using .inl (Chain.mem_numbers.mpr ⟨y, hy⟩))
    rw [Function.update_comm hi.symm]
    by_cases hj : j = n
    case pos => subst hj; simp [hf, hx, Ne.symm hi, eq_comm (a := x)]
    case neg => rw [Function.update_of_ne hj, s.links_revise hc]; simp [hj]
  exact {
    leads := fun _ => by
      have ⟨k, h₁, h₂, _⟩ := Chain.Leads.append.mp (s.leads_of_eq hc)
      exact Chain.Leads.append.mpr ⟨k, h₁, h₂, hn, rfl⟩
    formed  := Chain.formed_append.mpr
      ⟨hl, Chain.formed_cons.mpr ⟨hw, Chain.formed_cons.mpr ⟨.default, hm⟩⟩⟩
    numbers := hnum ▸ List.nodup_append.mpr ⟨s.numbers h, by simp, by grind⟩
    fresh   := by rw [hnum]; grind
    blocks  := hblk ▸ s.blocks h
    gained  := fun b hb => .inl (hblk ▸ hb)
  }

theorem cut (s : Sound links taken chains) {p : Nat} {e : Inode}
    (hc : chains h = l ++ [(p, e), (i, c)]) (ho : c.owned = []) :
    Sound (Function.update (Function.update links p (some { e with next := none })) i none) taken
      (Function.update chains h (l ++ [(p, { e with next := none })])) := by
  have ⟨hl, hw, _⟩ := s.formed_of_eq hc
  have hw' := hw.relink none (by simp)
  have hnum : (chains h).numbers = Chain.numbers (l ++ [(p, { e with next := none })]) ++ [i] := by
    simp [hc]
  have hblk : (chains h).blocks = Chain.blocks (l ++ [(p, { e with next := none })]) := by
    simp [hc, ho]; rfl
  have hd := s.numbers h
  rw [hnum, List.nodup_append] at hd
  refine s.replace ?new ?links (s.taken_same hblk.symm)
  case links =>
    intro j x
    by_cases hj : j = i
    case pos =>
      have hi : (i, x) ∉ l ++ [(p, { e with next := none })] := by
        intro hm
        exact hd.right.right i (Chain.mem_numbers.mpr ⟨x, hm⟩) i (by simp) rfl
      have ho : i ∈ (chains h).numbers := by simp [hc]
      simp only [hj, Function.update_self, reduceCtorEq, hi, ho, not_true, false_and, or_self]
    case neg => rw [Function.update_of_ne hj, s.links_revise hc]; simp [hj]
  exact {
    leads := fun _ => by
      have ⟨k, h₁, h₂, _⟩ := Chain.Leads.append.mp (s.leads_of_eq hc)
      exact Chain.Leads.append.mpr ⟨k, h₁, h₂, rfl⟩
    formed  := Chain.formed_append.mpr ⟨hl, Chain.formed_cons.mpr ⟨hw', Chain.formed_nil⟩⟩
    numbers := hd.left
    fresh   := by rw [hnum]; grind
    blocks  := hblk ▸ s.blocks h
    gained  := fun b hb => .inl (hblk ▸ hb)
  }

theorem create (s : Sound links taken chains) (hf : links n = none) (hw : d.WellFormed)
    (hn : d.next = none) (ho : d.owned = []) :
    Sound (Function.update links n (some d)) taken (Function.update chains n [(n, d)]) := by
  have hfree := s.not_mem_of_link hf
  have hc : chains n = [] := by
    by_contra hx
    cases hm : chains n
    case nil      => exact hx hm
    case cons a l =>
      have ⟨ha, _⟩ := hm ▸ s.leads n hx
      have hn := Option.some.inj ha
      exact hfree n (by rw [hm, Chain.numbers, List.map_cons, hn]; exact List.mem_cons_self)
  refine s.replace ?new ?links (s.taken_same (by simp [hc, ho]))
  case links =>
    intro j x
    by_cases hj : j = n
    case pos => subst hj; simp [hf, eq_comm]
    case neg => rw [Function.update_of_ne hj]; simp [hj, hc]
  exact {
    leads   := fun _ => ⟨rfl, hn⟩
    formed  := Chain.formed_cons.mpr ⟨hw, Chain.formed_nil⟩
    numbers := by simp
    fresh   := by simp [hf]
    blocks  := by simp [ho]
    gained  := by simp [ho]
  }

theorem delete (s : Sound links taken chains) (hc : chains h = [(i, c)]) (ho : c.owned = []) :
    Sound (Function.update links i none) taken (Function.update chains h []) := by
  refine s.replace ?new ?links (s.taken_same (by simp [hc, ho]))
  case links =>
    intro j x
    by_cases hj : j = i <;> simp [hj, hc]
  exact {
    leads   := by simp
    formed  := Chain.formed_nil
    numbers := by simp
    fresh   := by simp
    blocks  := by simp
    gained  := by simp
  }

end Sound
end InodeVolume
