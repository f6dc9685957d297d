import InodeVolume.Proofs.Inode.Chain

namespace InodeVolume

namespace Volume

structure Walks (v : Volume) (h : Nat) (l : Chain) : Prop where
  links : ∀ i c, (i, c) ∈ l → v.link? i = some c
  leads : l.Leads (some h) none

variable {v w : Volume} {h i j limit skip : Nat} {l m : Chain} {c d : Inode}

theorem walks_of_chainFrom (hl : v.chainFrom limit h = .ok l) : v.Walks h l := by
  induction limit generalizing h l
  case zero => simp [chainFrom] at hl
  case succ limit hi =>
    cases hc : v.link? h
    case none => simp [chainFrom, inode_of_not_link? hc, bind, Except.bind] at hl
    case some c =>
      simp only [chainFrom, inode_of_link? hc, bind, Except.bind] at hl
      cases hn : c.next
      case none =>
        simp only [hn] at hl
        obtain rfl := Except.ok.inj hl
        refine ⟨fun i d hm => ?_, rfl, hn⟩
        obtain ⟨rfl, rfl⟩ := Prod.mk.inj (List.mem_singleton.mp hm)
        exact hc
      case some n =>
        simp only [hn] at hl
        obtain ⟨m, hm, hl⟩ := Except.bind_eq_ok_iff.mp hl
        obtain rfl := Except.ok.inj hl
        have hw := hi hm
        refine ⟨fun i d hmem => ?_, rfl, hn ▸ hw.leads⟩
        cases List.mem_cons.mp hmem
        case inl he => obtain ⟨rfl, rfl⟩ := Prod.mk.inj he; exact hc
        case inr hm => exact hw.links i d hm

namespace Walks

theorem ne_nil (hw : v.Walks h l) : l ≠ [] := by
  intro e
  have := e ▸ hw.leads
  simp [Chain.Leads] at this

theorem head_mem (hw : v.Walks h l) : h ∈ l.numbers := by
  cases l
  case nil => exact absurd rfl hw.ne_nil
  case cons x l =>
    rw [Option.some.inj hw.leads.left]
    exact List.mem_cons_self

theorem tail {x : Link} (hw : v.Walks h (x :: l)) {n : Nat} (hn : x.2.next = some n) :
    v.Walks n l :=
  ⟨fun i c hm => hw.links i c (List.mem_cons_of_mem x hm), hn ▸ hw.leads.right⟩

theorem tail_eq_nil {x : Link} (hw : v.Walks h (x :: l)) (hn : x.2.next = none) : l = [] :=
  Chain.Leads.eq_nil (hn ▸ hw.leads.right)

theorem unique (hl : v.Walks h l) (hm : v.Walks h m) : l = m := by
  induction l generalizing h m
  case nil => exact absurd rfl hl.ne_nil
  case cons x l hi =>
    cases m
    case nil => exact absurd rfl hm.ne_nil
    case cons y m =>
      obtain ⟨i, c⟩ := x
      obtain ⟨j, d⟩ := y
      obtain rfl := Option.some.inj hl.leads.left
      obtain rfl := Option.some.inj hm.leads.left
      have hc := hl.links _ _ List.mem_cons_self
      obtain rfl := Option.some.inj (hc.symm.trans (hm.links _ _ List.mem_cons_self))
      cases hn : c.next
      case none   => rw [hl.tail_eq_nil hn, hm.tail_eq_nil hn]
      case some n => rw [hi (hl.tail hn) (hm.tail hn)]

theorem drop (hw : v.Walks h (l ++ (i, c) :: m)) : v.Walks i ((i, c) :: m) := by
  have ⟨_, _, hr⟩ := Chain.Leads.append.mp hw.leads
  exact ⟨fun j d hm => hw.links j d (List.mem_append_right l hm), rfl, hr.right⟩

theorem nodup (hw : v.Walks h l) : l.numbers.Nodup := by
  induction l generalizing h
  case nil => exact List.nodup_nil
  case cons x l hi =>
    obtain ⟨i, c⟩ := x
    rw [Chain.numbers_cons, List.nodup_cons]
    constructor
    case left =>
      intro hm
      have ⟨d, hd⟩ := Chain.mem_numbers.mp hm
      have ⟨k, m, hkm⟩ := List.append_of_mem hd
      obtain rfl := Option.some.inj hw.leads.left
      rw [hkm] at hw
      have := congrArg List.length ((hw.drop (l := (h, c) :: k)).unique hw)
      simp at this
      omega
    case right =>
      cases hn : c.next
      case none =>
        rw [hw.tail_eq_nil hn]
        exact List.nodup_nil
      case some n => exact hi (hw.tail hn)

theorem length_le (hw : v.Walks h l) : l.length ≤ inodeCount := by
  refine Chain.length_le hw.nodup fun i hi => ?_
  have ⟨c, hm⟩ := Chain.mem_numbers.mp hi
  exact lt_of_link? (hw.links i c hm)

theorem chain_eq (hw : v.Walks h l) : v.chain h = .ok l :=
  chainFrom_eq hw.links hw.leads hw.length_le

theorem fileSize_eq (hw : v.Walks h l) : v.fileSize h = .ok l.size := by
  have : ∀ l : Chain, l.foldr (fun link total => link.2.size + total) 0 = l.size := by
    intro l
    induction l
    case nil         => rfl
    case cons a l hi => rw [List.foldr_cons, hi, Chain.size]
  rw [fileSize, hw.chain_eq, ← this]
  rfl

theorem lastLink_eq {x : Link} (hw : v.Walks h (l ++ [x])) : v.lastLink h = .ok (x, l.reverse) := by
  rw [lastLink, hw.chain_eq]
  simp only [bind, Except.bind, List.reverse_append, List.reverse_cons, List.reverse_nil,
    List.nil_append, List.singleton_append]
  rfl

theorem blockFrom_eq (hw : v.Walks h l) (hn : l.length < limit) (slot : Fin slotsPerInode) :
    v.blockFrom slot limit skip h = .ok (l[skip]?.bind fun a => a.2.slot slot) := by
  induction l generalizing h limit skip
  case nil => exact absurd rfl hw.ne_nil
  case cons x l hi =>
    obtain ⟨k, c⟩ := x
    obtain rfl := Option.some.inj hw.leads.left
    obtain ⟨limit, rfl⟩ := Nat.exists_eq_succ_of_ne_zero (Nat.ne_zero_of_lt hn)
    rw [blockFrom, inode_of_link? (hw.links h c List.mem_cons_self)]
    cases skip
    case zero => exact congrArg Except.ok (Inode.slot_of_lt slot.isLt).symm
    case succ skip =>
      cases hx : c.next
      case none   => simp [hw.tail_eq_nil hx, bind, Except.bind, pure, Except.pure, hx]
      case some n =>
        simp only [bind, Except.bind, hx]
        exact hi (hw.tail hx) (Nat.lt_of_succ_lt_succ hn)

theorem fileBlock_eq (hw : v.Walks h l) (hf : l.Formed) (n : Nat) :
    v.fileBlock h n = .ok l.blocks[n]? := by
  rw [fileBlock, hw.blockFrom_eq (Nat.lt_succ_of_le hw.length_le), hf.laden.getElem?_blocks hw.leads]
  refine congrArg Except.ok (Option.bind_congr fun a ha => ?_)
  exact ((hf a (List.mem_of_getElem? ha)).getElem?_owned _).symm

theorem fileBlock_of_block (hw : v.Walks h l) (hf : l.Laden) {n b : Nat}
    (hb : l.blocks[n]? = some b) : v.fileBlock h n = .ok (some b) := by
  rw [hf.getElem?_blocks hw.leads, Option.bind_eq_some_iff] at hb
  obtain ⟨a, ha, ho⟩ := hb
  rw [fileBlock, hw.blockFrom_eq (Nat.lt_succ_of_le hw.length_le), Option.bind_eq_some_iff.mpr]
  exact ⟨a, ha, (hf a (List.mem_of_getElem? ha)).slot_of_owned ho⟩

theorem last_not_mem (hw : v.Walks h (l ++ [(i, c)])) : i ∉ l.numbers := by
  intro hm
  have := hw.nodup
  rw [Chain.numbers_append, List.nodup_append] at this
  exact this.right.right i hm i (by simp) rfl

theorem revise (hw : v.Walks h (l ++ [(i, c)])) (hd : d.next = none)
    (hx : w.link? = Function.update v.link? i (some d)) : w.Walks h (l ++ [(i, d)]) := by
  constructor
  case leads =>
    have ⟨k, hl, hi, _⟩ := Chain.Leads.append.mp hw.leads
    exact Chain.Leads.append.mpr ⟨k, hl, hi, hd⟩
  case links =>
    intro j e hm
    rw [hx, Function.update_apply]
    cases List.mem_append.mp hm
    case inl hm =>
      have hne : j ≠ i := fun e => hw.last_not_mem (e ▸ Chain.mem_numbers.mpr ⟨_, hm⟩)
      rw [if_neg hne]
      exact hw.links j e (List.mem_append_left _ hm)
    case inr hm =>
      obtain ⟨rfl, rfl⟩ := Prod.mk.inj (List.mem_singleton.mp hm)
      rw [if_pos rfl]

theorem cut (hw : v.Walks h (l ++ [(j, d)] ++ [(i, c)]))
    (hx : w.link? = Function.update (Function.update v.link? j (some { d with next := none })) i none) :
    w.Walks h (l ++ [(j, { d with next := none })]) := by
  have hi := hw.last_not_mem
  have hj : j ∉ l.numbers := by
    have := hw.nodup
    rw [Chain.numbers_append, Chain.numbers_append, List.nodup_append, List.nodup_append] at this
    exact fun hm => this.left.right.right j hm j (by simp) rfl
  constructor
  case leads =>
    have ⟨_, hl, _⟩ := Chain.Leads.append.mp hw.leads
    have ⟨k, hl, hd, _⟩ := Chain.Leads.append.mp hl
    exact Chain.Leads.append.mpr ⟨k, hl, hd, rfl⟩
  case links =>
    intro k e hm
    have hne : k ≠ i := by
      intro e
      subst e
      refine hi ?_
      rw [Chain.numbers_append, List.mem_append]
      cases List.mem_append.mp hm
      case inl hm => exact .inl (Chain.mem_numbers.mpr ⟨_, hm⟩)
      case inr hm => exact .inr (by simp [(Prod.mk.inj (List.mem_singleton.mp hm)).left])
    rw [hx, Function.update_of_ne hne, Function.update_apply]
    cases List.mem_append.mp hm
    case inl hm =>
      have hne : k ≠ j := fun e => hj (e ▸ Chain.mem_numbers.mpr ⟨_, hm⟩)
      rw [if_neg hne]
      exact hw.links k e (List.mem_append_left _ (List.mem_append_left _ hm))
    case inr hm =>
      obtain ⟨rfl, rfl⟩ := Prod.mk.inj (List.mem_singleton.mp hm)
      rw [if_pos rfl]

theorem exists_last (hw : v.Walks h l) : ∃ m i c, l = m ++ [(i, c)] ∧ c.next = none := by
  have ⟨x, hx⟩ := List.getLast?_isSome.mpr hw.ne_nil |> Option.isSome_iff_exists.mp
  obtain ⟨i, c⟩ := x
  have ⟨m, hm⟩ := List.getLast?_eq_some_iff.mp hx
  have ⟨_, _, hr⟩ := Chain.Leads.append.mp (hm ▸ hw.leads)
  exact ⟨m, i, c, hm, hr.right⟩

end Walks

theorem chain_eq_ok_iff : v.chain h = .ok l ↔ v.Walks h l :=
  ⟨walks_of_chainFrom, Walks.chain_eq⟩

theorem fileSize_error {e : Fault} (hc : v.chain h = .error e) : v.fileSize h = .error e := by
  rw [fileSize, hc]
  rfl

theorem lastLink_error {e : Fault} (hc : v.chain h = .error e) : v.lastLink h = .error e := by
  rw [lastLink, hc]
  rfl

theorem exists_walk_of_fileSize {n : Nat} (hn : v.fileSize h = .ok n) :
    ∃ l, v.Walks h l ∧ n = l.size := by
  cases hc : v.chain h
  case error => simp [fileSize_error hc] at hn
  case ok l  =>
    have hw := chain_eq_ok_iff.mp hc
    exact ⟨l, hw, Except.ok.inj (hn.symm.trans hw.fileSize_eq)⟩

end Volume
end InodeVolume
