import InodeVolume.Proofs.Image.Setup
import Mathlib.Logic.Relation

namespace InodeVolume

namespace Volume

def Follows (v : Volume) (i j : Nat) : Prop :=
  ∃ c, v.link? i = some c ∧ c.next = some j

-- Going on from `h`, one comes to `i`. All that is passed before is taken.
def LeadsTo (v : Volume) (h i : Nat) : Prop :=
  Relation.ReflTransGen v.Follows h i

def Closes (v : Volume) (h : Nat) : Prop :=
  ∃ i c, v.LeadsTo h i ∧ v.link? i = some c ∧ c.next = none

def Breaks (v : Volume) (h : Nat) : Prop :=
  ∃ i, v.LeadsTo h i ∧ v.link? i = none

def Loops (v : Volume) (h : Nat) : Prop :=
  ∃ i, v.LeadsTo h i ∧ Relation.TransGen v.Follows i i

variable {v : Volume} {h i j k limit skip : Nat} {c : Inode} {l : Chain} {e : Fault}

theorem Follows.unique (hi : v.Follows i j) (hk : v.Follows i k) : j = k := by
  have ⟨c, hc, hn⟩ := hi
  have ⟨d, hd, hm⟩ := hk
  obtain rfl := Option.some.inj (hc.symm.trans hd)
  exact Option.some.inj (hn.symm.trans hm)

theorem chainFrom_of_free (hh : v.link? h = none) :
    v.chainFrom (limit + 1) h = .error (.errno .notFound) := by
  rw [chainFrom, inode_of_not_link? hh]
  rfl

theorem chainFrom_of_follows (hf : v.Follows h j) (hj : v.chainFrom limit j = .error e) :
    v.chainFrom (limit + 1) h = .error e := by
  have ⟨c, hc, hn⟩ := hf
  simp only [chainFrom, inode_of_link? hc, bind, Except.bind, hn, hj]

namespace Loops

theorem follows (hl : v.Loops h) : ∃ j, v.Follows h j ∧ v.Loops j := by
  have ⟨i, hi, hc⟩ := hl
  rcases Relation.ReflTransGen.cases_head hi with rfl | ⟨j, hj, hji⟩
  case inr => exact ⟨j, hj, i, hji, hc⟩
  case inl =>
    have ⟨j, hj, hjh⟩ := Relation.TransGen.head'_iff.mp hc
    exact ⟨j, hj, h, hjh, hc⟩

theorem chainFrom_eq (hl : v.Loops h) : v.chainFrom limit h = .error (.errno .io) := by
  induction limit generalizing h
  case zero => rfl
  case succ limit hi =>
    have ⟨j, hj, hlj⟩ := hl.follows
    exact chainFrom_of_follows hj (hi hlj)

theorem not_breaks (hl : v.Loops h) : ¬v.Breaks h := by
  intro ⟨i, hi, hfree⟩
  induction hi using Relation.ReflTransGen.head_induction_on
  case refl =>
    have ⟨_, ⟨_, hc, _⟩, _⟩ := hl.follows
    simp [hfree] at hc
  case head hj _ ih =>
    have ⟨_, hk, hlk⟩ := hl.follows
    exact ih (hj.unique hk ▸ hlk)

end Loops

namespace Walks

theorem mem_iff_leadsTo (hw : v.Walks h l) : i ∈ l.numbers ↔ v.LeadsTo h i := by
  constructor
  case mp =>
    intro hi
    induction l generalizing h
    case nil => simp at hi
    case cons x l ih =>
      obtain ⟨k, c⟩ := x
      obtain rfl := Option.some.inj hw.leads.left
      cases List.mem_cons.mp hi
      case inl he => exact he ▸ .refl
      case inr hm =>
        cases hn : c.next
        case none => simp [hw.tail_eq_nil hn] at hm
        case some n =>
          exact .head ⟨c, hw.links h c List.mem_cons_self, hn⟩ (ih (hw.tail hn) hm)
  case mpr =>
    intro hi
    induction hi
    case refl => exact hw.head_mem
    case tail j k _ hf hm =>
      have ⟨c, hc, hn⟩ := hf
      have ⟨d, hd⟩ := Chain.mem_numbers.mp hm
      obtain rfl := Option.some.inj (hc.symm.trans (hw.links j d hd))
      exact hw.leads.next_mem hd hn

theorem closes (hw : v.Walks h l) : v.Closes h := by
  have ⟨m, i, c, hl, hn⟩ := hw.exists_last
  have hm : (i, c) ∈ l := by simp [hl]
  exact ⟨i, c, hw.mem_iff_leadsTo.mp (Chain.mem_numbers.mpr ⟨c, hm⟩), hw.links i c hm, hn⟩

end Walks

theorem Closes.exists_walk (hc : v.Closes h) : ∃ l, v.Walks h l := by
  obtain ⟨i, c, hi, hl, hn⟩ := hc
  induction hi using Relation.ReflTransGen.head_induction_on
  case refl => exact ⟨[(i, c)], by simpa using hl, rfl, hn⟩
  case head h j hj _ ih =>
    have ⟨d, hd, hnd⟩ := hj
    have ⟨l, hl⟩ := ih
    refine ⟨(h, d) :: l, fun k x hm => ?_, rfl, hnd ▸ hl.leads⟩
    cases List.mem_cons.mp hm
    case inl he => obtain ⟨rfl, rfl⟩ := Prod.mk.inj he; exact hd
    case inr hm => exact hl.links k x hm

theorem Breaks.exists_chainFrom_eq (hb : v.Breaks h) :
    v.chainFrom limit h = .error (.errno .notFound) ∨ v.chainFrom limit h = .error (.errno .io) := by
  obtain ⟨i, hi, hfree⟩ := hb
  induction hi using Relation.ReflTransGen.head_induction_on generalizing limit
  case refl =>
    cases limit
    case zero       => exact .inr rfl
    case succ limit => exact .inl (chainFrom_of_free hfree)
  case head hj _ ih =>
    cases limit
    case zero       => exact .inr rfl
    case succ limit =>
      exact ih.imp (chainFrom_of_follows hj) (chainFrom_of_follows hj)

structure Wanders (v : Volume) (h : Nat) (l : Chain) (k : Nat) : Prop where
  links : ∀ i c, (i, c) ∈ l → v.link? i = some c
  leads : l.Leads (some h) (some k)

namespace Wanders

theorem nil (v : Volume) (h : Nat) : v.Wanders h [] h where
  links := by simp
  leads := rfl

theorem cons (hc : v.link? h = some c) (hn : c.next = some j) (hw : v.Wanders j l k) :
    v.Wanders h ((h, c) :: l) k where
  links := by
    intro i d hm
    cases List.mem_cons.mp hm
    case inl he => obtain ⟨rfl, rfl⟩ := Prod.mk.inj he; exact hc
    case inr hm => exact hw.links i d hm
  leads := ⟨rfl, hn ▸ hw.leads⟩

theorem inodeTaken (hw : v.Wanders h l k) (hi : i ∈ l.numbers) : v.inodeTaken i := by
  have ⟨_, hm⟩ := Chain.mem_numbers.mp hi
  rw [← isSome_link?, hw.links i _ hm]
  rfl

theorem uncons {x : Link} (hw : v.Wanders h (x :: l) k) :
    x.1 = h ∧ ∃ j, v.Follows h j ∧ v.Wanders j l k := by
  obtain ⟨i, c⟩ := x
  have ⟨he, hl⟩ := hw.leads
  obtain rfl := Option.some.inj he
  have hc := hw.links h c List.mem_cons_self
  cases hn : c.next
  case none =>
    rw [hn] at hl
    cases l
    case nil      => simp [Chain.Leads] at hl
    case cons y _ => simp [Chain.Leads] at hl
  case some j =>
    exact ⟨rfl, j, ⟨c, hc, hn⟩, fun i d hm => hw.links i d (List.mem_cons_of_mem _ hm), hn ▸ hl⟩

theorem leadsTo (hw : v.Wanders h l k) : v.LeadsTo h k := by
  induction l generalizing h
  case nil => exact Option.some.inj hw.leads ▸ .refl
  case cons x l hi =>
    have ⟨_, j, hj, hl⟩ := hw.uncons
    exact .head hj (hi hl)

theorem of_mem (hw : v.Wanders h l k) (hi : i ∈ l.numbers) :
    v.LeadsTo h i ∧ Relation.TransGen v.Follows i k := by
  induction l generalizing h
  case nil => simp at hi
  case cons x l ih =>
    have ⟨he, j, hj, hl⟩ := hw.uncons
    cases List.mem_cons.mp hi
    case inl hx =>
      obtain rfl : i = h := hx.trans he
      exact ⟨.refl, .head' hj hl.leadsTo⟩
    case inr hm =>
      have ⟨hji, hik⟩ := ih hl hm
      exact ⟨.head hj hji, hik⟩

theorem nodup (hw : v.Wanders h l k) (hl : ¬v.Loops h) : l.numbers.Nodup ∧ k ∉ l.numbers := by
  refine ⟨?_, fun hk => hl ⟨k, hw.of_mem hk⟩⟩
  induction l generalizing h
  case nil => exact List.nodup_nil
  case cons x l ih =>
    have ⟨he, j, hj, hr⟩ := hw.uncons
    refine List.nodup_cons.mpr ⟨fun hm => hl ?_, ih hr fun ⟨i, hi, hc⟩ => hl ⟨i, .head hj hi, hc⟩⟩
    exact ⟨h, .refl, .head' hj (he ▸ (hr.of_mem hm).left)⟩

end Wanders

theorem exists_way_of_chainFrom (he : v.chainFrom limit h = .error e) :
    ∃ l k, v.Wanders h l k ∧
      (e = .errno .notFound ∧ v.link? k = none ∨ e = .errno .io ∧ l.length = limit) := by
  induction limit generalizing h
  case zero => exact ⟨[], h, .nil v h, .inr ⟨(Except.error.inj he).symm, rfl⟩⟩
  case succ limit hi =>
    cases hc : v.link? h
    case none =>
      rw [chainFrom_of_free hc] at he
      exact ⟨[], h, .nil v h, .inl ⟨(Except.error.inj he).symm, hc⟩⟩
    case some c =>
      rw [chainFrom, inode_of_link? hc] at he
      cases hn : c.next
      case none => simp [bind, Except.bind, hn, pure, Except.pure] at he
      case some n =>
        simp only [bind, Except.bind, hn] at he
        cases hr : v.chainFrom limit n
        case ok => simp [hr, pure, Except.pure] at he
        case error d =>
          obtain rfl : d = e := by simpa [hr] using he
          obtain ⟨l, k, hw, hd⟩ := hi hr
          exact ⟨(h, c) :: l, k, hw.cons hc hn, by simpa using hd⟩

-- A walk that has met as many links as there are inodes goes round, or has met all inodes.
theorem Wanders.of_length (hw : v.Wanders h l k) (hn : l.length = inodeCount) :
    v.Loops h ∨ v.Breaks h ∧ ∀ i < inodeCount, v.inodeTaken i ∧ v.LeadsTo h i := by
  by_cases hl : v.Loops h
  case pos => exact .inl hl
  case neg =>
    obtain ⟨hnodup, hk⟩ := hw.nodup hl
    have hlt : ∀ i ∈ l.numbers, i < inodeCount := by
      intro i hi
      obtain ⟨_, hm⟩ := Chain.mem_numbers.mp hi
      exact lt_of_link? (hw.links i _ hm)
    have hsub := hnodup.subperm fun i hi => List.mem_range.mpr (hlt i hi)
    have hperm := hsub.perm_of_length_le (by simp [Chain.numbers, hn])
    have hall : ∀ i < inodeCount, i ∈ l.numbers :=
      fun i hi => hperm.mem_iff.mpr (List.mem_range.mpr hi)
    refine .inr ⟨⟨k, hw.leadsTo, ?_⟩, fun i hi => ?_⟩
    case refine_2 => exact ⟨hw.inodeTaken (hall i hi), (hw.of_mem (hall i hi)).left⟩
    by_contra hc
    obtain ⟨_, hc⟩ := Option.ne_none_iff_exists'.mp hc
    exact hk (hall k (lt_of_link? hc))

-- Where the links lead decides what a walk answers: it has a chain just if it comes to a last link,
-- and it is cut off if it goes round. A chain has each of its links once, and whatever else is
-- asked of the file is what the chain says.
theorem chain_exact (v : Volume) (h : Nat) :
    ((∃ l, v.chain h = .ok l) ↔ v.Closes h) ∧
    (v.Loops h → v.chain h = .error (.errno .io)) ∧
    (v.Breaks h → v.chain h = .error (.errno .notFound) ∨
      v.chain h = .error (.errno .io) ∧ ∀ i < inodeCount, v.inodeTaken i ∧ v.LeadsTo h i) ∧
    (v.Closes h ∨ v.Loops h ∨ v.Breaks h) ∧
    ∀ l : Chain, v.chain h = .ok l →
      v.Walks h l ∧ (∀ i, i ∈ l.numbers ↔ v.LeadsTo h i) ∧
      l.numbers.Nodup ∧ l.length ≤ inodeCount ∧
      v.fileSize h = .ok l.size ∧
      (∃ last before, v.lastLink h = .ok (last, before) ∧ l = before.reverse ++ [last]) ∧
      ∀ n, v.fileBlock h n =
        .ok (l[n / slotsPerInode]?.bind fun link => link.2.slot (n % slotsPerInode)) := by
  refine ⟨⟨?chain, ?closes⟩, Loops.chainFrom_eq, ?breaks, ?cases, ?answers⟩
  case chain  => exact fun ⟨l, hl⟩ => (chain_eq_ok_iff.mp hl).closes
  case closes => exact fun hc => hc.exists_walk.imp fun l hw => hw.chain_eq
  case breaks =>
    intro hb
    refine hb.exists_chainFrom_eq.imp_right fun hio => ⟨hio, ?_⟩
    have ⟨l, k, hw, hend⟩ := exists_way_of_chainFrom hio
    have hlen := (hend.resolve_left fun hn => by simp at hn).right
    exact ((hw.of_length hlen).resolve_left fun hl => hl.not_breaks hb).right
  case cases =>
    cases hc : v.chain h
    case ok l => exact .inl (chain_eq_ok_iff.mp hc).closes
    case error e =>
      have ⟨l, k, hw, hend⟩ := exists_way_of_chainFrom hc
      rcases hend with ⟨_, hk⟩ | ⟨_, hlen⟩
      case inl => exact .inr (.inr ⟨k, hw.leadsTo, hk⟩)
      case inr => exact .inr ((hw.of_length hlen).imp_right And.left)
  case answers =>
    intro l hl
    have hw := chain_eq_ok_iff.mp hl
    have ⟨m, i, c, hm, _⟩ := hw.exists_last
    refine ⟨hw, fun i => hw.mem_iff_leadsTo, hw.nodup, hw.length_le, hw.fileSize_eq,
      ⟨(i, c), m.reverse, (hm ▸ hw).lastLink_eq, by rw [List.reverse_reverse, hm]⟩, fun n => ?_⟩
    exact hw.blockFrom_eq (Nat.lt_succ_of_le hw.length_le) (Fin.ofNat slotsPerInode n)

def circling : Volume :=
  (zero.setBit inodeMapStart 0 true).write (recordStart 0) (Record.ofInode { next := some 0 }).bytes

theorem chain_exact_circling :
    circling.Loops 0 ∧ circling.chain 0 = .error (.errno .io) ∧
    circling.Breaks 1 ∧ circling.chain 1 = .error (.errno .notFound) ∧
    ∃ l : Chain, fresh.chain rootInode = .ok l ∧ l.numbers.Nodup ∧
      fresh.fileSize rootInode = .ok l.size := by
  have ht : (zero.setBit inodeMapStart 0 true).inodeTaken 0 := by
    rw [inodeTaken_setInodeBit zero (by decide), Function.update_self]
  have r := relinked_writeRecord (zero.setBit inodeMapStart 0 true) (i := 0) (by decide)
    (.ofInode { next := some 0 })
  rw [if_pos ht, Record.inode_ofInode (Inode.Storable.default.relink (some 0) (by simp))] at r
  have hself : circling.Follows 0 0 :=
    ⟨_, (congrFun r.links 0).trans (Function.update_self ..), rfl⟩
  have hfree : circling.link? 1 = none := by
    have := (relinked_setInodeBit zero (i := 0) (by decide) true).links
    rw [circling, r.links, Function.update_of_ne (by decide), this, Function.update_of_ne (by decide),
      link?_zero]
  have hloops : circling.Loops 0 := ⟨0, .refl, .single hself⟩
  have hbreaks : circling.Breaks 1 := ⟨1, .refl, hfree⟩
  have ⟨_, hio, _⟩ := chain_exact circling 0
  have ⟨_, _, hnone, _⟩ := chain_exact circling 1
  have ⟨chains, sound, _, c, k, hroot, _⟩ := holds_fresh.exists_chain (Function.update_self ..)
  have hl := chain_eq sound (show chains rootInode ≠ [] by simp [hroot])
  have ⟨_, _, _, _, hall⟩ := chain_exact fresh rootInode
  have ⟨_, _, hn, _, hs, _⟩ := hall _ hl
  refine ⟨hloops, hio hloops, hbreaks, ?_, _, hl, hn, hs⟩
  refine (hnone hbreaks).resolve_right fun ⟨_, hall⟩ => ?_
  have := (hall 1 (by decide)).left
  simp [← isSome_link?, hfree] at this

end Volume
end InodeVolume
