import InodeVolume.Proofs.File.Space
import InodeVolume.Proofs.Inode.Table
import InodeVolume.Proofs.Tree.Root
import Mathlib.Order.Bounds.Basic

namespace InodeVolume

open VolumeM Volume

inductive Pool where
  | blocks
  | inodes
  deriving DecidableEq

namespace Pool

def first : Pool → Nat
  | blocks => reservedBlocks
  | inodes => 0

def size : Pool → Nat
  | blocks => blockCount
  | inodes => inodeCount

def mapStart : Pool → Nat
  | blocks => blockMapStart
  | inodes => inodeMapStart

def held : Pool → Volume → Nat → Bool
  | blocks, v => v.blockTaken
  | inodes, v => v.inodeTaken

def left : Pool → Volume → Nat
  | blocks, v => v.usage.freeBlocks
  | inodes, v => v.usage.freeInodes

def take : Pool → VolumeM Nat
  | blocks => Block.alloc
  | inodes => Inode.alloc

def give : Pool → Nat → VolumeM Unit
  | blocks => Block.free
  | inodes => Inode.free

def Owns : Pool → Nat → Prop
  | blocks, a => a < inodeMapStart ∨ dataStart ≤ a
  | inodes, a => inodeMapStart ≤ a ∧ a < metadataSize

structure Vacant (p : Pool) (v : Volume) (n : Nat) : Prop where
  lower : p.first ≤ n
  upper : n < p.size
  free  : p.held v n = false

-- What may be given back: something that is held, and if it is an inode, it has nothing in it.
structure Returnable (p : Pool) (v : Volume) (n : Nat) : Prop where
  lower : p.first ≤ n
  held  : p.held v n
  empty : p = inodes → (v.record n).inode.isEmpty

def Agrees (p : Pool) (v w : Volume) : Prop :=
  ∀ a, p.Owns a → w.byte a = v.byte a

-- A number is held from now on, or is no longer, and nothing else is another one. The record of an inode
-- that gets held is reset.
structure Turns (p : Pool) (v w : Volume) (n : Nat) (on : Bool) : Prop where
  held   : ∀ q m, q.held w m = if q = p ∧ m = n then on else q.held v m
  record : ∀ i, w.record i = if (p = inodes ∧ on) ∧ i = n then .ofInode {} else v.record i
  data   : ∀ a, metadataSize ≤ a → w.byte a = v.byte a

inductive Request where
  | take (pool : Pool)
  | give (pool : Pool) (number : Nat)

namespace Request

def pool : Request → Pool
  | take p | give p _ => p

def perform : Request → VolumeM (Option Nat)
  | take p   => do return some (← p.take)
  | give p n => do
    p.give n
    return none

def Proper (v : Volume) : Request → Prop
  | take _   => True
  | give p n => p.Returnable v n

end Request

abbrev Event : Type :=
  Request × Except Fault (Option Nat)

inductive Run : Volume → List Event → Volume → Prop
  | nil {v : Volume} : Run v [] v
  | cons {v u w : Volume} {r : Request} {o : Except Fault (Option Nat)} {es : List Event}
      (proper : r.Proper v) (done : r.perform v = (o, u)) (rest : Run u es w) : Run v ((r, o) :: es) w

def gained (es : List Event) : List (Pool × Nat) :=
  es.filterMap fun
    | (.take p, .ok (some n)) => some (p, n)
    | _                       => none

def giveBack (x : Pool × Nat) : Event :=
  (.give x.1 x.2, .ok none)

structure Lawful (v : Volume) : Prop where
  reserved : v.Reserved
  lowest   : ∀ (p : Pool) n, IsLeast {m | p.Vacant v m} n → ∃ w, p.take v = (.ok n, w) ∧ p.Turns v w n true
  full     : ∀ p : Pool, p.take v = (.error (.errno .noSpace), v) ↔ ∀ n, ¬p.Vacant v n
  returned : ∀ (p : Pool) n, p.Returnable v n → ∃ w, p.give n v = (.ok (), w) ∧ p.Turns v w n false
  counted  : ∀ p : Pool, p.left v + (List.range p.size).countP (p.held v) = p.size
  spent    : ∀ p : Pool, p.left v = 0 ↔ ∀ n, ¬p.Vacant v n
  blank    : ∀ i w, Inode.alloc v = (.ok i, w) → w.inode i = .ok {}
  -- what is held is not handed out before somebody has given it back
  once     : ∀ (p : Pool) n es u w, p.held v n → Run v es u → p.take u = (.ok n, w) →
    .give p n ∈ es.map Prod.fst
  -- without the requests for the other pool, those for this one have the same outcomes
  apart    : ∀ es w, Run v es w → ∀ p : Pool, ∃ u, Run v (es.filter (·.1.pool = p)) u ∧ p.Agrees w u
  restored : ∀ es w (back : List (Pool × Nat)), Run v es w → (∀ e ∈ es, ∃ p, e.1 = .take p) →
    back.Perm (gained es) → ∃ u, Run w (back.map giveBack) u ∧ ∀ a < tableStart, u.byte a = v.byte a

variable {p q : Pool} {v u w : Volume} {n m : Nat} {on : Bool}

theorem held_eq (p : Pool) (v : Volume) (n : Nat) :
    p.held v n = (decide (n < p.size) && v.bit p.mapStart n) := by
  cases p <;> rfl

theorem lt_of_held (h : p.held v n) : n < p.size := by
  rw [held_eq, Bool.and_eq_true, decide_eq_true_iff] at h
  exact h.left

theorem vacant_of_isLeast (h : IsLeast {m | p.Vacant v m} n) : p.Vacant v n :=
  h.left

theorem Returnable.upper (h : p.Returnable v n) : n < p.size :=
  lt_of_held h.held

theorem left_eq (p : Pool) (v : Volume) : p.left v = (List.range p.size).countP (!p.held v ·) := by
  cases p
  case blocks => exact v.freeBlocks_eq_countP
  case inodes => exact v.freeInodes_eq_countP

theorem owns_mapStart (h : n < p.size) : p.Owns (p.mapStart + n / 8) := by
  cases p <;> simp only [Owns, mapStart, size] at * <;> lia

theorem mapStart_lt (h : n < p.size) : p.mapStart + n / 8 < tableStart := by
  cases p <;> simp only [mapStart, size] at * <;> lia

section

variable (p : Pool) (v : Volume) (n : Nat) (on : Bool)

def turn : Volume :=
  (if p = inodes ∧ on then v.store n {} else v).setBit p.mapStart n on

theorem take_eq : p.take v =
    match v.clearBit? p.mapStart p.first p.size with
    | none   => (.error (.errno .noSpace), v)
    | some n => (.ok n, p.turn v n true) := by
  cases p
  case blocks =>
    simp only [take, Block.alloc, bind_apply, query, mapStart, first, size]
    cases v.clearBit? blockMapStart reservedBlocks blockCount <;> rfl
  case inodes =>
    simp only [take, Inode.alloc, bind_apply, query, mapStart, first, size]
    cases h : v.clearBit? inodeMapStart 0 inodeCount
    case none   => rfl
    case some i =>
      simp only [bind_apply, Inode.put_eq (clearBit?_eq_some h).right.left]
      rfl

end

theorem give_eq (h : p.Returnable v n) : p.give n v = (.ok (), p.turn v n false) := by
  cases p
  case blocks =>
    simp only [give, Block.free, bind_apply, query]
    rw [if_pos ⟨h.lower, h.held⟩]
    rfl
  case inodes =>
    have hi : v.inode n = .ok (v.record n).inode := if_pos h.held
    simp only [give, Inode.free, bind_apply, query, hi]
    rw [if_pos (h.empty rfl)]
    rfl

theorem byte_turn (h : n < p.size) (v : Volume) (on : Bool) (a : Nat) :
    (p.turn v n on).byte a =
      if a = p.mapStart + n / 8 then withBit (v.byte a) (n % 8) on
      else if (p = inodes ∧ on) ∧ recordStart n ≤ a ∧ a < recordStart n + recordSize then
        (Record.ofInode {}).bytes.getD (a - recordStart n) 0
      else v.byte a := by
  have hlt := mapStart_lt h
  have hlow : (if p = inodes ∧ on then v.store n {} else v).byte (p.mapStart + n / 8) =
      v.byte (p.mapStart + n / 8) := by
    split
    case isTrue  => exact byte_store_of_lt hlt
    case isFalse => rfl
  rw [turn, setBit, byte_setByte, hlow]
  by_cases ha : a = p.mapStart + n / 8
  case pos => rw [if_pos ⟨ha, by lia⟩, if_pos ha, ha]
  case neg =>
    rw [if_neg fun h => ha h.left, if_neg ha]
    by_cases hr : p = inodes ∧ on
    case neg => rw [if_neg hr, if_neg fun h => hr h.left]
    case pos =>
      obtain ⟨rfl, hon⟩ := hr
      have : n < inodeCount := h
      rw [if_pos ⟨rfl, hon⟩, byte_store]
      refine if_congr ?_ rfl rfl
      unfold recordStart
      lia

theorem bit_turn (h : n < p.size) (hm : m < p.size) (v : Volume) (on : Bool) :
    (p.turn v n on).bit p.mapStart m = if m = n then on else v.bit p.mapStart m := by
  have := mapStart_lt h
  rw [turn, bit_setBit _ (by lia)]
  refine if_congr .rfl rfl ?_
  split
  case isTrue  => exact bit_store (mapStart_lt hm)
  case isFalse => rfl

theorem record_turn (h : n < p.size) (v : Volume) (on : Bool) (i : Nat) :
    (p.turn v n on).record i = if (p = inodes ∧ on) ∧ i = n then .ofInode {} else v.record i := by
  rw [turn, record_setBit (mapStart_lt h)]
  by_cases hr : p = inodes ∧ on
  case neg => rw [if_neg hr, if_neg fun h => hr h.left]
  case pos =>
    obtain ⟨rfl, hon⟩ := hr
    rw [if_pos ⟨rfl, hon⟩, record_store h, Function.update_apply]
    exact if_congr (and_iff_right ⟨rfl, hon⟩).symm rfl rfl

theorem agrees_turn_of_ne (hq : q ≠ p) (h : n < p.size) (v : Volume) (on : Bool) :
    q.Agrees v (p.turn v n on) := by
  intro a ha
  rw [byte_turn h, if_neg, if_neg]
  all_goals cases p <;> cases q <;> simp only [Owns, mapStart, size, recordStart] at * <;> lia

namespace Agrees

theorem refl (p : Pool) (v : Volume) : p.Agrees v v :=
  fun _ _ => rfl

theorem trans (h₁ : p.Agrees v u) (h₂ : p.Agrees u w) : p.Agrees v w :=
  fun a ha => (h₂ a ha).trans (h₁ a ha)

theorem symm (h : p.Agrees v w) : p.Agrees w v :=
  fun a ha => (h a ha).symm

theorem held (h : p.Agrees v w) : p.held w = p.held v := by
  funext n
  rw [held_eq, held_eq]
  by_cases hn : n < p.size
  case pos => rw [bit, bit, h _ (owns_mapStart hn)]
  case neg => rw [decide_eq_false hn, Bool.false_and, Bool.false_and]

theorem record (h : inodes.Agrees v w) (hn : n < inodeCount) : w.record n = v.record n :=
  record_congr fun k hk => h _ (by unfold Owns recordStart; lia)

theorem vacant (h : p.Agrees v w) : p.Vacant w = p.Vacant v := by
  funext n
  have hheld := congrFun h.held n
  exact propext ⟨fun hw => ⟨hw.lower, hw.upper, hheld ▸ hw.free⟩,
    fun hv => ⟨hv.lower, hv.upper, hheld ▸ hv.free⟩⟩

theorem returnable (h : p.Agrees v w) (hv : p.Returnable v n) : p.Returnable w n where
  lower := hv.lower
  held  := h.held ▸ hv.held
  empty := by
    rintro rfl
    rw [h.record hv.upper]
    exact hv.empty rfl

theorem turn (h : p.Agrees v w) (hn : n < p.size) (on : Bool) :
    p.Agrees (p.turn v n on) (p.turn w n on) := by
  intro a ha
  rw [byte_turn hn, byte_turn hn, h a ha]

end Agrees

theorem held_turn (h : n < p.size) (v : Volume) (on : Bool) (q : Pool) (m : Nat) :
    q.held (p.turn v n on) m = if q = p ∧ m = n then on else q.held v m := by
  by_cases hq : q = p
  case neg => rw [if_neg fun h => hq h.left, (agrees_turn_of_ne hq h v on).held]
  case pos =>
    subst hq
    rw [held_eq, held_eq]
    by_cases hm : m < q.size
    case pos => simp only [bit_turn h hm, decide_eq_true hm, Bool.true_and, true_and]
    case neg =>
      have hne : m ≠ n := by
        rintro rfl
        exact hm h
      rw [decide_eq_false hm, Bool.false_and, Bool.false_and, if_neg fun h => hne h.right]

theorem turns (h : n < p.size) (v : Volume) (on : Bool) : p.Turns v (p.turn v n on) n on where
  held   := held_turn h v on
  record := record_turn h v on
  data a ha := by
    have hlt := mapStart_lt h
    rw [byte_turn h, if_neg (by lia), if_neg]
    rintro ⟨⟨rfl, _⟩, ha⟩
    simp only [size, recordStart] at *
    lia

theorem take_spec (p : Pool) (v : Volume) :
    (∃ n, IsLeast {m | p.Vacant v m} n ∧ p.take v = (.ok n, p.turn v n true)) ∨
      (∀ n, ¬p.Vacant v n) ∧ p.take v = (.error (.errno .noSpace), v) := by
  rw [take_eq]
  cases h : v.clearBit? p.mapStart p.first p.size
  case none =>
    refine .inr ⟨fun n hn => ?_, rfl⟩
    have := hn.free
    simp [held_eq, hn.upper, clearBit?_eq_none h n hn.lower hn.upper] at this
  case some n =>
    obtain ⟨hlo, hhi, hn, hall⟩ := clearBit?_eq_some h
    refine .inl ⟨n, ⟨⟨hlo, hhi, by simp [held_eq, hn]⟩, fun m (hm : p.Vacant v m) => ?_⟩, rfl⟩
    by_contra hlt
    have := hm.free
    simp [held_eq, hm.upper, hall m hm.lower (Nat.lt_of_not_le hlt)] at this

theorem take_eq_ok_iff :
    p.take v = (.ok n, w) ↔ IsLeast {m | p.Vacant v m} n ∧ w = p.turn v n true := by
  rcases p.take_spec v with ⟨k, hk, ht⟩ | ⟨hnone, ht⟩
  case inl =>
    rw [ht, Prod.mk.injEq, Except.ok.injEq]
    constructor
    case mp =>
      rintro ⟨rfl, rfl⟩
      exact ⟨hk, rfl⟩
    case mpr =>
      rintro ⟨hn, rfl⟩
      rw [hn.unique hk]
      exact ⟨rfl, rfl⟩
  case inr =>
    rw [ht]
    exact iff_of_false nofun fun h => hnone n h.left.left

theorem take_eq_full_iff : p.take v = (.error (.errno .noSpace), v) ↔ ∀ n, ¬p.Vacant v n := by
  rcases p.take_spec v with ⟨k, hk, ht⟩ | ⟨hnone, ht⟩
  case inl =>
    rw [ht]
    exact iff_of_false nofun fun h => h k hk.left
  case inr => exact iff_of_true ht hnone

theorem isLeast_first (h : p.held v p.first = false) : IsLeast {m | p.Vacant v m} p.first :=
  ⟨⟨Nat.le_refl _, by cases p <;> decide, h⟩, fun _ (hm : p.Vacant v _) => hm.lower⟩

inductive Step (v : Volume) : Event → Volume → Prop
  | took {p : Pool} {n : Nat} (h : IsLeast {m | p.Vacant v m} n) :
      Step v (.take p, .ok (some n)) (p.turn v n true)
  | full {p : Pool} (h : ∀ n, ¬p.Vacant v n) : Step v (.take p, .error (.errno .noSpace)) v
  | gave {p : Pool} {n : Nat} (h : p.Returnable v n) : Step v (.give p n, .ok none) (p.turn v n false)

namespace Step

variable {e : Event} {r : Request} {o : Except Fault (Option Nat)}

theorem of_perform (hr : r.Proper v) (ho : r.perform v = (o, w)) : Step v (r, o) w := by
  cases r
  case take p =>
    rw [Request.perform, bind_apply] at ho
    rcases p.take_spec v with ⟨n, hn, ht⟩ | ⟨hnone, ht⟩
    case inl =>
      rw [ht] at ho
      cases ho
      exact .took hn
    case inr =>
      rw [ht] at ho
      cases ho
      exact .full hnone
  case give p n =>
    rw [Request.perform, bind_apply, give_eq hr] at ho
    cases ho
    exact .gave hr

theorem perform_eq (h : Step v (r, o) w) : r.Proper v ∧ r.perform v = (o, w) := by
  cases h
  case took n hn =>
    refine ⟨trivial, ?_⟩
    rw [Request.perform, bind_of_ok (take_eq_ok_iff.mpr ⟨hn, rfl⟩)]
    rfl
  case full hnone =>
    refine ⟨trivial, ?_⟩
    rw [Request.perform, bind_of_error (take_eq_full_iff.mpr hnone)]
  case gave n hn =>
    refine ⟨hn, ?_⟩
    rw [Request.perform, bind_of_ok (give_eq hn)]
    rfl

theorem kept (s : Step v e w) (hm : q.held v m) (he : e.1 ≠ .give q m) : q.held w m := by
  cases s
  case full => exact hm
  case took p n hn =>
    rw [held_turn (vacant_of_isLeast hn).upper]
    split
    case isTrue  => rfl
    case isFalse => exact hm
  case gave p n hn =>
    rw [held_turn hn.upper, if_neg]
    case hnc =>
      rintro ⟨rfl, rfl⟩
      exact he rfl
    exact hm

theorem returnable (s : Step v e w) (hm : q.Returnable v m) (he : e.1 ≠ .give q m) :
    q.Returnable w m := by
  refine ⟨hm.lower, s.kept hm.held he, fun hq => ?_⟩
  have hempty := hm.empty hq
  cases s
  case full => exact hempty
  case took p n hn =>
    rw [record_turn (vacant_of_isLeast hn).upper, if_neg]
    case hnc =>
      rintro ⟨⟨rfl, _⟩, rfl⟩
      have := (vacant_of_isLeast hn).free
      simp [← hq, hm.held] at this
    exact hempty
  case gave p n hn =>
    rw [record_turn hn.upper, if_neg fun h => Bool.false_ne_true h.left.right]
    exact hempty

theorem agrees_of_ne (s : Step v e w) (hq : q ≠ e.1.pool) : q.Agrees v w := by
  cases s
  case full    => exact .refl q v
  case took hn => exact agrees_turn_of_ne hq (vacant_of_isLeast hn).upper v true
  case gave hn => exact agrees_turn_of_ne hq hn.upper v false

theorem exists_agrees (s : Step v e w) (h : e.1.pool.Agrees v u) :
    ∃ x, Step u e x ∧ e.1.pool.Agrees w x := by
  cases s
  case full p hnone => exact ⟨u, .full (h.vacant ▸ hnone), h⟩
  case took p n hn  => exact ⟨_, .took (h.vacant ▸ hn), h.turn (vacant_of_isLeast hn).upper true⟩
  case gave p n hn  => exact ⟨_, .gave (h.returnable hn), h.turn hn.upper false⟩

end Step

variable {e : Event} {es : List Event}

namespace Run

theorem step (s : Step v e u) (r : Run u es w) : Run v (e :: es) w :=
  .cons s.perform_eq.left s.perform_eq.right r

theorem reserved (r : Run v es w) (hv : v.Reserved) : w.Reserved := by
  induction r
  case nil => exact hv
  case cons e o es proper done rest hi =>
    refine hi fun b hb => (Step.of_perform proper done).kept (q := blocks) (hv b hb) ?_
    rintro rfl
    exact absurd proper.lower (Nat.not_le.mpr hb)

theorem kept (r : Run v es w) (hn : p.held v n) (hg : .give p n ∉ es.map Prod.fst) : p.held w n := by
  induction r
  case nil => exact hn
  case cons proper done rest hi =>
    rw [List.map_cons, List.mem_cons, not_or] at hg
    exact hi ((Step.of_perform proper done).kept hn (Ne.symm hg.left)) hg.right

theorem returnable (r : Run v es w) (hn : p.Returnable v n) (hg : .give p n ∉ es.map Prod.fst) :
    p.Returnable w n := by
  induction r
  case nil => exact hn
  case cons proper done rest hi =>
    rw [List.map_cons, List.mem_cons, not_or] at hg
    exact hi ((Step.of_perform proper done).returnable hn (Ne.symm hg.left)) hg.right

theorem exists_agrees (r : Run v es w) (h : p.Agrees v u) :
    ∃ x, Run u (es.filter (·.1.pool = p)) x ∧ p.Agrees w x := by
  induction r generalizing u
  case nil => exact ⟨u, .nil, h⟩
  case cons r o es proper done rest hi =>
    have s := Step.of_perform proper done
    by_cases hp : r.pool = p
    case pos =>
      subst hp
      obtain ⟨x, hs, hx⟩ := s.exists_agrees h
      obtain ⟨y, hy, hw⟩ := hi hx
      refine ⟨y, ?_, hw⟩
      rw [List.filter_cons_of_pos (by simp)]
      exact .step hs hy
    case neg =>
      rw [List.filter_cons_of_neg (by simpa using hp)]
      exact hi ((s.agrees_of_ne (Ne.symm hp)).symm.trans h)

end Run

structure Gains (v w : Volume) (l : List (Pool × Nat)) : Prop where
  nodup      : l.Nodup
  free       : ∀ x ∈ l, x.1.held v x.2 = false
  held       : ∀ (p : Pool) n, p.held w n ↔ p.held v n ∨ (p, n) ∈ l
  returnable : ∀ x ∈ l, x.1.Returnable w x.2

theorem returnable_turn (h : p.Vacant v n) : p.Returnable (p.turn v n true) n := by
  refine ⟨h.lower, ?_, ?_⟩
  case refine_1 => rw [held_turn h.upper, if_pos ⟨rfl, rfl⟩]
  case refine_2 =>
    rintro rfl
    rw [record_turn h.upper, if_pos ⟨⟨rfl, rfl⟩, rfl⟩, Record.inode_ofInode .default]
    exact Inode.isEmpty_of_size .default rfl rfl

theorem Gains.cons {l : List (Pool × Nat)} (hn : p.Vacant v n) (g : Gains (p.turn v n true) w l)
    (hw : p.Returnable w n) : Gains v w ((p, n) :: l) where
  nodup := by
    refine List.nodup_cons.mpr ⟨fun hm => ?_, g.nodup⟩
    have := g.free _ hm
    simp [(returnable_turn hn).held] at this
  free := by
    refine List.forall_mem_cons.mpr ⟨hn.free, fun x hx => ?_⟩
    have := g.free x hx
    rw [held_turn hn.upper] at this
    split at this
    case isTrue  => contradiction
    case isFalse => exact this
  held := by
    intro q m
    rw [g.held, held_turn hn.upper, List.mem_cons, Prod.mk.injEq]
    by_cases hm : q = p ∧ m = n <;> simp [hm]
  returnable := List.forall_mem_cons.mpr ⟨hw, g.returnable⟩

theorem Run.gains (r : Run v es w) (ht : ∀ e ∈ es, ∃ p, e.1 = .take p) : Gains v w (gained es) := by
  induction r
  case nil => exact ⟨.nil, nofun, by simp [gained], nofun⟩
  case cons r o es proper done rest hi =>
    rw [List.forall_mem_cons] at ht
    have hg := hi ht.right
    cases Step.of_perform proper done
    case full hnone => exact hg
    case gave       => exact nomatch ht.left.choose_spec
    case took p n hn =>
      refine hg.cons hn.left (rest.returnable (returnable_turn hn.left) fun hm => ?_)
      obtain ⟨e, he, hgive⟩ := List.mem_map.mp hm
      obtain ⟨_, htake⟩ := ht.right e he
      exact nomatch hgive.symm.trans htake

theorem exists_run_giveBack {l : List (Pool × Nat)} (hl : l.Nodup)
    (hr : ∀ x ∈ l, x.1.Returnable v x.2) :
    ∃ w, Run v (l.map giveBack) w ∧ ∀ (p : Pool) n, p.held w n ↔ p.held v n ∧ (p, n) ∉ l := by
  induction l generalizing v
  case nil => exact ⟨v, .nil, by simp⟩
  case cons x l hi =>
    obtain ⟨q, m⟩ := x
    rw [List.nodup_cons] at hl
    rw [List.forall_mem_cons] at hr
    have s : Step v (giveBack (q, m)) (q.turn v m false) := .gave hr.left
    obtain ⟨w, hw, hheld⟩ := hi (v := q.turn v m false) hl.right fun x hx => by
      refine s.returnable (hr.right x hx) fun he => hl.left ?_
      obtain ⟨rfl, rfl⟩ := Request.give.inj he
      exact hx
    refine ⟨w, .step s hw, fun p n => ?_⟩
    rw [hheld, held_turn hr.left.upper, List.mem_cons, Prod.mk.injEq]
    split <;> simp_all

theorem Gains.exists_restored {l back : List (Pool × Nat)} (g : Gains v w l) (hb : back.Perm l) :
    ∃ u, Run w (back.map giveBack) u ∧ ∀ a < tableStart, u.byte a = v.byte a := by
  obtain ⟨u, hu, hheld⟩ := exists_run_giveBack (hb.nodup_iff.mpr g.nodup) fun x hx =>
    g.returnable x (hb.mem_iff.mp hx)
  have hsame : ∀ p : Pool, p.held u = p.held v := by
    intro p
    funext n
    have hfree : (p, n) ∈ l → p.held v n = false := g.free (p, n)
    rw [Bool.eq_iff_iff, hheld, g.held, hb.mem_iff]
    by_cases hn : (p, n) ∈ l <;> simp_all
  exact ⟨u, hu, maps_eq (hsame blocks) (hsame inodes)⟩

theorem left_add (p : Pool) (v : Volume) :
    p.left v + (List.range p.size).countP (p.held v) = p.size := by
  have hlen := List.length_eq_countP_add_countP (p.held v) (l := List.range p.size)
  rw [List.length_range] at hlen
  rw [left_eq]
  simp only [Bool.not_eq_true, Bool.decide_eq_false] at hlen
  omega

theorem held_of_lt_first (hv : v.Reserved) (h : n < p.first) : p.held v n := by
  cases p
  case blocks => exact hv n h
  case inodes => exact absurd h (Nat.not_lt_zero n)

theorem left_eq_zero_iff (hv : v.Reserved) : p.left v = 0 ↔ ∀ n, ¬p.Vacant v n := by
  rw [left_eq, List.countP_eq_zero]
  constructor
  case mp =>
    intro hall n hn
    exact absurd hn.free (by simpa using hall n (List.mem_range.mpr hn.upper))
  case mpr =>
    intro hall n hn
    by_cases hlt : n < p.first
    case pos => simp [held_of_lt_first hv hlt]
    case neg =>
      have : p.held v n ≠ false := fun h => hall n ⟨Nat.le_of_not_lt hlt, List.mem_range.mp hn, h⟩
      simpa using this

-- Every request is answered as it should be, whatever has been asked for before.
theorem Run.lawful (r : Run v es w) (hv : v.Reserved) : Lawful w where
  reserved := r.reserved hv
  lowest   := fun p n hn => ⟨_, take_eq_ok_iff.mpr ⟨hn, rfl⟩, turns (vacant_of_isLeast hn).upper w true⟩
  full     := fun p => take_eq_full_iff
  returned := fun p n hn => ⟨_, give_eq hn, turns hn.upper w false⟩
  counted  := fun p => p.left_add w
  spent    := fun p => left_eq_zero_iff (r.reserved hv)
  blank    := by
    intro i u hu
    obtain ⟨hi, rfl⟩ := (take_eq_ok_iff (p := inodes)).mp hu
    have hheld : (inodes.turn w i true).inodeTaken i := (returnable_turn hi.left).held
    rw [Volume.inode, if_pos hheld, record_turn (vacant_of_isLeast hi).upper, if_pos ⟨⟨rfl, rfl⟩, rfl⟩,
      Record.inode_ofInode .default]
  once     := by
    intro p n fs u x hn hr hx
    by_contra hg
    have hfree := (vacant_of_isLeast (take_eq_ok_iff.mp hx).left).free
    simp [hr.kept hn hg] at hfree
  apart    := fun _ _ hr p => hr.exists_agrees (.refl p w)
  restored := fun _ _ _ hr ht hb => (hr.gains ht).exists_restored hb

theorem lawful_blank :
    ∃ w, (Volume.blank.Reserved ∧
      Run .blank [(.take blocks, .ok (some 3)), (.take inodes, .ok (some 0)), (.give blocks 3, .ok none),
        (.take blocks, .ok (some 3))] w) ∧ Lawful w := by
  have hreserved : Volume.blank.Reserved := by
    intro b hb
    rw [blockTaken_blank]
    exact decide_eq_true hb
  have hblock : blocks.held .blank 3 = false := congrFun blockTaken_blank 3
  have s₁ : Step .blank (.take blocks, .ok (some 3)) _ := .took (isLeast_first hblock)
  have hinode : inodes.held (blocks.turn .blank 3 true) 0 = false := by
    rw [held_turn (by decide), if_neg nofun, held, ← isSome_link?, link?_blank, Option.isSome_none]
  have s₂ : Step _ (.take inodes, .ok (some 0)) _ := .took (isLeast_first hinode)
  have s₃ : Step _ (.give blocks 3, .ok none) _ :=
    .gave (s₂.returnable (returnable_turn (isLeast_first hblock).left) nofun)
  have hback : blocks.held (blocks.turn (inodes.turn (blocks.turn .blank 3 true) 0 true) 3 false) 3 =
      false := by
    rw [held_turn (by decide), if_pos ⟨rfl, rfl⟩]
  have s₄ : Step _ (.take blocks, .ok (some 3)) _ := .took (isLeast_first hback)
  have r : Run .blank _ _ := .step s₁ (.step s₂ (.step s₃ (.step s₄ .nil)))
  exact ⟨_, ⟨hreserved, r⟩, r.lawful hreserved⟩

end Pool
end InodeVolume
