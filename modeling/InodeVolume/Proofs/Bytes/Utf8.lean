import InodeVolume.Bytes.Utf8
import Mathlib.Algebra.Ring.Nat
import Mathlib.Tactic.Common

namespace InodeVolume.Utf8

variable {v : Nat}

theorem lead?_two (hl : 0x80 ≤ v) (hu : v < 0x800) :
    lead? (v / 64 + 0xC0) = some ⟨0, v / 64, 0x80, 0xBF⟩ := by
  rw [lead?, if_pos (by omega), Nat.add_sub_cancel]

theorem lead?_three (hl : 0x800 ≤ v) (hu : v < 0x10000) (hv : v < 0xD800 ∨ 0xDFFF < v) :
    ∃ low high, lead? (v / 4096 + 0xE0) = some ⟨1, v / 4096, low, high⟩ ∧
      low ≤ v / 64 % 64 + 0x80 ∧ v / 64 % 64 + 0x80 ≤ high := by
  rw [lead?, if_neg (by omega)]
  split
  case isTrue h => exact ⟨_, _, by rw [show v / 4096 = 0 by omega], by omega, by omega⟩
  case isFalse =>
    split
    case isTrue h => exact ⟨_, _, by rw [show v / 4096 = 0xD by omega], by omega, by omega⟩
    case isFalse => exact ⟨_, _, by rw [if_pos (by omega), Nat.add_sub_cancel], by omega, by omega⟩

theorem lead?_four (hl : 0x10000 ≤ v) (hu : v < 0x110000) :
    ∃ low high, lead? (v / 262144 + 0xF0) = some ⟨2, v / 262144, low, high⟩ ∧
      low ≤ v / 4096 % 64 + 0x80 ∧ v / 4096 % 64 + 0x80 ≤ high := by
  rw [lead?, if_neg (by omega), if_neg (by omega), if_neg (by omega), if_neg (by omega)]
  split
  case isTrue h => exact ⟨_, _, by rw [show v / 262144 = 0 by omega], by omega, by omega⟩
  case isFalse =>
    split
    case isTrue h => exact ⟨_, _, by rw [Nat.add_sub_cancel], by omega, by omega⟩
    case isFalse => exact ⟨_, _, by rw [if_pos (by omega), show v / 262144 = 4 by omega], by omega, by omega⟩

theorem step_lead {b : Nat} {p : Pending} (h : lead? b = some p) : step none b = ([], some p) := by
  have : ¬b < 0x80 := by
    intro hb
    simp only [lead?] at h
    repeat' split at h
    all_goals first | omega | contradiction
  rw [step, start, if_neg this, h]

theorem step_next {p : Pending} {b k : Nat} (hl : p.low ≤ b) (hh : b ≤ p.high)
    (hk : p.later = k + 1) :
    step (some p) b = ([], some ⟨k, p.value * 64 + (b - 0x80), 0x80, 0xBF⟩) := by
  rw [step, if_pos ⟨hl, hh⟩]
  simp only [hk]

theorem step_last {p : Pending} {b : Nat} (hl : p.low ≤ b) (hh : b ≤ p.high) (hk : p.later = 0) :
    step (some p) b = ([some (Char.ofNat (p.value * 64 + (b - 0x80)))], none) := by
  rw [step, if_pos ⟨hl, hh⟩]
  simp only [hk]

theorem items_utf8EncodeChar (c : Char) (bs : List UInt8) :
    items none (String.utf8EncodeChar c ++ bs) = some c :: items none bs := by
  have hc : Char.ofNat c.val.toNat = c := Char.ofNat_toNat c
  have hv := c.valid
  simp only [UInt32.isValidChar, Nat.isValidChar] at hv
  simp only [String.utf8EncodeChar]
  generalize c.val.toNat = v at hc hv
  have hb : ∀ n < 256, (UInt8.ofNat n).toNat = n := fun n hn => UInt8.toNat_ofNat_of_lt' hn
  split
  case isTrue h =>
    rw [List.cons_append, items, hb v (by omega), step, start, if_pos (by omega), hc]
    rfl
  case isFalse =>
  split
  case isTrue h =>
    rw [Nat.mod_eq_of_lt (show v / 64 < 32 by omega)]
    simp only [List.cons_append, List.nil_append, items, hb (v / 64 + 0xC0) (by omega),
      hb (v % 64 + 0x80) (by omega), step_lead (lead?_two (v := v) (by omega) (by omega))]
    rw [step_last (by dsimp only; omega) (by dsimp only; omega) rfl, Nat.add_sub_cancel,
      show v / 64 * 64 + v % 64 = v by omega, hc]
    rfl
  case isFalse =>
  split
  case isTrue h =>
    have ⟨low, high, hlead, hlow, hhigh⟩ := lead?_three (by omega) (show v < 0x10000 by omega) (by omega)
    rw [Nat.mod_eq_of_lt (show v / 4096 < 16 by omega)]
    simp only [List.cons_append, List.nil_append, items, hb (v / 4096 + 0xE0) (by omega),
      hb (v / 64 % 64 + 0x80) (by omega), hb (v % 64 + 0x80) (by omega), step_lead hlead]
    rw [step_next hlow hhigh rfl, Nat.add_sub_cancel]
    simp only
    rw [step_last (by dsimp only; omega) (by dsimp only; omega) rfl, Nat.add_sub_cancel,
      show (v / 4096 * 64 + v / 64 % 64) * 64 + v % 64 = v by omega, hc]
    rfl
  case isFalse =>
    have ⟨low, high, hlead, hlow, hhigh⟩ := lead?_four (by omega) (show v < 0x110000 by omega)
    rw [Nat.mod_eq_of_lt (show v / 262144 < 8 by omega)]
    simp only [List.cons_append, List.nil_append, items, hb (v / 262144 + 0xF0) (by omega),
      hb (v / 4096 % 64 + 0x80) (by omega), hb (v / 64 % 64 + 0x80) (by omega),
      hb (v % 64 + 0x80) (by omega), step_lead hlead]
    rw [step_next hlow hhigh rfl, Nat.add_sub_cancel]
    simp only
    rw [step_next (by dsimp only; omega) (by dsimp only; omega) rfl, Nat.add_sub_cancel]
    simp only
    rw [step_last (by dsimp only; omega) (by dsimp only; omega) rfl, Nat.add_sub_cancel,
      show ((v / 262144 * 64 + v / 4096 % 64) * 64 + v / 64 % 64) * 64 + v % 64 = v by omega, hc]
    rfl

theorem items_bytes (cs : List Char) :
    items none (cs.flatMap String.utf8EncodeChar) = cs.map some := by
  induction cs
  case nil          => rfl
  case cons c cs hi => rw [List.flatMap_cons, items_utf8EncodeChar, hi, List.map_cons]

theorem lossy_bytes (s : String) : lossy (bytes s) = s := by
  simp [lossy, bytes, items_bytes, Function.comp_def]

theorem decode?_bytes (s : String) : decode? (bytes s) = some s := by
  have h : ∀ cs : List Char, (cs.map some).mapM id = some cs := by
    intro cs
    induction cs
    case nil          => rfl
    case cons c cs hi => simp [hi]
  rw [decode?, bytes, items_bytes, h, Option.map_some, String.ofList_toList]

theorem ne_zero_of_mem_utf8EncodeChar {c : Char} (hc : c ≠ '\x00') :
    ∀ b ∈ String.utf8EncodeChar c, b ≠ 0 := by
  have hz : c.val.toNat ≠ 0 := fun hz => hc (Char.ext (UInt32.toNat_inj.mp hz))
  have hv := c.valid
  have hb : ∀ n, 0 < n → n < 256 → UInt8.ofNat n ≠ 0 := by
    intro n hn hlt e
    have := congrArg UInt8.toNat e
    rw [UInt8.toNat_ofNat_of_lt' hlt] at this
    exact absurd this (by simp; omega)
  simp only [UInt32.isValidChar, Nat.isValidChar] at hv
  simp only [String.utf8EncodeChar]
  generalize c.val.toNat = v at hz hv
  have hb : ∀ n, 0 < n → n < 256 → ∀ bs : List UInt8, (∀ b ∈ bs, b ≠ 0) →
      ∀ b ∈ UInt8.ofNat n :: bs, b ≠ 0 :=
    fun n hn hlt bs hbs => List.forall_mem_cons.mpr ⟨hb n hn hlt, hbs⟩
  repeat' split
  all_goals
    repeat' apply hb
    all_goals first | omega | simp

theorem ne_zero_of_mem_bytes {s : String} (hs : '\x00' ∉ s.toList) :
    ∀ b ∈ bytes s, b ≠ 0 := by
  intro b hb
  have ⟨c, hc, hbc⟩ := List.mem_flatMap.mp hb
  exact ne_zero_of_mem_utf8EncodeChar (fun e => hs (e ▸ hc)) b hbc

-- The bytes that are still to come make a character, whatever they are, and not the zero one.
structure Pending.Sound (p : Pending) : Prop where
  low   : 0x80 ≤ p.low
  pos   : 0 < (p.value * 64 + (p.low - 0x80)) * 64 ^ p.later
  valid : (p.value * 64 + (p.high - 0x80) + 1) * 64 ^ p.later ≤ 0xD800 ∨
    0xE000 ≤ (p.value * 64 + (p.low - 0x80)) * 64 ^ p.later ∧
      (p.value * 64 + (p.high - 0x80) + 1) * 64 ^ p.later ≤ 0x110000

theorem lead?_sound {b : Nat} {p : Pending} (h : lead? b = some p) : p.Sound := by
  simp only [lead?] at h
  repeat' split at h
  all_goals first | contradiction | obtain rfl := Option.some.inj h
  all_goals constructor <;> simp only [Nat.reducePow] <;> omega

theorem ofNat_ne_zero {n : Nat} (h0 : n ≠ 0) (hv : n < 0xD800 ∨ 0xE000 ≤ n ∧ n < 0x110000) :
    Char.ofNat n ≠ '\x00' := by
  intro h
  have hn : n.isValidChar := by rw [Nat.isValidChar]; omega
  rw [Char.ofNat, dif_pos hn] at h
  exact h0 (congrArg Char.toNat h)

theorem start_ne_zero {b : Nat} (hb : b ≠ 0) :
    (some '\x00' ∉ (start b).1) ∧ ∀ p ∈ (start b).2, p.Sound := by
  rw [start]
  split
  case isTrue hlt =>
    refine ⟨?_, nofun⟩
    simpa using (ofNat_ne_zero hb (.inl (by omega))).symm
  case isFalse =>
    split
    case h_1 p hp => exact ⟨nofun, fun q hq => Option.some.inj hq ▸ lead?_sound hp⟩
    case h_2      => exact ⟨by simp, nofun⟩

theorem step_ne_zero {state : Option Pending} {b : Nat} (hs : ∀ p ∈ state, p.Sound) (hb : b ≠ 0) :
    (some '\x00' ∉ (step state b).1) ∧ ∀ p ∈ (step state b).2, p.Sound := by
  cases state
  case none => exact start_ne_zero hb
  case some p =>
    have ⟨hlow, hpos, hvalid⟩ := hs p rfl
    by_cases hin : p.low ≤ b ∧ b ≤ p.high
    case neg =>
      have ⟨hfound, hnext⟩ := start_ne_zero hb
      rw [step, if_neg hin]
      exact ⟨by simpa using hfound, hnext⟩
    case pos =>
      cases hk : p.later
      case zero =>
        rw [hk, Nat.pow_zero, Nat.mul_one] at hpos hvalid
        rw [step_last hin.left hin.right hk]
        refine ⟨?_, nofun⟩
        simpa using (ofNat_ne_zero (n := p.value * 64 + (b - 0x80)) (by omega) (by omega)).symm
      case succ k =>
        rw [step_next hin.left hin.right hk]
        refine ⟨nofun, fun q hq => ?_⟩
        obtain rfl := Option.some.inj hq
        rw [hk] at hpos hvalid
        -- with this byte, the range of what can be read gets narrower from both ends
        have hl : (p.value * 64 + (p.low - 0x80)) * 64 ^ (k + 1) ≤
            (p.value * 64 + (b - 0x80)) * 64 ^ (k + 1) := Nat.mul_le_mul_right _ (by omega)
        have hh : (p.value * 64 + (b - 0x80) + 1) * 64 ^ (k + 1) ≤
            (p.value * 64 + (p.high - 0x80) + 1) * 64 ^ (k + 1) := Nat.mul_le_mul_right _ (by omega)
        have hlow' : ∀ V, (V * 64 + (0x80 - 0x80)) * 64 ^ k = V * 64 ^ (k + 1) := by
          intro V
          rw [Nat.pow_succ]
          lia
        have hhigh' : ∀ V, (V * 64 + (0xBF - 0x80) + 1) * 64 ^ k = (V + 1) * 64 ^ (k + 1) := by
          intro V
          rw [Nat.pow_succ]
          lia
        constructor <;> dsimp only
        case low => exact Nat.le_refl _
        case pos => rw [hlow']; omega
        case valid => rw [hlow', hhigh']; omega

theorem items_ne_zero {state : Option Pending} {bs : List UInt8} (hs : ∀ p ∈ state, p.Sound)
    (hb : ∀ b ∈ bs, b ≠ 0) : some '\x00' ∉ items state bs := by
  induction bs generalizing state
  case nil => cases state <;> simp [items]
  case cons b bs hi =>
    have hne : b.toNat ≠ 0 := fun e => hb b List.mem_cons_self (UInt8.toNat_inj.mp e)
    have ⟨hfound, hnext⟩ := step_ne_zero hs hne
    have hrest := hi hnext fun c hc => hb c (List.mem_cons_of_mem _ hc)
    rw [items, List.mem_append, not_or]
    exact ⟨hfound, hrest⟩

theorem zero_not_mem_lossy {bs : List UInt8} (hb : ∀ b ∈ bs, b ≠ 0) : '\x00' ∉ (lossy bs).toList := by
  have h : some '\x00' ∉ items none bs := items_ne_zero nofun hb
  rw [lossy, String.toList_ofList, List.mem_map]
  rintro ⟨x, hx, he⟩
  cases x
  case none   => exact absurd he (by decide)
  case some c => exact h (he ▸ hx)

end InodeVolume.Utf8
