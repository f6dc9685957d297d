import InodeVolume.Geometry

namespace InodeVolume

structure Volume where
  bytes : Vector UInt8 volumeSize

namespace Volume

def zero : Volume :=
  ⟨.replicate volumeSize 0⟩

-- Past the end every byte reads as zero and writing does nothing, so neither needs a bound.
def byte (v : Volume) (a : Nat) : UInt8 :=
  if h : a < volumeSize then v.bytes[a] else 0

def setByte (v : Volume) (a : Nat) (b : UInt8) : Volume :=
  if h : a < volumeSize then ⟨v.bytes.set a b⟩ else v

def write (v : Volume) (a : Nat) : List UInt8 → Volume
  | []      => v
  | b :: bs => (v.setByte a b).write (a + 1) bs

def read (v : Volume) (a len : Nat) : List UInt8 :=
  (List.range' a len).map v.byte

@[ext]
theorem ext {v w : Volume} (h : ∀ a < volumeSize, v.byte a = w.byte a) : v = w := by
  obtain ⟨v⟩ := v
  obtain ⟨w⟩ := w
  congr
  apply Vector.ext
  intro a ha
  have := h a ha
  simp only [byte, ha, dite_true] at this
  exact this

theorem byte_zero (a : Nat) : zero.byte a = 0 := by
  simp [byte, zero]

theorem byte_of_le {v : Volume} {a : Nat} (h : volumeSize ≤ a) : v.byte a = 0 :=
  dif_neg (by omega)

theorem byte_setByte (v : Volume) (a : Nat) (b : UInt8) (i : Nat) :
    (v.setByte a b).byte i = if i = a ∧ a < volumeSize then b else v.byte i := by
  by_cases ha : a < volumeSize
  · by_cases hi : i < volumeSize
    · simp only [setByte, byte, ha, hi, dite_true, and_true, Vector.getElem_set, eq_comm]
    · have : ¬(i = a ∧ a < volumeSize) := by omega
      simp only [byte, hi, this, dite_false, if_false]
  · simp [setByte, ha]

theorem byte_write (v : Volume) (a : Nat) (bs : List UInt8) (i : Nat) :
    (v.write a bs).byte i =
      if a ≤ i ∧ i < a + bs.length ∧ i < volumeSize then bs.getD (i - a) 0 else v.byte i := by
  induction bs generalizing v a with
  | nil => rw [write, if_neg (by rw [List.length_nil]; omega)]
  | cons b bs ih =>
    rw [write, ih, byte_setByte, List.length_cons]
    by_cases h : i = a
    · subst h
      by_cases hi : i < volumeSize
      · rw [if_neg (by omega), if_pos ⟨rfl, hi⟩, if_pos (by omega), Nat.sub_self]
        rfl
      · rw [if_neg (by omega), if_neg (by omega), if_neg (by omega)]
    · by_cases hi : a + 1 ≤ i ∧ i < a + 1 + bs.length ∧ i < volumeSize
      · rw [if_pos hi, if_pos (by omega), show i - a = (i - (a + 1)) + 1 by omega]
        simp
      · rw [if_neg hi, if_neg (by omega), if_neg (by omega)]

@[simp]
theorem length_read (v : Volume) (a len : Nat) : (v.read a len).length = len := by
  simp [read]

def bit (v : Volume) (a i : Nat) : Bool :=
  (v.byte (a + i / 8)).toNat.testBit (i % 8)

def withBit (b : UInt8) (i : Nat) (on : Bool) : UInt8 :=
  if b.toNat.testBit i = on then b else UInt8.ofNat (b.toNat ^^^ 1 <<< i)

def setBit (v : Volume) (a i : Nat) (on : Bool) : Volume :=
  v.setByte (a + i / 8) (withBit (v.byte (a + i / 8)) (i % 8) on)

theorem testBit_withBit (b : UInt8) {i : Nat} (hi : i < 8) (on : Bool) (j : Nat) :
    (withBit b i on).toNat.testBit j = if j = i then on else b.toNat.testBit j := by
  by_cases h : b.toNat.testBit i = on
  · by_cases hj : j = i <;> simp [withBit, h, hj]
  · have hb : b.toNat < 2 ^ 8 := b.toNat_lt
    have hp : 2 ^ i < 2 ^ 8 := Nat.pow_lt_pow_right (by omega) hi
    have hx : (b.toNat ^^^ 2 ^ i) % 256 = b.toNat ^^^ 2 ^ i :=
      Nat.mod_eq_of_lt (Nat.xor_lt_two_pow hb hp)
    simp only [withBit, h, if_false, Nat.one_shiftLeft, UInt8.toNat_ofNat', Nat.reducePow, hx,
      Nat.testBit_xor, Nat.testBit_two_pow]
    by_cases hj : j = i
    · subst hj
      cases on <;> simp_all
    · have : ¬i = j := fun e => hj e.symm
      simp [hj, this]

theorem bit_setBit (v : Volume) {a i : Nat} (h : a + i / 8 < volumeSize) (on : Bool) (j : Nat) :
    (v.setBit a i on).bit a j = if j = i then on else v.bit a j := by
  simp only [bit, setBit, byte_setByte, h, and_true]
  by_cases hb : a + j / 8 = a + i / 8
  · rw [if_pos hb, testBit_withBit _ (by omega), hb]
    by_cases hj : j = i
    · simp [hj]
    · rw [if_neg hj, if_neg (by omega)]
  · rw [if_neg hb, if_neg (by omega : ¬j = i)]

def clearBit? (v : Volume) (a lo hi : Nat) : Option Nat :=
  (List.range' lo (hi - lo)).find? (!v.bit a ·)

def clearBits (v : Volume) (a n : Nat) : Nat :=
  (List.range n).countP (!v.bit a ·)

end Volume
end InodeVolume
