namespace InodeVolume.Reference

def ofWord (w : Int32) : Option Nat :=
  if w.toInt < 0 then none else some w.toInt.toNat

def word : Option Nat → Int32
  | none   => -1
  | some n => Int32.ofNat n

theorem ofWord_word_none : ofWord (word none) = none := by
  decide

theorem ofWord_word_some {n : Nat} (h : n < 0x80000000) : ofWord (word (some n)) = some n := by
  have : (Int32.ofNat n).toInt = n := Int32.toInt_ofNat_of_lt (by omega)
  simp [ofWord, word, this]

end InodeVolume.Reference
