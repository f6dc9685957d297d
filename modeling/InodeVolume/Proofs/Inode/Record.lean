import InodeVolume.Inode.Record
import Mathlib.Tactic.Common

namespace InodeVolume

namespace LittleEndian

theorem wordAt_flatMap (ws : List UInt32) (more : List UInt8) {k : Nat} (h : k < ws.length) :
    wordAt ((ws.flatMap bytes ++ more).getD · 0) (4 * k) = ws.getD k 0 := by
  induction ws generalizing k
  case nil => simp at h
  case cons w ws hi =>
    cases k
    case zero   => exact word_bytes w
    case succ k => exact hi (Nat.lt_of_succ_lt_succ h)

theorem flatMap_wordAt (byte : Nat → UInt8) (n : Nat) :
    ((List.range n).map fun k => wordAt byte (4 * k)).flatMap bytes = (List.range (4 * n)).map byte := by
  induction n
  case zero => rfl
  case succ n hi =>
    have hlast : bytes (wordAt byte (4 * n)) = (List.range' (4 * n) 4).map byte := bytes_word ..
    rw [List.range_succ, List.map_append, List.flatMap_append, hi, List.map_singleton,
      List.flatMap_singleton, hlast, ← List.map_append, Nat.mul_succ, List.range_eq_range',
      List.range_eq_range', ← List.range'_append_1, Nat.zero_add]

end LittleEndian

namespace Record

theorem ofWords_congr {f g : Nat → UInt32} (h : ∀ k < 8, f k = g k) : ofWords f = ofWords g := by
  simp only [ofWords, h 0 (by decide), h 1 (by decide), h 2 (by decide), h 3 (by decide),
    h 4 (by decide), h 5 (by decide), h 6 (by decide), h 7 (by decide)]

theorem ofWords_words (r : Record) : ofWords (r.words.getD · 0) = r := by
  cases r
  simp only [ofWords, words, List.getD_cons_zero, List.getD_cons_succ, Int32.toInt32_toUInt32,
    mk.injEq, true_and, and_true]
  apply Vector.ext
  intro s hs
  match s, hs with
  | 0, _ | 1, _ | 2, _ | 3, _ => rfl

theorem words_ofWords (word : Nat → UInt32) : (ofWords word).words = (List.range 8).map word := by
  simp [words, ofWords, List.range_succ]

theorem bytes_ofWords (byte : Nat → UInt8) :
    (ofWords fun k => LittleEndian.wordAt byte (4 * k)).bytes = (List.range recordSize).map byte := by
  rw [bytes, words_ofWords, LittleEndian.flatMap_wordAt]

theorem load?_bytes_append (r : Record) (more : List UInt8) : load? (r.bytes ++ more) = some r := by
  rw [load?, if_neg (by simp)]
  refine congrArg some ((ofWords_congr fun k hk => ?_).trans r.ofWords_words)
  exact LittleEndian.wordAt_flatMap r.words more hk

theorem exists_load? {buffer : List UInt8} (h : buffer.length = recordSize) :
    ∃ r, load? buffer = some r ∧ r.bytes = buffer := by
  refine ⟨_, if_neg (by omega), ?_⟩
  rw [bytes_ofWords, ← h]
  refine List.ext_getElem (by simp) fun k hk _ => ?_
  have hk : k < buffer.length := by simpa using hk
  simp [hk]

theorem storeInto_of_le (r : Record) {buffer : List UInt8} (h : recordSize ≤ buffer.length) :
    r.storeInto buffer = (.ok recordSize, r.bytes ++ buffer.drop recordSize) := by
  rw [storeInto, store, if_neg (by omega)]

theorem storeInto_of_lt (r : Record) {buffer : List UInt8} (h : buffer.length < recordSize) :
    r.storeInto buffer = (.error (.tooShort buffer.length), buffer) := by
  rw [storeInto, store, if_pos h]

end Record

namespace Inode

def slot (i : Inode) (s : Nat) : Option Nat :=
  i.blocks[s]?.join

theorem slot_of_lt {i : Inode} {s : Nat} (h : s < slotsPerInode) : i.slot s = i.blocks[s] := by
  simp [slot, h]

theorem slot_of_le {i : Inode} {s : Nat} (h : slotsPerInode ≤ s) : i.slot s = none := by
  simp [slot, Vector.getElem?_eq_none_iff.mpr h]

theorem lt_of_slot {i : Inode} {s b : Nat} (h : i.slot s = some b) : s < slotsPerInode := by
  by_contra hs
  simp [slot_of_le (Nat.le_of_not_lt hs)] at h

@[simp]
theorem slot_default (s : Nat) : slot {} s = none := by
  by_cases hs : s < slotsPerInode
  case pos => simp [slot_of_lt hs]
  case neg => exact slot_of_le (Nat.le_of_not_lt hs)

structure Storable (i : Inode) : Prop where
  refs   : i.refs < 0x80000000
  size   : i.size < 0x80000000
  blocks : ∀ s b, i.slot s = some b → b < 0x80000000
  next   : ∀ n, i.next = some n → n < 0x80000000

theorem Storable.default : Storable {} where
  refs   := by decide
  size   := by decide
  blocks := by simp
  next   := by simp

end Inode

theorem Reference.ofWord_word {n : Option Nat} (h : ∀ k, n = some k → k < 0x80000000) :
    ofWord (word n) = n := by
  cases n
  case none   => exact ofWord_word_none
  case some k => exact ofWord_word_some (h k rfl)

theorem Reference.lt_of_ofWord {w : Int32} {n : Nat} (h : ofWord w = some n) : n < 0x80000000 := by
  have hw := w.toInt_lt
  simp only [ofWord] at h
  split at h
  case isTrue  => contradiction
  case isFalse => simp only [Option.some.injEq] at h; omega

namespace Record

theorem inode_ofInode {i : Inode} (h : i.Storable) : (ofInode i).inode = i := by
  have hr : (Int32.ofNat i.refs).toInt = i.refs := Int32.toInt_ofNat_of_lt h.refs
  have hs : (Int32.ofNat i.size).toInt = i.size := Int32.toInt_ofNat_of_lt h.size
  have hb : (i.blocks.map Reference.word).map Reference.ofWord = i.blocks := by
    apply Vector.ext
    intro s hs
    simp only [Vector.getElem_map]
    exact Reference.ofWord_word fun b hb => h.blocks s b (Inode.slot_of_lt hs ▸ hb)
  simp only [inode, ofInode, hr, hs, hb, Reference.ofWord_word h.next, Int.toNat_natCast]

theorem inode_ofInode_revise {i : Inode} (h : i.Storable) (refs : Nat) (mode : UInt32) :
    (ofInode { i with refs, mode }).inode =
      { i with refs := (Int32.ofNat refs).toInt.toNat, mode } :=
  congrArg (fun c : Inode => { c with refs := (Int32.ofNat refs).toInt.toNat, mode })
    (inode_ofInode h)

theorem storable_inode (r : Record) : r.inode.Storable where
  refs   := by have := r.refs.toInt_lt; simp only [inode]; omega
  size   := by have := r.size.toInt_lt; simp only [inode]; omega
  next   := fun _ h => Reference.lt_of_ofWord h
  blocks := by
    intro s b h
    have hs := Inode.lt_of_slot h
    rw [Inode.slot_of_lt hs] at h
    simp only [inode, Vector.getElem_map] at h
    exact Reference.lt_of_ofWord h

end Record
end InodeVolume
