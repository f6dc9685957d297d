import InodeVolume.Directory.Entry
import InodeVolume.Proofs.Bytes.Utf8
import InodeVolume.Proofs.File.Content
import Mathlib.Data.List.TakeWhile

namespace InodeVolume

def Entry.Plain (name : String) : Prop :=
  '\x00' ∉ name.toList

instance (name : String) : Decidable (Entry.Plain name) :=
  inferInstanceAs (Decidable (_ ∉ _))

namespace Entry

structure Codable (e : Entry) : Prop where
  fits  : fits e.name
  plain : Plain e.name
  inode : ∀ n, e.inode = some n → n < 0x80000000

-- What is written and read back the same. A free entry has no name.
structure Storable (e : Entry) : Prop where
  fits  : fits e.name
  plain : Plain e.name
  inode : ∀ n, e.inode = some n → n < 0x80000000
  clean : e.isFree → e = .free

theorem Storable.codable {e : Entry} (h : e.Storable) : e.Codable :=
  ⟨h.fits, h.plain, h.inode⟩

theorem Storable.free : Storable free where
  fits  := by decide
  plain := by simp [Plain, Entry.free]
  inode := by simp [Entry.free]
  clean := fun _ => rfl

theorem Storable.used {name : String} {n : Nat} (hf : Entry.fits name) (hp : Plain name)
    (hn : n < inodeCount) : Storable ⟨name, some n⟩ where
  fits  := hf
  plain := hp
  inode := by simp; lia
  clean := by simp [isFree]

variable {e : Entry}

theorem takeWhile_nameField {name : String} (hf : fits name) (hp : Plain name) :
    (nameField name).takeWhile (· ≠ 0) = Utf8.bytes name := by
  have hlt : (Utf8.bytes name).length ≤ nameWidth - 1 := by
    simp only [fits, decide_eq_true_eq] at hf
    omega
  have hne : ∀ b ∈ Utf8.bytes name, decide (b ≠ 0) := by
    simpa using Utf8.ne_zero_of_mem_bytes hp
  rw [nameField, List.take_of_length_le hlt, List.rightpad, List.takeWhile_append_of_pos hne,
    List.takeWhile_replicate]
  simp

theorem wordAt_bytes (e : Entry) :
    LittleEndian.wordAt (e.bytes.getD · 0) nameWidth = (Reference.word e.inode).toUInt32 := by
  have hk : ∀ k, e.bytes.getD (nameWidth + k) 0 =
      (LittleEndian.bytes (Reference.word e.inode).toUInt32 ++
        .replicate (entrySize - nameWidth - 4) 0).getD k 0 := by
    intro k
    rw [bytes, List.append_assoc, List.getD_eq_getElem?_getD, List.getD_eq_getElem?_getD,
      List.getElem?_append_right (by rw [length_nameField]; omega), length_nameField,
      Nat.add_sub_cancel_left]
  simp only [LittleEndian.wordAt, hk, hk 0]
  exact LittleEndian.word_bytes _

theorem take_bytes (e : Entry) : e.bytes.take nameWidth = nameField e.name := by
  rw [bytes, List.append_assoc]
  exact List.take_left' (length_nameField _)

theorem Codable.ofBytes_bytes (h : e.Codable) : ofBytes e.bytes = e := by
  rw [ofBytes, take_bytes, takeWhile_nameField h.fits h.plain, Utf8.lossy_bytes, wordAt_bytes,
    Int32.toInt32_toUInt32, Reference.ofWord_word h.inode]

theorem ofBytes_bytes (h : e.Storable) : ofBytes e.bytes = e :=
  h.codable.ofBytes_bytes

theorem plain_ofBytes (raw : List UInt8) : Plain (ofBytes raw).name :=
  Utf8.zero_not_mem_lossy fun _ hb => by simpa using List.mem_takeWhile_imp hb

-- What is read of an entry that was written, be its name what it may.
def stored (e : Entry) : Entry :=
  .ofBytes e.bytes

theorem Storable.stored_eq (h : e.Storable) : e.stored = e :=
  ofBytes_bytes h

theorem inode_stored (h : ∀ n, e.inode = some n → n < 0x80000000) : e.stored.inode = e.inode := by
  rw [stored, ofBytes, wordAt_bytes, Int32.toInt32_toUInt32, Reference.ofWord_word h]

theorem isFree_stored (h : ∀ n, e.inode = some n → n < 0x80000000) : e.stored.isFree = e.isFree := by
  rw [isFree, isFree, inode_stored h]

end Entry

def Entries.bytes (es : List Entry) : List UInt8 :=
  es.flatMap Entry.bytes

def Entries.ofBytes (bytes : List UInt8) : List Entry :=
  (List.range (bytes.length / entrySize)).map fun i =>
    .ofBytes ((bytes.drop (i * entrySize)).take entrySize)

namespace Entries

variable {es : List Entry} {e : Entry} {i : Nat}

@[simp]
theorem length_bytes (es : List Entry) : (bytes es).length = es.length * entrySize := by
  induction es
  case nil          => rfl
  case cons e es hi =>
    rw [bytes, List.flatMap_cons, List.length_append, Entry.length_bytes, List.length_cons,
      Nat.succ_mul, Nat.add_comm, ← hi, bytes]

theorem bytes_cons (e : Entry) (es : List Entry) : bytes (e :: es) = e.bytes ++ bytes es :=
  List.flatMap_cons

theorem bytes_append (es fs : List Entry) : bytes (es ++ fs) = bytes es ++ bytes fs :=
  List.flatMap_append

theorem split (h : es[i]? = some e) :
    ∃ fs gs, es = fs ++ e :: gs ∧ fs.length = i := by
  have ⟨hi, he⟩ := List.getElem?_eq_some_iff.mp h
  exact ⟨es.take i, es.drop (i + 1), by rw [← he]; simp, by rw [List.length_take]; omega⟩

theorem slice (h : es[i]? = some e) :
    ((bytes es).drop (i * entrySize)).take entrySize = e.bytes := by
  have ⟨fs, gs, hes, hi⟩ := split h
  rw [hes, bytes_append, List.drop_left' (by rw [length_bytes, hi]), bytes_cons,
    List.take_left' (Entry.length_bytes e)]

theorem ofBytes_bytes (hs : ∀ e ∈ es, e.Storable) : ofBytes (bytes es) = es := by
  rw [ofBytes, length_bytes, Nat.mul_div_cancel _ (by decide)]
  apply List.ext_getElem (by simp)
  intro i _ hi
  rw [List.getElem_map, List.getElem_range, slice (List.getElem?_eq_getElem hi)]
  exact Entry.ofBytes_bytes (hs _ (List.getElem_mem hi))

theorem overwrite_set (h : es[i]? = some e) (d : Entry) :
    overwrite (bytes es) (i * entrySize) d.bytes = bytes (es.set i d) := by
  have ⟨fs, gs, hes, hi⟩ := split h
  have hfs : (bytes fs).length = i * entrySize := by rw [length_bytes, hi]
  have hset : es.set i d = fs ++ d :: gs := by rw [hes, ← hi]; simp
  rw [hset, hes, bytes_append, bytes_append, overwrite, List.take_left' hfs, List.drop_append,
    List.drop_of_length_le (by rw [hfs]; omega), hfs, Nat.add_sub_cancel_left, bytes_cons, bytes_cons,
    Entry.length_bytes, List.drop_left' (Entry.length_bytes e), List.nil_append, List.append_assoc]

theorem overwrite_append {new : List UInt8} (h : new.length = entrySize) (d : Entry) :
    overwrite (bytes es ++ new) (es.length * entrySize) d.bytes = bytes (es ++ [d]) := by
  have hes : (bytes es).length = es.length * entrySize := length_bytes es
  rw [overwrite, List.take_left' hes, bytes_append, List.drop_of_length_le, List.append_nil]
  case _ => simp [bytes]
  case _ => exact Nat.le_of_eq (by rw [List.length_append, hes, h, Entry.length_bytes])

end Entries
end InodeVolume
