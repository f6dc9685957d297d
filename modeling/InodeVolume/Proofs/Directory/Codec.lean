import InodeVolume.Proofs.Directory.Mapping
import InodeVolume.Proofs.Image.Setup

namespace InodeVolume

open VolumeM Volume

namespace Utf8

theorem isValidUTF8_iff {bs : List UInt8} : bs.toByteArray.IsValidUTF8 ↔ ∃ s, bs = bytes s := by
  constructor
  case mp =>
    rintro ⟨cs, h⟩
    have := congrArg (fun b : ByteArray => b.data.toList) h
    exact ⟨String.ofList cs, by simpa [bytes, List.utf8Encode] using this⟩
  case mpr =>
    rintro ⟨s, rfl⟩
    exact ⟨s.toList, rfl⟩

theorem bytes_injective : Function.Injective bytes :=
  Function.LeftInverse.injective lossy_bytes

end Utf8

namespace Reference

variable {w : Int32} {n : Nat} {o : Option Nat}

theorem word_ofWord (h : -1 ≤ w.toInt) : word (ofWord w) = w := by
  rw [ofWord, ← Int32.toInt_inj]
  split
  case isTrue hneg =>
    have : (word none).toInt = -1 := rfl
    omega
  case isFalse hpos =>
    have := w.toInt_lt
    rw [word, Int32.toInt_ofNat_of_lt (by omega)]
    omega

theorem le_word (h : ∀ n, o = some n → n < 0x80000000) : -1 ≤ (word o).toInt := by
  cases o
  case none   => exact Int.le_refl _
  case some n =>
    have := h n rfl
    rw [word, Int32.toInt_ofNat_of_lt (by omega)]
    omega

end Reference

namespace LittleEndian

theorem drop_eq_append {raw : List UInt8} {a : Nat} (h : a + 4 ≤ raw.length) :
    raw.drop a = bytes (wordAt (raw.getD · 0) a) ++ raw.drop (a + 4) := by
  have hstep : ∀ k, k < raw.length → raw.drop k = raw.getD k 0 :: raw.drop (k + 1) := by
    intro k hk
    rw [List.drop_eq_getElem_cons hk, List.getD_eq_getElem?_getD, List.getElem?_eq_getElem hk,
      Option.getD_some]
  rw [wordAt, bytes_word, hstep a (by omega), hstep (a + 1) (by omega), hstep (a + 2) (by omega),
    hstep (a + 3) (by omega)]
  rfl

end LittleEndian

namespace Entry

-- Bytes as they stand in a slot: text without zeros, filled up with zeros, then a number or -1, then
-- zeros again.
structure Tidy (raw : List UInt8) : Prop where
  length : raw.length = entrySize
  name   : ∃ text : List UInt8, text.toByteArray.IsValidUTF8 ∧ text.length < nameWidth ∧
    (∀ b ∈ text, b ≠ 0) ∧ raw.take nameWidth = text ++ .replicate (nameWidth - text.length) 0
  inode  : -1 ≤ (LittleEndian.wordAt (raw.getD · 0) nameWidth).toInt32.toInt
  unused : raw.drop (nameWidth + 4) = .replicate (entrySize - nameWidth - 4) 0

variable {e d : Entry} {name : String} {raw : List UInt8}

theorem nameField_eq (hf : fits name) :
    nameField name = Utf8.bytes name ++ .replicate (nameWidth - (Utf8.bytes name).length) 0 := by
  rw [fits, decide_eq_true_eq] at hf
  rw [nameField, List.take_of_length_le (by omega), List.rightpad]

theorem nameField_inj {other : String} (hf : fits name) (hp : Plain name) (hf' : fits other)
    (hp' : Plain other) : nameField name = nameField other ↔ name = other := by
  refine ⟨fun h => Utf8.bytes_injective ?_, congrArg nameField⟩
  rw [← takeWhile_nameField hf hp, h, takeWhile_nameField hf' hp']

theorem Codable.tidy (h : e.Codable) : Tidy e.bytes where
  length := length_bytes e
  name   := by
    have hlt : (Utf8.bytes e.name).length < nameWidth := by
      have := h.fits
      rwa [Entry.fits, decide_eq_true_eq] at this
    exact ⟨Utf8.bytes e.name, Utf8.isValidUTF8_iff.mpr ⟨_, rfl⟩, hlt,
      Utf8.ne_zero_of_mem_bytes h.plain, by rw [take_bytes, nameField_eq h.fits]⟩
  inode  := by
    rw [wordAt_bytes, Int32.toInt32_toUInt32]
    exact Reference.le_word h.inode
  unused := by
    rw [bytes]
    exact List.drop_left' (by rw [List.length_append, length_nameField, LittleEndian.length_bytes])

namespace Tidy

theorem nameField_ofBytes (t : Tidy raw) :
    fits (ofBytes raw).name ∧ nameField (ofBytes raw).name = raw.take nameWidth := by
  have ⟨text, hvalid, hlt, hne, hfield⟩ := t.name
  obtain ⟨s, rfl⟩ := Utf8.isValidUTF8_iff.mp hvalid
  have hname : (ofBytes raw).name = s := by
    have hne : ∀ b ∈ Utf8.bytes s, decide (b ≠ 0) := fun b hb => decide_eq_true (hne b hb)
    rw [ofBytes, hfield, List.takeWhile_append_of_pos hne, List.takeWhile_replicate]
    simpa using Utf8.lossy_bytes s
  have hfit : fits s := by rwa [fits, decide_eq_true_eq]
  rw [hname, nameField_eq hfit, hfield]
  exact ⟨hfit, rfl⟩

theorem codable (t : Tidy raw) : (ofBytes raw).Codable where
  fits  := t.nameField_ofBytes.left
  plain := plain_ofBytes raw
  inode := fun _ hn => Reference.lt_of_ofWord hn

theorem bytes_ofBytes (t : Tidy raw) : (ofBytes raw).bytes = raw := by
  have hlen : nameWidth + 4 ≤ raw.length := by rw [t.length]; decide
  calc (ofBytes raw).bytes
    _ = raw.take nameWidth ++ LittleEndian.bytes (LittleEndian.wordAt (raw.getD · 0) nameWidth) ++
          .replicate (entrySize - nameWidth - 4) 0 := by
      rw [bytes, t.nameField_ofBytes.right, ofBytes, Reference.word_ofWord t.inode,
        UInt32.toUInt32_toInt32]
    _ = raw := by
      rw [← t.unused, List.append_assoc, ← LittleEndian.drop_eq_append hlen, List.take_append_drop]

end Tidy
end Entry

namespace Entries

variable {es : List Entry} {d : Entry} {name other : String} {i t u : Nat}

def hit (name : String) (slot : Entry × Nat) : Option (Nat × Nat) :=
  if slot.1.name = name then slot.1.inode.map (slot.2, ·) else none

theorem hit_eq_none (h : d.isFree ∨ name ≠ d.name) : hit name (d, i) = none := by
  rw [hit]
  split
  case isFalse   => rfl
  case isTrue hn =>
    have := h.resolve_right fun hne => hne hn.symm
    rw [Entry.isFree, Option.isNone_iff_eq_none] at this
    rw [this, Option.map_none]

theorem find_append (fs gs : List Entry) (name : String) :
    find (fs ++ gs) name = (find fs name).or ((gs.zipIdx fs.length).findSome? (hit name)) := by
  rw [find, List.zipIdx_append, List.findSome?_append, Nat.zero_add]
  rfl

theorem find_insert_of_ne (h : other ≠ d.name) : find (insert es d) other = find es other := by
  rcases place_cases es d with ⟨fs, x, gs, hes, hx, _, hi⟩ | ⟨_, _, hi⟩
  case inl =>
    rw [hi, hes, find_append, find_append, List.zipIdx_cons, List.zipIdx_cons, List.findSome?_cons,
      List.findSome?_cons, hit_eq_none (.inr h), hit_eq_none (.inl hx)]
  case inr =>
    rw [hi, find_append, List.zipIdx_cons, List.findSome?_cons, hit_eq_none (.inr h)]
    exact Option.or_none

theorem find_insert_self (ha : ∀ u, (name, u) ∉ used es) :
    find (insert es ⟨name, some t⟩) name = some (place es, t) := by
  cases hf : find (insert es ⟨name, some t⟩) name
  case none =>
    have := find_eq_none.mp hf t
    exact absurd ((used_insert rfl).mem_iff.mpr List.mem_cons_self) this
  case some p =>
    rcases getElem?_insert_iff.mp (find_eq_some hf) with ⟨hi, _, ht⟩ | hold
    case inl => rw [← hi, ← ht]
    case inr => exact absurd (mem_used.mpr (List.mem_of_getElem? hold)) (ha p.2)

end Entries

namespace Volume

variable {v w : Volume} {files : Nat → Option (List UInt8)} {d i t u : Nat} {es : List Entry}
variable {name other : String}

-- A name has been added to a directory. Whatever other name is looked for or to be added next, it is
-- as if the first one were not there.
structure Distinguishes (v w : Volume) (d : Nat) (name : String) (t i : Nat) : Prop where
  slot   : ∃ es, w.slots d = .ok es ∧ es[i]? = some ⟨name, some t⟩
  lookup : ∀ other, w.lookup d other = if other = name then .ok t else v.lookup d other
  taken  : ∀ other u, Entry.Codable ⟨other, some u⟩ →
    ((Directory.add d other u w).1 = .error (.errno .fileExists) ↔
      other = name ∨ (Directory.add d other u v).1 = .error (.errno .fileExists))

theorem Shows.add_exists_iff (hv : v.Shows files d es) (hc : Entry.Codable ⟨other, some u⟩) :
    (Directory.add d other u v).1 = .error (.errno .fileExists) ↔
      ∃ t, (other, t) ∈ Entries.used es := by
  constructor
  case mpr =>
    intro ht
    rw [Directory.add_taken hv.slots hc.fits ht]
  case mp =>
    intro he
    by_contra ha
    have h := Directory.add_shows hv hc.fits hc.plain (hc.inode u rfl) (not_exists.mp ha)
    rcases hadd : Directory.add d other u v with ⟨e | i, w⟩
    case ok    => simp [hadd] at he
    case error => simp [hadd, (h.of_error hadd).left] at he

theorem Shows.distinguishes (hv : v.Shows files d es) (hc : Entry.Codable ⟨name, some t⟩)
    (hadd : Directory.add d name t v = (.ok i, w)) : v.Distinguishes w d name t i := by
  have hnew : ¬∃ u, (name, u) ∈ Entries.used es := by
    rw [← hv.add_exists_iff hc, hadd]
    nofun
  have ha := not_exists.mp hnew
  have ⟨hi, _, hw⟩ := (Directory.add_shows hv hc.fits hc.plain (hc.inode t rfl) ha).of_ok hadd
  constructor
  case slot => exact ⟨_, hw.slots, hi ▸ Entries.getElem?_insert_place ..⟩
  case lookup =>
    intro other
    rw [lookup_eq hw.slots, lookup_eq hv.slots]
    by_cases hn : other = name
    case neg => rw [if_neg hn, Entries.find_insert_of_ne hn]
    case pos =>
      rw [if_pos hn, hn, if_pos hc.fits, Entries.find_insert_self ha]
      rfl
  case taken =>
    intro other u hc'
    rw [hw.add_exists_iff hc', hv.add_exists_iff hc']
    have hused : ∀ x, (other, x) ∈ Entries.used (Entries.insert es ⟨name, some t⟩) ↔
        other = name ∧ x = t ∨ (other, x) ∈ Entries.used es := by
      intro x
      rw [(Entries.used_insert rfl).mem_iff, List.mem_cons, Prod.mk.injEq]
    simp only [hused, exists_or, exists_and_left, exists_eq, and_true]

end Volume

namespace Entry

-- Encoding and decoding are inverse to each other between the entries that can be told from their
-- bytes and the bytes that stand in a slot. So names are told apart by all of their bytes, in their
-- fields and in the directories that they are added to.
theorem codec_exact :
    (∀ e : Entry, e.Codable → Tidy e.bytes ∧ ofBytes e.bytes = e) ∧
    (∀ raw, Tidy raw → (ofBytes raw).Codable ∧ (ofBytes raw).bytes = raw) ∧
    (∀ e d : Entry, e.Codable → d.Codable →
      (e.bytes.take nameWidth = d.bytes.take nameWidth ↔ Utf8.bytes e.name = Utf8.bytes d.name) ∧
      (Utf8.bytes e.name = Utf8.bytes d.name ↔ e.name = d.name)) ∧
    ∀ (v : Volume) d n, v.Consistent → v.Head d → v.fileSize d = .ok n → n % entrySize = 0 →
      ∀ name t, Codable ⟨name, some t⟩ →
        ∀ i w, Directory.add d name t v = (.ok i, w) → v.Distinguishes w d name t i := by
  refine ⟨fun e h => ⟨h.tidy, h.ofBytes_bytes⟩, fun raw t => ⟨t.codable, t.bytes_ofBytes⟩, ?_, ?_⟩
  case refine_1 =>
    intro e d he hd
    have hinj := Utf8.bytes_injective.eq_iff (a := e.name) (b := d.name)
    rw [take_bytes, take_bytes, nameField_inj he.fits he.plain hd.fits hd.plain, hinj]
    exact ⟨.rfl, .rfl⟩
  case refine_2 =>
    intro v d n c hd hn hm name t hc i w hadd
    have ⟨files, hv⟩ := c.exists_files
    have ⟨bytes, hf⟩ := hv.exists_file hd
    have hsize : n = bytes.length := Except.ok.inj (hn.symm.trans (hv.fileSize hf))
    exact (hv.shows hf (Entries.Reads.of_mod (hsize ▸ hm))).distinguishes hc hadd

theorem codec_exact_fresh :
    let e : Entry := ⟨"aééééééééééééééééééééééé", some 1⟩
    let d : Entry := ⟨"aééééééééééééééééééééééè", some 1⟩
    (e.Codable ∧ Tidy e.bytes ∧ ofBytes e.bytes = e ∧ (ofBytes e.bytes).bytes = e.bytes) ∧
      (d.Codable ∧ e.bytes.take nameWidth ≠ d.bytes.take nameWidth) ∧
      ∃ i w, (Volume.fresh.Consistent ∧ Volume.fresh.Head rootInode ∧
        Volume.fresh.fileSize rootInode = .ok FileState.root.bytes.length ∧
        FileState.root.bytes.length % entrySize = 0 ∧
        Directory.add rootInode e.name 1 .fresh = (.ok i, w)) ∧
        Volume.fresh.Distinguishes w rootInode e.name 1 i := by
  intro e d
  have he : e.Codable := ⟨by decide, by decide, by rintro _ ⟨⟩; decide⟩
  have hd : d.Codable := ⟨by decide, by decide, by rintro _ ⟨⟩; decide⟩
  obtain ⟨hcode, hraw, htell, hadd⟩ := codec_exact
  obtain ⟨htidy, hback⟩ := hcode e he
  obtain ⟨hfield, hname⟩ := htell e d he hd
  have hroot : rootFiles rootInode = some .root := Function.update_self ..
  have hlists : FileState.root.Lists [⟨".", some rootInode⟩, ⟨"..", some rootInode⟩] :=
    ⟨rfl, FileState.storable_root⟩
  have hmod : FileState.root.bytes.length % entrySize = 0 := by
    rw [hlists.length, Nat.mul_mod_left]
  have habsent : ∀ u, (e.name, u) ∉ Entries.used
      [⟨".", some rootInode⟩, (⟨"..", some rootInode⟩ : Entry)] := by
    simp [Entries.used, naming, e]
  obtain ⟨i, w, hw, _⟩ := (Directory.add_sparse_ensures holds_fresh sparse_rootFiles (t := 1)
    (by decide) hroot hlists (by decide) he.fits habsent).exists_ok
  have c := holds_fresh.consistent
  have hh : Volume.fresh.Head rootInode := holds_fresh.head_root
  have hsize := holds_fresh.fileSize hroot
  refine ⟨⟨he, htidy, hback, (hraw _ htidy).right⟩, ⟨hd, ?_⟩, i, w, ⟨c, hh, hsize, hmod, hw⟩, ?_⟩
  case refine_1 => exact mt (hfield.trans hname).mp (by decide)
  case refine_2 => exact hadd _ _ _ c hh hsize hmod _ _ he _ _ hw

end Entry
end InodeVolume
