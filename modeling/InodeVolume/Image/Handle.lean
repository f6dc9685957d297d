import InodeVolume.Image.File

namespace InodeVolume.Image

abbrev FileId : Type := Fin 3

abbrev Files : Type := Vector Content 3

-- Change what one file holds. The file is taken out meanwhile, so that this happens in place.
def Files.alter {α : Type} (files : Files) (n : FileId) (f : Content → α × Content) : α × Files :=
  let (c, files) := files.swapAt n .empty n.isLt
  let (a, c) := f c
  (a, files.set n c n.isLt)

def spare (a b : Option FileId) : FileId :=
  if a ≠ some 0 ∧ b ≠ some 0 then 0 else if a ≠ some 1 ∧ b ≠ some 1 then 1 else 2

theorem spare_ne (a b : Option FileId) : a ≠ some (spare a b) ∧ b ≠ some (spare a b) := by
  have fin : ∀ n : FileId, n = 0 ∨ n = 1 ∨ n = 2 := by decide
  rcases a with _ | a <;> rcases b with _ | b
  · decide
  · rcases fin b with rfl | rfl | rfl <;> decide
  · rcases fin a with rfl | rfl | rfl <;> decide
  · rcases fin a with rfl | rfl | rfl <;> rcases fin b with rfl | rfl | rfl <;> decide

-- What a private handle has changed: which blocks, and a volume that has them.
structure Changes where
  changed : Vector Bool blockCount := .replicate blockCount false
  volume  : Volume := .zero

namespace Changes

def isChanged (c : Changes) (block : Nat) : Bool :=
  c.changed[block]?.getD false

def view (c : Changes) (v : Volume) : Volume :=
  ⟨.ofFn fun i => if c.isChanged (i / blockSize) then c.volume.bytes[i] else v.bytes[i]⟩

def differ (v w : Volume) (block : Nat) : Bool :=
  (List.range' (block * blockSize) blockSize).any fun a => v.byte a != w.byte a

def record (c : Changes) (v w : Volume) : Changes where
  changed := .ofFn fun block => c.isChanged block || differ v w block
  volume  := w

theorem byte_view (c : Changes) (v : Volume) (a : Nat) :
    (c.view v).byte a = if c.isChanged (a / blockSize) then c.volume.byte a else v.byte a := by
  by_cases h : a < volumeSize
  · simp [view, Volume.byte, h]
  · simp [Volume.byte_of_le (Nat.le_of_not_lt h)]

end Changes

structure Handle where
  file     : FileId
  changes? : Option Changes := none

namespace Handle

def volume (h : Handle) (files : Files) : Volume :=
  let v := (files.get h.file).front
  match h.changes? with
  | none   => v
  | some c => c.view v

def run {α : Type} (act : VolumeM α) : Handle → Files → Except Fault α × Handle × Files
  | ⟨n, none⟩, files =>
    let (result, files) := files.alter n fun ⟨v, rest, size⟩ =>
      let (result, v) := act v
      (result, ⟨v, rest, size⟩)
    (result, ⟨n, none⟩, files)
  | ⟨n, some c⟩, files =>
    let v := c.view (files.get n).front
    let (result, w) := act v
    (result, ⟨n, some (c.record v w)⟩, files)

def renew (file : FileId) (h : Handle) : Handle :=
  if h.file = file then { h with changes? := h.changes?.map fun _ => {} } else h

end Handle
end InodeVolume.Image
