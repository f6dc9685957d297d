import InodeVolume.Proofs.Directory.Mapping
import InodeVolume.Proofs.File.Lodging
import InodeVolume.Proofs.Image.Setup
import InodeVolume.Proofs.Tree.Addressing

namespace InodeVolume

open VolumeM Volume

namespace Volume

variable {v : Volume} {d refs : Nat} {mode : UInt32} {es : List Entry}

-- A directory that takes no link but its head, in a volume of which nothing else is known.
def Houses (v : Volume) (d refs : Nat) (mode : UInt32) (es : List Entry) : Prop :=
  ∃ c bytes, c.refs = refs ∧ c.mode = mode ∧ v.Lodges d c bytes ∧ Entries.Reads bytes es

namespace Houses

theorem slots (hv : v.Houses d refs mode es) : v.slots d = .ok es := by
  have ⟨c, bytes, _, _, l, hr⟩ := hv
  refine slots_eq (by rw [l.fileSize, hr.length]) fun i hi => ?_
  have hle : i * entrySize + entrySize ≤ es.length * entrySize := by lia
  have hlen : ((bytes.drop (i * entrySize)).take entrySize).length = entrySize := by
    rw [List.length_take, List.length_drop, hr.length]
    omega
  rw [slotWithin, ← hr.length, l.readWithin, hr.getElem hi]
  simp only [bind, Except.bind, hlen, if_true]
  rfl

theorem inode (hv : v.Houses d refs mode es) :
    ∃ c, v.link? d = some c ∧ c.refs = refs ∧ c.mode = mode :=
  have ⟨c, _, hrefs, hmode, l, _⟩ := hv
  ⟨c, l.link, hrefs, hmode⟩

end Houses
end Volume

namespace Directory

variable {v : Volume} {d i t refs : Nat} {mode : UInt32} {es : List Entry} {e : Entry}
variable {name : String}

theorem put_houses (hv : v.Houses d refs mode es) (hi : i < es.length) (he : e.Storable) :
    (put d i e).Ensures v (fun _ w => w.Houses d refs mode (es.set i e) ∧ v.Alters w d []) Never := by
  obtain ⟨c, bytes, hrefs, hmode, l, hr⟩ := hv
  have hle : i * entrySize + entrySize ≤ es.length * entrySize := by lia
  have hcap := l.formed.bounded
  have hlen := l.length
  rw [hr.length] at hlen
  have hd : i * entrySize + e.bytes.length ≤ bytes.length := by
    rw [Entry.length_bytes, hr.length]
    omega
  rw [put, if_neg (by lia), ensures_bind]
  apply (File.write_lodges l hd).mono_ok
  rintro _ w ⟨rfl, hl, a⟩
  rw [if_neg (by simp)]
  exact ⟨⟨c, _, hrefs, hmode, hl, hr.set hi he⟩, a⟩

theorem extend_houses (hv : v.Houses d refs mode es)
    (hcap : (es.length + 1) * entrySize ≤ inodeCapacity) :
    (extend d).Ensures v
      (fun _ w => ∃ e bs, w.Houses d refs mode (es ++ [e]) ∧ v.Alters w d bs ∧
        bs.length = blocksFor ((es.length + 1) * entrySize) - blocksFor (es.length * entrySize))
      (fun e w => e = .errno .noSpace ∧ w = v ∧ v.Crowded ∧
        blocksFor ((es.length + 1) * entrySize) ≠ blocksFor (es.length * entrySize)) := by
  obtain ⟨c, bytes, hrefs, hmode, l, hr⟩ := hv
  have hsum : bytes.length + entrySize = (es.length + 1) * entrySize := by
    rw [hr.length, Nat.succ_mul]
  rw [extend, ensures_bind]
  apply (File.grow_lodges l (by decide) (by decide) (hsum ▸ hcap)).mono_never
  rw [hsum, hr.length]
  rintro g w (⟨rfl, x, new, bs, hnew, hxr, hxm, hl, a, hbs⟩ | ⟨rfl, rfl, hall, hne⟩)
  case inl =>
    exact ⟨_, bs, ⟨x, _, hxr.trans hrefs, hxm.trans hmode, hl, hr.append (.single hnew)⟩, a, hbs⟩
  case inr => exact ⟨rfl, rfl, hall, hne⟩

theorem add_houses (hv : v.Houses d refs mode es) (hused : ∀ e ∈ es, ¬e.isFree)
    (hcap : (es.length + 1) * entrySize ≤ inodeCapacity) (he : Entry.Storable ⟨name, some t⟩)
    (ha : ∀ u, (name, u) ∉ Entries.used es) :
    (add d name t).Ensures v
      (fun _ w => ∃ bs, w.Houses d refs mode (es ++ [⟨name, some t⟩]) ∧ v.Alters w d bs ∧
        bs.length = blocksFor ((es.length + 1) * entrySize) - blocksFor (es.length * entrySize))
      (fun e w => e = .errno .noSpace ∧ w = v ∧ v.Crowded ∧
        blocksFor ((es.length + 1) * entrySize) ≠ blocksFor (es.length * entrySize)) := by
  have hany : ¬(es.any fun e => !e.isFree && e.name = name) := by
    rw [Entries.any_name_iff]
    exact fun ⟨u, hu⟩ => ha u hu
  have hidx : es.findIdx? Entry.isFree = none :=
    List.findIdx?_eq_none_iff.mpr fun e hm => by simpa using hused e hm
  rw [add, if_neg (by simpa using he.fits), ensures_bind, ensures_query_ok hv.slots, if_neg hany,
    hidx]
  dsimp only
  rw [ensures_bind, ensures_seqRight]
  apply (extend_houses hv hcap).mono_ok
  rintro _ u ⟨e, bs, hu, a, hbs⟩
  rw [ensures_pure, ensures_bind]
  apply (put_houses hu (by simp) he).mono_never
  rintro _ w ⟨hw, b⟩
  rw [List.set_append_right _ _ (Nat.le_refl _), Nat.sub_self, List.set_cons_zero] at hw
  exact ⟨bs, hw, List.append_nil bs ▸ a.trans b, hbs⟩

end Directory

namespace Tree

variable {v : Volume}

def bareRoot : Inode where
  refs := 1
  mode := Mode.root

theorem storable_bareRoot : bareRoot.Storable :=
  { Inode.Storable.default with refs := by decide }

theorem wellFormed_bareRoot : bareRoot.WellFormed :=
  { Inode.WellFormed.default with }

theorem houses_bareRoot (h : v.link? rootInode = some bareRoot) :
    v.Houses rootInode 1 Mode.root [] :=
  ⟨bareRoot, [], rfl, rfl, .of_empty h wellFormed_bareRoot rfl rfl, rfl, rfl⟩

theorem makeRoot_houses (h : v.inodeTaken rootInode = false) :
    makeRoot.Ensures v
      (fun _ w => (∃ b, v.Alters w rootInode [b]) ∧
        w.Houses rootInode 1 Mode.root [⟨".", some rootInode⟩, ⟨"..", some rootInode⟩])
      (fun e w => e = .errno .noSpace ∧ v.Crowded ∧ v.Alters w rootInode [] ∧
        w.link? rootInode = some bareRoot) := by
  have hnone : v.link? rootInode = none := by
    rw [← Option.isNone_iff_eq_none, ← Option.not_isSome, isSome_link?, h, Bool.not_false]
  rw [makeRoot, ensures_bind, ensures_look, h, if_pos (by decide), ensures_bind]
  apply (Inode.alloc_ensures v).mono
  case he =>
    rintro e w ⟨_, _, hall⟩
    simpa [hnone] using hall rootInode (by decide)
  rintro i x ⟨_, _, hleast, rx⟩
  obtain rfl : i = rootInode := by
    by_contra hne
    simpa [hnone] using hleast rootInode (Nat.pos_of_ne_zero hne)
  have hx : x.link? rootInode = some {} := by rw [rx.links, Function.update_self]
  rw [ensures_bind, ensures_query_ok (inode_of_link? hx), ensures_bind]
  apply (Inode.put_ensures (by rw [hx]; rfl) storable_bareRoot).mono_never
  intro _ y ry
  have r := rx.trans (rx.taken ▸ rx.links ▸ ry)
  rw [Function.update_idem] at r
  have hlink : y.link? rootInode = some bareRoot := by rw [r.links, Function.update_self]
  have a : v.Alters y rootInode [] := .of_relinked r (.refl _) (by simp)
  rw [ensures_bind, Directory.start, ensures_discard]
  apply (Directory.add_houses (houses_bareRoot hlink) (by simp) (by decide)
    (.used (by decide) (by decide) (by decide)) (by simp)).mono
  case he =>
    rintro _ _ ⟨he, rfl, hall, _⟩
    exact ⟨he, a.crowded_iff.mp hall, a, hlink⟩
  rintro _ z ⟨bs, hz, b, hbs⟩
  have hone : bs.length = 1 := hbs.trans (by decide)
  obtain ⟨k, rfl⟩ := List.length_eq_one_iff.mp hone
  rw [ensures_discard]
  apply (Directory.add_houses hz (by simp [Entry.isFree]) (by decide)
    (.used (by decide) (by decide) (by decide)) (by simp [Entries.used, Entry.naming])).mono
  case he =>
    rintro _ _ ⟨_, _, _, hne⟩
    exact absurd (by decide) hne
  rintro _ w ⟨cs, hw, c, hcs⟩
  obtain rfl := List.eq_nil_of_length_eq_zero (hcs.trans (by decide))
  exact ⟨⟨k, (a.trans b).trans c⟩, hw⟩

end Tree

namespace Volume

structure HasRoot (v : Volume) (names : List (String × Nat)) : Prop where
  path : v.resolve rootInode "/" = .ok rootInode
  stat : ∃ s, Tree.stat v rootInode = .ok s ∧ s.kind = .directory ∧ s.links = 1
  list : Tree.list v rootInode = .ok names

variable {v : Volume} {es : List Entry}

theorem Houses.hasRoot (hv : v.Houses rootInode 1 Mode.root es) :
    v.HasRoot (Entries.used es) where
  path := rfl
  stat := by
    have ⟨c, bytes, hrefs, hmode, l, _⟩ := hv
    have hkind : NodeKind.ofMode Mode.root = .directory := by decide
    refine ⟨_, Tree.stat_of_walks l.walks, ?_, hrefs⟩
    rw [Stat.kind, hmode, hkind]
  list := by
    have ⟨c, hc, _, hmode⟩ := hv.inode
    have hd : v.isDir rootInode = .ok true := by
      rw [isDir, inode_of_link? hc]
      simp only [bind, Except.bind, Inode.isDir, hmode]
      rfl
    rw [Tree.list, hd, listing_eq hv.slots]
    rfl

end Volume

namespace Image

structure Workspace.Opens (x : Workspace) (names : List (String × Nat)) : Prop where
  done   : x.openTree.1 = Outcome.done
  serves : ∃ n v, x.openTree.2.Serves n v ∧ v.HasRoot names

variable {v w : Volume} {x : Workspace} {c : Content} {names : List (String × Nat)}

theorem Workspace.opens_of (hv : x.found.openVolume = .ok v) (hw : withRoot v = (Outcome.done, w))
    (hr : w.HasRoot names) : x.Opens names where
  done   := by
    rw [openTree, hv]
    simp only [hw, Outcome.done]
  serves :=
    have ⟨n, hn⟩ := openTree_serves hv hw
    ⟨n, w, hn, hr⟩

theorem withRoot_of_ok (h : Tree.makeRoot v = (.ok (), w)) : withRoot v = (Outcome.done, w) := by
  rw [withRoot, h]
  rfl

theorem Workspace.opens_bareRoot (hx : x.found = .file c)
    (hc : c.front.link? rootInode = some Tree.bareRoot) : x.Opens [] := by
  have hl : c.front.reserve.link? rootInode = some Tree.bareRoot := by
    rw [(Volume.relinked_reserve _).links, hc]
  have ht : c.front.reserve.inodeTaken rootInode := by
    rw [← Volume.isSome_link?, hl]
    rfl
  exact opens_of (by rw [hx]; rfl) (withRoot_of_ok (Volume.makeRoot_of_taken ht))
    (Tree.houses_bareRoot hl).hasRoot

end Image

namespace Volume

open Image (withRoot Content Outcome Workspace)

def AllOrNothing (v : Volume) : Prop :=
  match withRoot v with
  | (.ok (.ok ()), w) => w.HasRoot [(".", rootInode), ("..", rootInode)]
  | (_, w)            => w.inodeTaken rootInode = false

structure Roots (v w : Volume) (b : Nat) : Prop where
  done    : withRoot v = (Outcome.done, w)
  alters  : v.Alters w rootInode [b]
  hasRoot : w.HasRoot [(".", rootInode), ("..", rootInode)]
  opens   : ∀ x : Workspace, x.found.openVolume = .ok v → x.Opens [(".", rootInode), ("..", rootInode)]

-- The root is not set up, but its inode is taken. So long as the record stays what it is, whoever opens
-- the volume later on takes that for a root.
structure Botches (v w : Volume) : Prop where
  failed : withRoot v = (Outcome.failed (.noRoot .noSpace), w)
  alters : v.Alters w rootInode []
  taken  : w.inodeTaken rootInode
  left   : ∀ x : Workspace, x.found.openVolume = .ok v → x.openTree.2.found = .file { front := w }
  opens  : ∀ (x : Workspace) (c : Content), x.found = .file c →
    c.front.link? rootInode = w.link? rootInode → x.Opens []

variable {v w : Volume}

theorem Roots.allOrNothing {b : Nat} (r : v.Roots w b) : v.AllOrNothing := by
  rw [AllOrNothing, r.done]
  exact r.hasRoot

theorem Botches.not_allOrNothing (b : v.Botches w) : ¬v.AllOrNothing := by
  simp only [AllOrNothing, b.failed, Outcome.failed, b.taken, Bool.true_eq_false, not_false_iff]

theorem roots_of_not_crowded (h : v.inodeTaken rootInode = false) (hc : ¬v.Crowded) :
    ∃ w b, v.Roots w b := by
  rcases hr : Tree.makeRoot v with ⟨_ | _, w⟩
  case error =>
    have ⟨_, hall, _⟩ := (Tree.makeRoot_houses h).of_error hr
    exact absurd hall hc
  case ok =>
    have ⟨⟨b, a⟩, hw⟩ := (Tree.makeRoot_houses h).of_ok hr
    have hdone := Image.withRoot_of_ok hr
    exact ⟨w, b, hdone, a, hw.hasRoot, fun x hx => Workspace.opens_of hx hdone hw.hasRoot⟩

theorem botches_of_crowded (h : v.inodeTaken rootInode = false) (hc : v.Crowded) :
    ∃ w, v.Botches w := by
  rcases hr : Tree.makeRoot v with ⟨_ | _, w⟩
  case error =>
    obtain ⟨rfl, _, a, hw⟩ := (Tree.makeRoot_houses h).of_error hr
    have hfailed : withRoot v = (Outcome.failed (.noRoot .noSpace), w) := by
      rw [withRoot, hr]
      rfl
    refine ⟨w, hfailed, a, ?taken, ?left, ?opens⟩
    case taken =>
      rw [← isSome_link?, hw]
      rfl
    case left =>
      intro x hx
      rw [Workspace.openTree, hx]
      simp [hfailed, Outcome.failed, Workspace.found, Workspace.put, Image.Place.map,
        Image.Files.get_set]
    case opens => exact fun x c hx hl => Workspace.opens_bareRoot hx (hl.trans hw)
  case ok =>
    obtain ⟨⟨_, a⟩, _⟩ := (Tree.makeRoot_houses h).of_ok hr
    exact absurd hc (a.not_crowded (List.cons_ne_nil _ _))

-- A root is set up if there is a block for it, and whoever opens the volume finds it there. If
-- there is none, its inode is taken all the same. From then on the volume can be opened, however
-- many blocks there are by then, and its root does not even list itself.
theorem withRoot_exact (h : v.inodeTaken rootInode = false) :
    (v.AllOrNothing ↔ ¬v.Crowded) ∧ (¬v.Crowded → ∃ w b, v.Roots w b) ∧
      (v.Crowded → ∃ w, v.Botches w) := by
  refine ⟨⟨?sound, ?complete⟩, roots_of_not_crowded h, botches_of_crowded h⟩
  case sound =>
    intro ha hc
    have ⟨_, hb⟩ := botches_of_crowded h hc
    exact hb.not_allOrNothing ha
  case complete =>
    intro hc
    have ⟨_, _, hr⟩ := roots_of_not_crowded h hc
    exact hr.allOrNothing

def stuffed : Volume :=
  zero.write blockMapStart (.replicate (blockCount / 8) 255)

theorem inodeTaken_stuffed (i : Nat) : stuffed.inodeTaken i = false := by
  have hbyte : stuffed.byte (inodeMapStart + i / 8) = 0 := by
    rw [stuffed, byte_write_of_not (.inr (by simp only [List.length_replicate]; lia)), byte_zero]
  simp [inodeTaken, bit, hbyte]

theorem crowded_stuffed : stuffed.Crowded := by
  intro b _ hb
  have hlt : b / 8 < blockCount / 8 := by lia
  have hbyte : stuffed.byte (blockMapStart + b / 8) = 255 := by
    rw [stuffed, byte_write, if_pos (by simp only [List.length_replicate]; lia),
      Nat.add_sub_cancel_left, List.getD_eq_getElem?_getD, List.getElem?_replicate_of_lt hlt,
      Option.getD_some]
  have hbit : (2 ^ 8 - 1).testBit (b % 8) := by
    rw [Nat.testBit_two_pow_sub_one, decide_eq_true (Nat.mod_lt b (by decide))]
  rw [blockTaken, bit, hbyte, decide_eq_true hb, Bool.true_and]
  exact hbit

theorem not_crowded_blank : ¬blank.Crowded := by
  intro hall
  have := hall reservedBlocks (Nat.le_refl _) (by decide)
  simp [blockTaken_blank] at this

theorem withRoot_exact_blank_stuffed :
    (blank.inodeTaken rootInode = false ∧ blank.AllOrNothing) ∧
    (stuffed.inodeTaken rootInode = false ∧
      ∃ w, withRoot stuffed = (Outcome.failed (.noRoot .noSpace), w) ∧ w.inodeTaken rootInode) := by
  have hblank : blank.inodeTaken rootInode = false := by
    rw [← isSome_link?, link?_blank, Option.isSome_none]
  have hstuffed := inodeTaken_stuffed rootInode
  have ⟨ha, _⟩ := withRoot_exact hblank
  have ⟨_, _, hc⟩ := withRoot_exact hstuffed
  have ⟨w, hb⟩ := hc crowded_stuffed
  exact ⟨⟨hblank, ha.mpr not_crowded_blank⟩, hstuffed, w, hb.failed, hb.taken⟩

theorem not_allOrNothing_stuffed :
    stuffed.inodeTaken rootInode = false ∧ ¬stuffed.AllOrNothing := by
  have ⟨_, hb⟩ := botches_of_crowded (inodeTaken_stuffed rootInode) crowded_stuffed
  exact ⟨inodeTaken_stuffed rootInode, hb.not_allOrNothing⟩

end Volume
end InodeVolume
