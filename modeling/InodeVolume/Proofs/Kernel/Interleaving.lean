import InodeVolume.Proofs.Kernel.Listing
import InodeVolume.Proofs.Tree.Faults
import InodeVolume.Proofs.Tree.Space

namespace InodeVolume

open VolumeM Volume

namespace Volume

def rank (v : Volume) (d : Nat) (name : String) : Nat :=
  match v.names d with
  | .ok names => names.idxOf name
  | .error _  => 0

end Volume

open Tree.Operation in
theorem Tree.Reachable.performAll {v : Volume} {ops : List Operation} (r : Reachable v)
    (ha : AllAdmissible ops v) : Reachable (performAll ops v).2 := by
  induction ops generalizing v
  case nil            => exact r
  case cons op ops hi => exact hi (r.perform ha.left) ha.right

namespace Kernel

open InodeVolume.Tree InodeVolume.Tree.Operation

structure Call where
  volume : Volume
  offset : Nat
  page   : List ListedEntry

-- A listing of a node, one page after the other until there is an empty one. Each call has room for
-- the longest entry, and anything may be done between one call and the next.
inductive Scan (id : Nat) : Nat → Volume → List Call → Prop
  | last {v : Volume} {offset room : Nat} : 72 ≤ room →
    Request.serve (.readdir id offset room) v = (.ok (.listing []), v) →
    Scan id offset v [⟨v, offset, []⟩]
  | next {v : Volume} {offset room : Nat} {page : List ListedEntry} {e : ListedEntry}
    {ops : List Operation} {calls : List Call} : 72 ≤ room →
    Request.serve (.readdir id offset room) v = (.ok (.listing page), v) →
    page.getLast? = some e → AllAdmissible ops v → Scan id e.offset (performAll ops v).2 calls →
    Scan id offset v (⟨v, offset, page⟩ :: calls)

def returned (calls : List Call) : List ListedEntry :=
  calls.flatMap (·.page)

def pauses (calls : List Call) : List (Call × Call) :=
  calls.zip calls.tail

-- A name that is still to come up moves to before the offset of the next call.
def Skips (d : Nat) (name : String) (pause : Call × Call) : Prop :=
  pause.2.offset ≤ pause.1.volume.rank d name ∧ pause.2.volume.rank d name < pause.2.offset

-- A name that has come up falls back behind the offset of the next call.
def Repeats (d : Nat) (name : String) (pause : Call × Call) : Prop :=
  pause.1.volume.rank d name < pause.2.offset ∧ pause.2.offset ≤ pause.2.volume.rank d name

instance (d : Nat) (name : String) (pause : Call × Call) : Decidable (Skips d name pause) :=
  inferInstanceAs (Decidable (_ ∧ _))

instance (d : Nat) (name : String) (pause : Call × Call) : Decidable (Repeats d name pause) :=
  inferInstanceAs (Decidable (_ ∧ _))

def Spares (d : Nat) (pause : Call × Call) : Prop :=
  ∀ es es', Tree.list pause.1.volume d = .ok es → Tree.list pause.2.volume d = .ok es' →
    es.take pause.2.offset = es'.take pause.2.offset

variable {v w : Volume} {d t offset room : Nat} {name : String} {calls : List Call}
variable {page : List ListedEntry}

theorem Scan.exists_cons {id : Nat} (s : Scan id offset v calls) :
    ∃ page rest, calls = ⟨v, offset, page⟩ :: rest := by
  cases s
  case last => exact ⟨_, _, rfl⟩
  case next => exact ⟨_, _, rfl⟩

theorem count_take_drop {names : List String} (hn : names.Nodup) (hm : name ∈ names) (k n : Nat) :
    ((names.drop k).take n).count name =
      if k ≤ names.idxOf name ∧ names.idxOf name < k + n then 1 else 0 := by
  have hlt := List.idxOf_lt_length_of_mem hm
  rw [((hn.sublist (List.drop_sublist k names)).sublist (List.take_sublist n _)).count]
  refine if_congr ?_ rfl rfl
  constructor
  case mp =>
    intro h
    have ⟨i, hi⟩ := List.getElem?_of_mem h
    rw [List.getElem?_take, List.getElem?_drop] at hi
    split at hi
    case isFalse => contradiction
    case isTrue hin =>
      have ⟨hki, he⟩ := List.getElem?_eq_some_iff.mp hi
      have : names.idxOf name = k + i := by rw [← he, hn.idxOf_getElem]
      omega
  case mpr =>
    intro ⟨hlo, hhi⟩
    refine List.mem_of_getElem? (i := names.idxOf name - k) ?_
    rw [List.getElem?_take, if_pos (by omega), List.getElem?_drop, Nat.add_sub_cancel' hlo,
      List.getElem?_eq_getElem hlt, List.getElem_idxOf hlt]

theorem Listing.number_eq_map (kind : Nat → NodeKind) {es : List (String × Nat)}
    (h : ∀ x ∈ es, ∃ s, Tree.stat v x.2 = .ok s ∧ s.kind.reported = kind x.2) (n : Nat) :
    number v n es = .ok ((es.zipIdx n).map fun (x, i) => ⟨nodeId x.2, i + 1, kind x.2, x.1⟩) := by
  induction es generalizing n
  case nil => rfl
  case cons x es hi =>
    have ⟨s, hs, hk⟩ := h x List.mem_cons_self
    have hrest := hi (fun y hy => h y (List.mem_cons_of_mem _ hy)) (n + 1)
    simp only [number, hs, hrest, bind, Except.bind, hk]
    rfl

structure Shows (v : Volume) (d : Nat) (es : List (String × Nat)) (listed : List ListedEntry) :
    Prop where
  list     : Tree.list v d = .ok es
  distinct : (es.map (·.1)).Nodup
  names    : listed.map (·.name) = es.map (·.1)
  entries  : ∀ e ∈ listed, ∃ x ∈ es, e.name = x.1 ∧ e.id = nodeId x.2
  offsets  : ∀ i e, listed[i]? = some e → e.offset = i + 1
  sizes    : ∀ e ∈ listed, e.size ≤ 72
  serve    : ∀ offset room : Nat, Request.serve (.readdir (nodeId d) offset room) v =
    (.ok (.listing (Listing.page room (listed.drop offset))), v)

theorem shows_of_describes {es : List (String × Nat)} {listed : List ListedEntry}
    (hd : d < inodeCount) (hl : Tree.list v d = .ok es) (hn : Listing.number v 0 es = .ok listed)
    (hdistinct : (es.map (·.1)).Nodup) (hfits : ∀ x ∈ es, Entry.fits x.1)
    (h : List.Forall₂ (Describes v d) es.zipIdx listed) : Shows v d es listed := by
  have hget : ∀ i e, listed[i]? = some e → ∃ x, es[i]? = some x ∧ Describes v d (x, i) e := by
    intro i e he
    have ⟨hi, he⟩ := List.getElem?_eq_some_iff.mp he
    have hi' : i < es.zipIdx.length := by rw [h.length_eq]; exact hi
    have := h.get hi' hi
    simp only [List.get_eq_getElem, List.getElem_zipIdx, he, Nat.zero_add] at this
    exact ⟨_, List.getElem?_eq_getElem (by simpa using hi'), this⟩
  have hmem : ∀ e ∈ listed, ∃ x ∈ es, e.name = x.1 ∧ e.id = nodeId x.2 := by
    intro e he
    have ⟨i, hi⟩ := List.getElem?_of_mem he
    have ⟨x, hx, hde⟩ := hget i e hi
    exact ⟨x, List.mem_of_getElem? hx, hde.name, hde.id⟩
  constructor
  case list     => exact hl
  case distinct => exact hdistinct
  case entries  => exact hmem
  case serve    => exact serve_readdir hd hl hn
  case offsets  => exact fun i e he => (hget i e he).elim fun _ hx => hx.right.offset
  case names =>
    refine List.ext_getElem? fun i => ?_
    rw [List.getElem?_map, List.getElem?_map]
    have hlen := h.length_eq
    rw [List.length_zipIdx] at hlen
    cases he : listed[i]?
    case none =>
      rw [List.getElem?_eq_none_iff] at he
      rw [List.getElem?_eq_none_iff.mpr (by omega)]
      rfl
    case some e =>
      have ⟨x, hx, hde⟩ := hget i e he
      rw [hx, Option.map_some, Option.map_some, hde.name]
  case sizes =>
    intro e he
    have ⟨x, hx, hname, _⟩ := hmem e he
    have hfit := hfits x hx
    simp only [Entry.fits, decide_eq_true_eq] at hfit
    rw [ListedEntry.size, hname]
    lia

theorem shows_of_lists (r : Reachable v) (hl : v.Lists d name t) :
    ∃ es listed, Shows v d es listed ∧ (name, t) ∈ es := by
  have ⟨_, run⟩ := r
  have ⟨files, hv, _, a, _⟩ := run.settled
  have ⟨hh, es, hes, hm⟩ := hl
  have ⟨f, hf⟩ := hv.head_iff.mp hh
  have hd : f.isDir := by
    by_contra hd
    rw [Arranged.list_error hv hf hd] at hes
    contradiction
  obtain rfl := Except.ok.inj ((a.list_eq hv hf hd).symm.trans hes)
  have ⟨listed, hn, hdesc⟩ := a.number_eq hv hf hd (List.Subset.refl _) 0
  refine ⟨_, listed, shows_of_describes (a.lt hf) hes hn (a.distinct hf hd) ?_ hdesc, hm⟩
  exact fun x hx => ((a.lists hf hd).storable _ (Entries.mem_used.mp hx)).fits

namespace Shows

variable {es : List (String × Nat)} {listed : List ListedEntry} {e : ListedEntry}

theorem rank_eq (s : Shows v d es listed) : v.rank d name = (es.map (·.1)).idxOf name := by
  have ⟨_, ss, hss, hused⟩ := slots_of_list s.list
  have hl : v.listing d = .ok es := by
    rw [listing, hss, ← hused]
    rfl
  rw [rank, Volume.names, hl]
  rfl

theorem rank_lt (s : Shows v d es listed) (hm : (name, t) ∈ es) :
    v.rank d name < listed.length := by
  have hlen := congrArg List.length s.names
  rw [List.length_map, List.length_map] at hlen
  have hlt := List.idxOf_lt_length_of_mem (List.mem_map_of_mem (f := (·.1)) hm)
  rw [List.length_map] at hlt
  rw [s.rank_eq, hlen]
  exact hlt

theorem page_eq (room offset : Nat) (listed : List ListedEntry) :
    Listing.page room (listed.drop offset) =
      (listed.drop offset).take (Listing.page room (listed.drop offset)).length :=
  List.prefix_iff_eq_take.mp (Listing.page_isPrefix room _)

theorem countP_page (s : Shows v d es listed) (hm : (name, t) ∈ es) (room offset : Nat) :
    (Listing.page room (listed.drop offset)).countP (·.name = name) =
      if offset ≤ v.rank d name ∧
        v.rank d name < offset + (Listing.page room (listed.drop offset)).length
      then 1 else 0 := by
  have hn : name ∈ es.map (·.1) := List.mem_map_of_mem hm
  have hcount : ∀ l : List ListedEntry, l.countP (·.name = name) = (l.map (·.name)).count name := by
    intro l
    rw [List.count, List.countP_map]
    exact List.countP_congr fun e _ => by simp
  rw [hcount, page_eq, List.map_take, List.map_drop, s.names, count_take_drop s.distinct hn,
    ← page_eq, s.rank_eq]

theorem offset_getLast (s : Shows v d es listed) {room offset : Nat}
    (he : (Listing.page room (listed.drop offset)).getLast? = some e) :
    e.offset = offset + (Listing.page room (listed.drop offset)).length := by
  have hpos : 0 < (Listing.page room (listed.drop offset)).length := by
    rw [List.length_pos_iff]
    intro hnil
    simp [hnil] at he
  rw [List.getLast?_eq_getElem?, page_eq, List.getElem?_take, ← page_eq, if_pos (by omega),
    List.getElem?_drop] at he
  rw [s.offsets _ _ he]
  omega

end Shows

-- One call and the pause after it: what comes up, and what is still to come up before and after.
theorem balance (rank rank' : Nat) {offset next : Nat} (h : offset ≤ next) :
    (if offset ≤ rank ∧ rank < next then 1 else 0) +
        (if next ≤ rank ∧ rank' < next then 1 else 0) + (if next ≤ rank' then 1 else 0) =
      (if offset ≤ rank then 1 else 0) + if rank < next ∧ next ≤ rank' then 1 else 0 := by
  repeat' split
  all_goals omega

theorem Scan.countP_returned (s : Scan (nodeId d) offset v calls) (r : Reachable v)
    (hl : ∀ c ∈ calls, c.volume.Lists d name t) :
    (returned calls).countP (·.name = name) + (pauses calls).countP (Skips d name) =
      (if offset ≤ v.rank d name then 1 else 0) + (pauses calls).countP (Repeats d name) := by
  induction s
  case last v offset room hroom hserve =>
    have ⟨es, listed, hs, hm⟩ := shows_of_lists r (hl ⟨v, offset, []⟩ List.mem_cons_self)
    have hpage : Listing.page room (listed.drop offset) = [] := by
      have h := congrArg Prod.fst ((hs.serve offset room).symm.trans hserve)
      exact Reply.listing.inj (Except.ok.inj h)
    have hsize : ∀ e ∈ listed.drop offset, e.size ≤ room :=
      fun e he => (hs.sizes e (List.mem_of_mem_drop he)).trans hroom
    rw [Listing.page_eq_nil hsize, List.drop_eq_nil_iff] at hpage
    have hlt := hs.rank_lt hm
    rw [if_neg (by omega)]
    rfl
  case next v offset room page e ops calls hroom hserve hlast ha s hi =>
    have ⟨es, listed, hs, hm⟩ := shows_of_lists r (hl ⟨v, offset, page⟩ List.mem_cons_self)
    have hpage : Listing.page room (listed.drop offset) = page := by
      have h := congrArg Prod.fst ((hs.serve offset room).symm.trans hserve)
      exact Reply.listing.inj (Except.ok.inj h)
    have hcount := hs.countP_page hm room offset
    have hoffset := hs.offset_getLast (hpage ▸ hlast)
    rw [hpage] at hcount hoffset
    have hrest := hi (r.performAll ha) fun c hc => hl c (List.mem_cons_of_mem _ hc)
    obtain ⟨page', rest, rfl⟩ := s.exists_cons
    simp only [returned, pauses, List.flatMap_cons, List.countP_append, List.tail_cons,
      List.zip_cons_cons, List.countP_cons, decide_eq_true_eq] at hrest ⊢
    rw [hcount]
    simp only [Skips, Repeats, hoffset] at hrest ⊢
    have := balance (v.rank d name) ((performAll ops v).2.rank d name)
      (Nat.le_add_right offset page.length)
    omega

theorem Scan.of_mem {id : Nat} (s : Scan id offset v calls) (r : Reachable v) :
    ∀ c ∈ calls, Reachable c.volume ∧ ∃ room : Nat,
      Request.serve (.readdir id c.offset room) c.volume = (.ok (.listing c.page), c.volume) := by
  induction s
  case last v offset room _ hserve =>
    intro c hc
    obtain rfl := List.mem_singleton.mp hc
    exact ⟨r, room, hserve⟩
  case next v offset room page e ops calls _ hserve _ ha _ hi =>
    intro c hc
    cases List.mem_cons.mp hc
    case inl hc => exact hc ▸ ⟨r, room, hserve⟩
    case inr hc => exact hi (r.performAll ha) c hc

theorem mem_of_mem_pauses {pause : Call × Call} (hp : pause ∈ pauses calls) :
    pause.1 ∈ calls ∧ pause.2 ∈ calls :=
  have ⟨h₁, h₂⟩ := List.of_mem_zip (show (pause.1, pause.2) ∈ _ from hp)
  ⟨h₁, List.mem_of_mem_tail h₂⟩

namespace Shows

variable {es : List (String × Nat)} {listed : List ListedEntry}

theorem id_of_mem_page (s : Shows v d es listed) (hm : (name, t) ∈ es) {room offset : Nat}
    (hserve : Request.serve (.readdir (nodeId d) offset room) v = (.ok (.listing page), v))
    {e : ListedEntry} (he : e ∈ page) (hname : e.name = name) : e.id = nodeId t := by
  have h := congrArg Prod.fst ((s.serve offset room).symm.trans hserve)
  obtain rfl := Reply.listing.inj (Except.ok.inj h)
  have ⟨⟨n, u⟩, hx, hn, hid⟩ :=
    s.entries e (List.mem_of_mem_drop ((Listing.page_isPrefix room _).subset he))
  have hux := List.inj_on_of_nodup_map s.distinct hx hm (hn.symm.trans hname)
  rw [hid, (Prod.mk.inj hux).right]

theorem rank_lt_iff (s : Shows v d es listed) (hm : (name, t) ∈ es) (n : Nat) :
    v.rank d name < n ↔ name ∈ (es.take n).map (·.1) := by
  have hn : name ∈ es.map (·.1) := List.mem_map_of_mem hm
  have h := count_take_drop s.distinct hn 0 n
  rw [List.drop_zero, ← List.map_take, ← s.rank_eq, Nat.zero_add] at h
  rw [← List.count_pos_iff, h]
  split <;> omega

end Shows

theorem Spares.not_moves {pause : Call × Call} (hs : Spares d pause)
    (r : Reachable pause.1.volume) (r' : Reachable pause.2.volume)
    (hl : pause.1.volume.Lists d name t) (hl' : pause.2.volume.Lists d name t) :
    ¬Skips d name pause ∧ ¬Repeats d name pause := by
  have ⟨es, _, h, hm⟩ := shows_of_lists r hl
  have ⟨es', _, h', hm'⟩ := shows_of_lists r' hl'
  have hiff : pause.1.volume.rank d name < pause.2.offset ↔
      pause.2.volume.rank d name < pause.2.offset := by
    rw [h.rank_lt_iff hm, h'.rank_lt_iff hm', hs es es' h.list h'.list]
  constructor
  case left  => exact fun ⟨hlo, hhi⟩ => absurd (hiff.mpr hhi) (Nat.not_lt.mpr hlo)
  case right => exact fun ⟨hhi, hlo⟩ => absurd (hiff.mp hhi) (Nat.not_lt.mpr hlo)

end Kernel

namespace Tree

variable {v : Volume} {d t : Nat} {name : String}

open Kernel

-- A directory may change in any way while it is read page by page. Each call is answered with a
-- page. A name that the directory lists for the same file whenever it is read comes up with the
-- number of that file, and once for the whole listing, once more for each time that it falls back
-- behind the offset at which the listing goes on, and once less for each time that it moves to
-- before it. So it comes up exactly once where what stands before that offset is left alone.
theorem Reachable.scan_amid {calls : List Call} (r : Reachable v)
    (s : Scan (nodeId d) 0 v calls) (hl : ∀ c ∈ calls, c.volume.Lists d name t) :
    (∀ c ∈ calls, ∀ offset room : Nat, ∃ page,
      Request.serve (.readdir (nodeId d) offset room) c.volume = (.ok (.listing page), c.volume)) ∧
      (∀ e ∈ returned calls, e.name = name → e.id = nodeId t) ∧
      (returned calls).countP (·.name = name) + (pauses calls).countP (Skips d name) =
        1 + (pauses calls).countP (Repeats d name) ∧
      ((∀ p ∈ pauses calls, Spares d p) → (returned calls).countP (·.name = name) = 1) := by
  have hcount := s.countP_returned r hl
  rw [if_pos (Nat.zero_le _)] at hcount
  refine ⟨fun c hc offset room => ?_, fun e he hname => ?_, hcount, fun hspares => ?_⟩
  case refine_1 =>
    have ⟨_, _, hs, _⟩ := shows_of_lists (s.of_mem r c hc).left (hl c hc)
    exact ⟨_, hs.serve offset room⟩
  case refine_2 =>
    have ⟨c, hc, he⟩ := List.mem_flatMap.mp he
    have ⟨rc, _, hserve⟩ := s.of_mem r c hc
    have ⟨_, _, hs, hm⟩ := shows_of_lists rc (hl c hc)
    exact hs.id_of_mem_page hm hserve he hname
  case refine_3 =>
    have stays : ∀ p ∈ pauses calls, ¬Skips d name p ∧ ¬Repeats d name p := by
      intro p hp
      have ⟨h₁, h₂⟩ := mem_of_mem_pauses hp
      exact (hspares p hp).not_moves (s.of_mem r _ h₁).left (s.of_mem r _ h₂).left
        (hl _ h₁) (hl _ h₂)
    have hskips : (pauses calls).countP (Skips d name) = 0 :=
      List.countP_eq_zero.mpr fun p hp => by simpa using (stays p hp).left
    have hrepeats : (pauses calls).countP (Repeats d name) = 0 :=
      List.countP_eq_zero.mpr fun p hp => by simpa using (stays p hp).right
    omega

def rootWith (es : List Entry) : FileState :=
  .withEntries .root (⟨".", some rootInode⟩ :: ⟨"..", some rootInode⟩ :: es)

def twinFiles (es : List Entry) (refs : Nat) : Nat → Option FileState :=
  Function.update (Function.update rootFiles rootInode (some (rootWith es))) 1
    (some (.empty refs Mode.regular 0o100644))

def twinKind (n : Nat) : NodeKind :=
  if n = rootInode then .directory else .regular

def twinListed (es : List Entry) : List ListedEntry :=
  ((".", rootInode) :: ("..", rootInode) :: Entries.used es).zipIdx.map fun (x, i) =>
    ⟨nodeId x.2, i + 1, twinKind x.2, x.1⟩

section

variable {es : List Entry} {refs : Nat}

theorem lists_rootWith (hes : es ⊆ [.free, ⟨"a", some 1⟩, ⟨"b", some 1⟩]) :
    (rootWith es).Lists (⟨".", some rootInode⟩ :: ⟨"..", some rootInode⟩ :: es) := by
  refine FileState.lists_withEntries fun e he => ?_
  have : e = ⟨".", some rootInode⟩ ∨ e = ⟨"..", some rootInode⟩ ∨ e = .free ∨ e = ⟨"a", some 1⟩ ∨
      e = ⟨"b", some 1⟩ := by
    simpa using List.cons_subset_cons _ (List.cons_subset_cons _ hes) he
  obtain rfl | rfl | rfl | rfl | rfl := this
  case inr.inr.inl => exact .free
  all_goals exact .used (by decide) (by decide) (by decide)

theorem update_twinFiles (es es' : List Entry) (refs refs' : Nat) :
    Function.update (Function.update (twinFiles es refs) rootInode (some (rootWith es'))) 1
      (some (.empty refs' Mode.regular 0o100644)) = twinFiles es' refs' := by
  rw [twinFiles, Function.update_comm (show 1 ≠ rootInode by decide), Function.update_idem,
    Function.update_idem, twinFiles]

theorem soleFiles_eq : soleFiles "a" 0o100644 = twinFiles [⟨"a", some 1⟩] 1 := by
  rw [soleFiles, FileState.entries_root]
  rfl

theorem link_twin_ensures (hv : v.Holds (twinFiles [⟨"a", some 1⟩] 1)) :
    (Operation.link 1 rootInode "b").perform.Ensures v
      (fun _ w => w.Holds (twinFiles [⟨"a", some 1⟩, ⟨"b", some 1⟩] 2)) Never := by
  have hone : twinFiles [⟨"a", some 1⟩] 1 1 = some (.empty 1 Mode.regular 0o100644) :=
    Function.update_self ..
  have hroot : twinFiles [⟨"a", some 1⟩] 1 rootInode = some (rootWith [⟨"a", some 1⟩]) := rfl
  have hs : Sparse 2 (twinFiles [⟨"a", some 1⟩] 1) := soleFiles_eq ▸ sparse_soleFiles
  rw [Operation.perform, ensures_bind]
  apply (link_sparse_ensures hv hs (by decide) hroot (lists_rootWith (by decide)) (by decide)
    (show 3 < 64 by decide) (by simp [Entries.used, Entry.naming]) (by decide) (by decide) hone
    (FileState.not_isDir_empty 1 _) (by decide)).mono_ok
  exact fun _ w hw => update_twinFiles [⟨"a", some 1⟩] [⟨"a", some 1⟩, ⟨"b", some 1⟩] 1 2 ▸ hw

theorem unlink_twin_ensures {crooked : Prop} {owed : Nat → Int}
    (a : Arranged crooked owed (twinFiles [⟨"a", some 1⟩, ⟨"b", some 1⟩] 2))
    (hv : v.Holds (twinFiles [⟨"a", some 1⟩, ⟨"b", some 1⟩] 2)) :
    (Operation.unlink rootInode "a").perform.Ensures v
      (fun r w => r = .done ∧ w.Holds (twinFiles [.free, ⟨"b", some 1⟩] 1)) Never := by
  have hone : twinFiles [⟨"a", some 1⟩, ⟨"b", some 1⟩] 2 1 =
      some (.empty 2 Mode.regular 0o100644) :=
    Function.update_self ..
  have hroot : twinFiles [⟨"a", some 1⟩, ⟨"b", some 1⟩] 2 rootInode =
      some (rootWith [⟨"a", some 1⟩, ⟨"b", some 1⟩]) :=
    rfl
  have hl : (rootWith [⟨"a", some 1⟩, ⟨"b", some 1⟩]).Lists _ := lists_rootWith (by decide)
  have hfind : Entries.find (rootWith [⟨"a", some 1⟩, ⟨"b", some 1⟩]).entries "a" =
      some (2, 1) := by
    rw [hl.entries]
    decide
  have hlookup : lookup v rootInode "a" = .ok 1 := by
    rw [a.lookup_eq hv hroot (by decide), hfind]
  rw [Operation.perform, ensures_bind, unlink, ensures_bind, ensures_guardName (by decide),
    ensures_bind, ensures_query_ok hlookup, ensures_bind, ensures_query_ok (hv.isDir hone),
    if_neg (FileState.not_isDir_empty 2 _)]
  apply (removeName_ensures a hv hroot (by decide) hfind hone (by decide) (by decide)).mono_ok
  rintro _ w ⟨hw, _⟩
  rw [hl.entries] at hw
  exact ⟨rfl, update_twinFiles [⟨"a", some 1⟩, ⟨"b", some 1⟩] [.free, ⟨"b", some 1⟩] 2 1 ▸ hw⟩

theorem stat_twin {n : Nat} (hv : v.Holds (twinFiles es refs)) (hn : n = rootInode ∨ n = 1) :
    ∃ s, stat v n = .ok s ∧ s.kind.reported = twinKind n := by
  rcases hn with rfl | rfl
  case inl =>
    have hk : (NodeKind.ofMode Mode.root).reported = twinKind rootInode := by decide
    exact ⟨((rootWith es).view rootInode).stat, hv.stat rfl, hk⟩
  case inr =>
    have hk : (NodeKind.ofMode 0o100644).reported = twinKind 1 := by decide
    exact ⟨((FileState.empty refs Mode.regular 0o100644).view 1).stat, hv.stat rfl, hk⟩

theorem serve_twin (r : Reachable v) (hv : v.Holds (twinFiles es refs))
    (hes : es ⊆ [.free, ⟨"a", some 1⟩, ⟨"b", some 1⟩]) (offset room : Nat) :
    list v rootInode = .ok ((".", rootInode) :: ("..", rootInode) :: Entries.used es) ∧
      Request.serve (.readdir (nodeId rootInode) offset room) v =
        (.ok (.listing (Listing.page room ((twinListed es).drop offset))), v) := by
  have ⟨_, run⟩ := r
  have ⟨_, hf, _, a, _⟩ := run.settled
  obtain rfl := hf.unique hv
  have hd : (rootWith es).isDir := by
    rw [rootWith, FileState.isDir_withEntries]
    exact FileState.isDir_root
  have hl : list v rootInode =
      .ok ((".", rootInode) :: ("..", rootInode) :: Entries.used es) := by
    rw [a.list_eq hv rfl hd, (lists_rootWith hes).entries]
    rfl
  have hn : Listing.number v 0 ((".", rootInode) :: ("..", rootInode) :: Entries.used es) =
      .ok (twinListed es) := by
    refine Listing.number_eq_map twinKind (fun x hx => stat_twin hv ?_) 0
    rcases List.mem_cons.mp hx with rfl | hx
    case inl => exact .inl rfl
    rcases List.mem_cons.mp hx with rfl | hx
    case inl => exact .inl rfl
    have ⟨name, n⟩ := x
    have hx : name = "a" ∧ n = 1 ∨ name = "b" ∧ n = 1 := by
      simpa [Entry.free] using hes (Entries.mem_used.mp hx)
    exact .inr (hx.elim And.right And.right)
  exact ⟨hl, serve_readdir (by decide) hl hn offset room⟩

end

theorem scan_unlink :
    let v := ((Operation.mknod rootInode "a" 0o100644).perform fresh).2
    let w := ((Operation.link 1 rootInode "b").perform v).2
    let x := ((Operation.unlink rootInode "a").perform w).2
    let page := [⟨1, 1, .directory, "."⟩, ⟨1, 2, .directory, ".."⟩, ⟨2, 3, .regular, "a"⟩]
    let calls := [⟨w, 0, page⟩, ⟨x, 3, []⟩]
    Reachable w ∧ ((Operation.unlink rootInode "a").perform w).1 = .ok .done ∧
      Scan (nodeId rootInode) 0 w calls ∧ ∀ c ∈ calls, c.volume.Lists rootInode "b" 1 := by
  intro v w x page calls
  have hmknod : (Operation.mknod rootInode "a" 0o100644).Admissible fresh :=
    Operation.admissible_fresh (by decide)
  have hv : v.Holds (twinFiles [⟨"a", some 1⟩] 1) :=
    soleFiles_eq ▸ (mknod_fresh (show Proper "a" by decide) (by decide) (by decide)
      (show NodeKind.ofMode 0o100644 = .regular by decide)).right
  have hrootv : v.Head rootInode := hv.head_iff.mpr ⟨_, rfl⟩
  have hone : v.Head 1 := hv.head_iff.mpr ⟨_, rfl⟩
  have hlink : (Operation.link 1 rootInode "b").Admissible v :=
    ⟨hone.right, hrootv.right, by decide⟩
  have hw : w.Holds _ := (link_twin_ensures hv).volume (fun _ _ => id) fun _ _ => False.elim
  have hrootw : w.Head rootInode := hw.head_iff.mpr ⟨_, rfl⟩
  have hunlink : (Operation.unlink rootInode "a").Admissible w := ⟨hrootw.right, by decide⟩
  have run := (Run.fresh hmknod).step hlink
  have ⟨_, hf, _, a, _⟩ := run.settled
  obtain rfl := hf.unique hw
  have hunlinked := unlink_twin_ensures a hw
  have hx : x.Holds _ := hunlinked.volume (fun _ _ h => h.right) fun _ _ => False.elim
  have hrootx : x.Head rootInode := hx.head_iff.mpr ⟨_, rfl⟩
  have ⟨hlistw, hservew⟩ := serve_twin run.reachable hw (by decide) 0 96
  have ⟨hlistx, hservex⟩ := serve_twin (run.step hunlink).reachable hx (by decide) 3 96
  refine ⟨run.reachable, ?_, ?_, fun c hc => ?_⟩
  case refine_1 =>
    have ⟨_, _, hr, ha, _⟩ := hunlinked.exists_ok
    rw [hr, ha]
  case refine_2 =>
    have hlast : page.getLast? = some ⟨2, 3, .regular, "a"⟩ := rfl
    have ha : Operation.AllAdmissible [.unlink rootInode "a"] w := ⟨hunlink, trivial⟩
    have hrest : Scan (nodeId rootInode) 3 x [⟨x, 3, []⟩] := .last (show 72 ≤ 96 by decide) hservex
    exact .next (show 72 ≤ 96 by decide) hservew hlast ha hrest
  case refine_3 =>
    simp only [calls, List.mem_cons, List.not_mem_nil, or_false] at hc
    rcases hc with rfl | rfl
    case inl => exact ⟨hrootw, _, hlistw, by decide⟩
    case inr => exact ⟨hrootx, _, hlistx, by decide⟩

theorem scan_amid_unlink :
    let v := ((Operation.mknod rootInode "a" 0o100644).perform fresh).2
    let w := ((Operation.link 1 rootInode "b").perform v).2
    let x := ((Operation.unlink rootInode "a").perform w).2
    let page := [⟨1, 1, .directory, "."⟩, ⟨1, 2, .directory, ".."⟩, ⟨2, 3, .regular, "a"⟩]
    let calls := [⟨w, 0, page⟩, ⟨x, 3, []⟩]
    (Reachable w ∧ Scan (nodeId rootInode) 0 w calls ∧
      ∀ c ∈ calls, c.volume.Lists rootInode "b" 1) ∧
      (∀ c ∈ calls, ∀ offset room : Nat, ∃ page,
        Request.serve (.readdir (nodeId rootInode) offset room) c.volume =
          (.ok (.listing page), c.volume)) ∧
      (∀ e ∈ returned calls, e.name = "b" → e.id = nodeId 1) ∧
      (returned calls).countP (·.name = "b") + (pauses calls).countP (Skips rootInode "b") =
        1 + (pauses calls).countP (Repeats rootInode "b") ∧
      ((∀ p ∈ pauses calls, Spares rootInode p) →
        (returned calls).countP (·.name = "b") = 1) :=
  have ⟨r, _, s, hl⟩ := scan_unlink
  ⟨⟨r, s, hl⟩, r.scan_amid s hl⟩

theorem scan_skips_unlink :
    let v := ((Operation.mknod rootInode "a" 0o100644).perform fresh).2
    let w := ((Operation.link 1 rootInode "b").perform v).2
    let x := ((Operation.unlink rootInode "a").perform w).2
    let page := [⟨1, 1, .directory, "."⟩, ⟨1, 2, .directory, ".."⟩, ⟨2, 3, .regular, "a"⟩]
    let calls := [⟨w, 0, page⟩, ⟨x, 3, []⟩]
    Reachable w ∧ ((Operation.unlink rootInode "a").perform w).1 = .ok .done ∧
      Scan (nodeId rootInode) 0 w calls ∧ (∀ c ∈ calls, c.volume.Lists rootInode "b" 1) ∧
      (returned calls).countP (·.name = "b") = 0 := by
  intro v w x page calls
  have ⟨r, hdone, s, hl⟩ := scan_unlink
  exact ⟨r, hdone, s, hl, rfl⟩

end Tree
end InodeVolume
