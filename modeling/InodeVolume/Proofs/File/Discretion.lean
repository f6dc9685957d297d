import InodeVolume.Proofs.File.Concurrence
import InodeVolume.Proofs.File.Content
import InodeVolume.Proofs.File.Turnover

namespace InodeVolume

open VolumeM

namespace Volume

structure Alike (first : Option Nat) (v w : Volume) : Prop where
  same   : v.Matches v.Live w
  tended : v.Tended first

-- Growth keeps the first block of the root in its place only as long as the root has one. Where an
-- action may have emptied the root, no growth may follow.
def Firm (firm : Bool) (v : Volume) : Prop :=
  firm → v.Rooted

theorem Firm.of_links {v w : Volume} {firm : Bool} (h : v.Firm firm) (hw : w.link? = v.link?) :
    w.Firm firm := by
  intro hf
  have ⟨c, hc, hs⟩ := h hf
  exact ⟨c, hw ▸ hc, hs⟩

theorem firm_false (v : Volume) : v.Firm false :=
  nofun

end Volume

open Volume

namespace VolumeM

variable {α β : Type} {first : Option Nat} {act : VolumeM α}
variable {pre pre' : Volume → Prop} {post post' : α → Volume → Prop}

def Discreet (first : Option Nat) (pre : Volume → Prop) (act : VolumeM α)
    (post : α → Volume → Prop) : Prop :=
  ∀ v w, v.Alike first w → pre v →
    act.Agrees v w (fun a x y => x.Alike first y ∧ post a x) fun _ x y => x.Alike first y

namespace Discreet

theorem mono (h : Discreet first pre act post) (hp : ∀ v, pre' v → pre v)
    (hq : ∀ a v, post a v → post' a v) : Discreet first pre' act post' :=
  fun v w a hv => (h v w a (hp v hv)).mono (fun a x _ h => ⟨h.left, hq a x h.right⟩) fun _ _ _ => id

theorem weaken (h : Discreet first pre act post) : Discreet first pre act fun _ => Firm false :=
  h.mono (fun _ => id) fun _ v _ => v.firm_false

theorem pure {a : α} (h : ∀ v, pre v → post a v) : Discreet first pre (pure a) post :=
  fun v _ ha hv => .ok rfl rfl ⟨ha, h v hv⟩

theorem bind {mid : α → Volume → Prop} {f : α → VolumeM β} {post : β → Volume → Prop}
    (h : Discreet first pre act mid) (hf : ∀ a, Discreet first (mid a) (f a) post) :
    Discreet first pre (act >>= f) post :=
  fun v w a hv => .bind ((h v w a hv).mono (fun a x y h => hf a x y h.left h.right) fun _ _ _ => id)

theorem map {f : α → β} {post : β → Volume → Prop}
    (h : Discreet first pre act fun a => post (f a)) : Discreet first pre (f <$> act) post :=
  fun v w a hv => .map (h v w a hv)

theorem discard {post : Volume → Prop} (h : Discreet first pre act fun _ => post) :
    Discreet first pre (discard act) fun _ => post :=
  map h

theorem attempt_bind {mid : α → Volume → Prop} {f : Except Errno α → VolumeM β}
    {post : β → Volume → Prop} (h : Discreet first pre act mid)
    (hok : ∀ a, Discreet first (mid a) (f (.ok a)) post)
    (herror : ∀ e, Discreet first (Firm false) (f (.error e)) post) :
    Discreet first pre (VolumeM.attempt act >>= f) post := by
  intro v w a hv
  refine .bind (.attempt ((h v w a hv).mono (fun a x y h => hok a x y h.left h.right) ?_))
  intro e x y h
  cases e
  case errno e => exact herror e x y h x.firm_false
  case crash   => exact h

theorem attempt (h : Discreet first pre act fun _ => Firm false) :
    Discreet first pre (VolumeM.attempt act) fun _ => Firm false := by
  rw [← bind_pure (VolumeM.attempt act)]
  exact h.attempt_bind (fun _ => .pure fun _ => id) fun _ => .pure fun _ => id

theorem refuse (e : Errno) : Discreet first pre (refuse e) post :=
  fun _ _ ha _ => .error rfl rfl ha

theorem refuse_bind (e : Errno) {f : α → VolumeM β} {post : β → Volume → Prop} :
    Discreet first pre (VolumeM.refuse e >>= f) post :=
  fun _ _ ha _ => .error rfl rfl ha

theorem crash_bind {f : α → VolumeM β} {post : β → Volume → Prop} :
    Discreet first pre (VolumeM.crash >>= f) post :=
  fun _ _ ha _ => .error rfl rfl ha

theorem query {look : Volume → Except Fault α} (h : ∀ v w, v.Alike first w → look v = look w) :
    Discreet first pre (query look) fun a v => pre v ∧ look v = .ok a :=
  fun v w ha hv => .query (h v w ha) (fun _ hl => ⟨ha, hv, hl⟩) fun _ _ => ha

theorem query_bind {look : Volume → Except Fault α} {f : α → VolumeM β}
    {post : β → Volume → Prop} (h : ∀ v w, v.Alike first w → look v = look w)
    (hf : ∀ a, Discreet first pre (f a) post) : Discreet first pre (VolumeM.query look >>= f) post :=
  .bind (.query h) fun a => (hf a).mono (fun _ => And.left) fun _ _ => id

theorem attempt_query {look : Volume → Except Fault α}
    (h : ∀ v w, v.Alike first w → look v = look w) :
    Discreet first pre (VolumeM.attempt (VolumeM.query look)) fun _ => pre := by
  refine fun v w ha hv => .attempt (.query (h v w ha) (fun _ _ => ⟨ha, hv⟩) fun e _ => ?_)
  cases e
  case errno => exact ⟨ha, hv⟩
  case crash => exact ha

-- Where an action goes by maps and records, it only matters what it brings into use.
theorem of_concurs (hc : act.Concurs)
    (he : ∀ v, v.Tended first → pre v → act.Ensures v
      (fun a w => v.Sheds first w ∧ post a w) fun _ w => v.Sheds first w) :
    Discreet first pre act post :=
  fun v w a hv => ((hc v.Live v w a.same).and_ensures (he v a.tended hv)).mono
    (fun _ _ _ ⟨m, s, hp⟩ => ⟨⟨m.mono s.live, s.tended⟩, hp⟩)
    fun _ _ _ ⟨m, s⟩ => ⟨m.mono s.live, s.tended⟩

end Discreet
end VolumeM

namespace Inode

variable {first : Option Nat} {firm : Bool}

theorem alloc_discreet : Discreet first (Firm firm) alloc fun _ => Firm firm := by
  refine .of_concurs alloc_concurs fun v t hf => (alloc_ensures v).mono ?ok ?error
  case error =>
    rintro _ _ ⟨-, rfl, -⟩
    exact .refl t
  case ok =>
    rintro i w ⟨-, hi, -, r⟩
    refine ⟨⟨tended_update t (.default first i) r.links, fun a ha => ?_⟩, fun hfirm => ?_⟩
    case refine_1 => exact (live_update r.links ha).resolve_right (by simp)
    case refine_2 =>
      have ⟨c, hc, hs⟩ := hf hfirm
      refine ⟨c, ?_, hs⟩
      have : rootInode ≠ i := by
        rintro rfl
        simp [hc] at hi
      rw [r.links, Function.update_of_ne this, hc]

theorem revise_discreet (i refs : Nat) (mode : UInt32) (c : Inode) :
    Discreet first (fun v => v.Firm firm ∧ v.inode i = .ok c) (put i { c with refs, mode })
      fun _ => Firm firm := by
  refine .of_concurs (put_concurs _ _) fun v t ⟨hf, hi⟩ => ?_
  have hc := inode_eq_ok_iff.mp hi
  apply (put_record_ensures (by rw [hc]; rfl) _).mono_never
  intro _ w r
  rw [Record.inode_ofInode_revise (storable_of_link? hc)] at r
  have s := (t i c hc).revise (Int32.ofNat refs).toInt.toNat mode
  refine ⟨.update t hc s (Nat.le_refl _) (fun _ _ => rfl) r.links, fun hfirm => ?_⟩
  refine (hf hfirm).update (fun hr => ?_) r.links
  exact show c.size ≠ 0 from (hf hfirm).ne_zero (hr ▸ hc)

theorem free_discreet {pre : Volume → Prop} (i : Nat) :
    Discreet first pre (free i) fun _ => Firm false := by
  refine .of_concurs (free_concurs i) fun v t _ => ?_
  rw [free, ensures_bind]
  cases hc : v.link? i
  case none =>
    rw [ensures_query_error (inode_of_not_link? hc)]
    exact .refl t
  case some c =>
    rw [ensures_query_ok (inode_of_link? hc)]
    split
    case isFalse => exact .refl t
    case isTrue  =>
      exact ⟨.remove t (relinked_setInodeBit v (lt_of_link? hc) false).links, firm_false _⟩

end Inode

namespace Volume.Alike

variable {first : Option Nat} {v w : Volume} {h o n total : Nat}

theorem refl (t : v.Tended first) : v.Alike first v :=
  ⟨.refl _ v, t⟩

theorem readWithin (a : v.Alike first w) (ht : v.fileSize h = .ok total) (o n : Nat) :
    v.readWithin h total o n = w.readWithin h total o n := by
  have ⟨l, hw, hl⟩ := exists_walk_of_fileSize ht
  have hlen : clip total o n = 0 ∨ o + clip total o n ≤ l.size := by
    unfold clip
    omega
  have ⟨ps, hps, hv, ha⟩ := hw.pieces_eq (hw.formed a.tended).laden (hw.block_range a.tended) o _ hlen
  rw [Volume.readWithin, Volume.readWithin, ← a.same.pieces, hps]
  simp only [bind, Except.bind, readPieces_eq hv, ha, List.map_map, Except.ok.injEq]
  refine List.map_congr_left fun p hp => a.same.bytes _ (hw.live a.tended ?_)
  have := List.mem_range'_1.mp hp
  omega

theorem readFile (a : v.Alike first w) (h o n : Nat) : v.readFile h o n = w.readFile h o n := by
  rw [Volume.readFile, Volume.readFile, ← a.same.fileSize]
  cases ht : v.fileSize h
  case error   => rfl
  case ok size => exact a.readWithin ht o n

end Volume.Alike

namespace File

variable {first : Option Nat} {firm : Bool} {known : Nat → Prop} {v w : Volume} {h o n : Nat}
variable {l : Chain} {data : List UInt8}

theorem writePieces_agrees {ps : List Piece} (m : v.Matches known w) (hv : ∀ p ∈ ps, p.Valid)
    (hd : (ps.flatMap Piece.addresses).length ≤ data.length) :
    (writePieces ps data).Agrees v w
      (fun _ x y => x.Matches (fun a => known a ∨ a ∈ ps.flatMap Piece.addresses) y)
      fun _ _ _ => False := by
  induction ps generalizing known v w data
  case nil => exact .ok rfl rfl (m.mono fun _ ha => ha.resolve_right (by simp))
  case cons p ps hi =>
    have ⟨hp, hv⟩ := List.forall_mem_cons.mp hv
    rw [List.flatMap_cons, List.length_append, Piece.length_addresses] at hd
    have hlen : (data.take p.len).length = p.len := by
      rw [List.length_take]
      omega
    refine .bind ((Block.write_agrees m hp.lower hp.upper (hlen.symm ▸ hp.inner)).mono
      (fun _ x y m => ?_) fun _ _ _ => id)
    refine (hi m hv (by rw [List.length_drop]; omega)).mono (fun _ _ _ m => m.mono ?_) fun _ _ _ => id
    intro a ha
    rw [List.flatMap_cons, List.mem_append, Piece.addresses, List.mem_range'_1, ← or_assoc] at ha
    rwa [hlen]

-- Bytes that are written over are the same from then on, whatever they were. If what else is in use
-- has been the same before, then everything is.
theorem exists_covering (m : v.Matches known w) (t : v.Tended first) (hw : v.Walks h l)
    (hl : n = 0 ∨ o + n ≤ l.size)
    (hlive : ∀ a, v.Live a → known a ∨ ∃ p, o ≤ p ∧ p < o + n ∧ l.address p = a) :
    ∃ ps, v.pieces h o n = .ok ps ∧ (ps.flatMap Piece.addresses).length = n ∧
      ∀ data, n ≤ data.length → (writePieces ps data).Agrees v w
        (fun _ x y => x.Alike first y ∧ x.link? = v.link?) fun _ _ _ => False := by
  have ⟨ps, hps, hv, ha⟩ := hw.pieces_eq (hw.formed t).laden (hw.block_range t) o n hl
  have hlen : (ps.flatMap Piece.addresses).length = n := by simp [ha]
  refine ⟨ps, hps, hlen, fun data hd => ?_⟩
  rw [← hlen] at hd
  apply ((writePieces_agrees m hv hd).and_ensures (writePieces_ensures hv hd)).mono
  case he => exact fun _ _ _ => And.left
  case ho =>
    intro _ x y ⟨m, r⟩
    have s := Sheds.same t r.links
    refine ⟨⟨m.mono fun a hx => (hlive a (s.live a hx)).imp_right fun ⟨p, hle, hlt, he⟩ => ?_,
      s.tended⟩, r.links⟩
    rw [ha, List.mem_map]
    exact ⟨p, List.mem_range'_1.mpr ⟨hle, hlt⟩, he⟩

theorem write_agrees (m : v.Matches known w) (t : v.Tended first) (hw : v.Walks h l)
    (hlive : ∀ a, v.Live a → known a ∨
      ∃ p, o ≤ p ∧ p < o + clip l.size o data.length ∧ l.address p = a) :
    (write h o data).Agrees v w (fun _ x y => x.Alike first y ∧ x.link? = v.link?)
      fun _ _ _ => False := by
  have hlen : clip l.size o data.length = 0 ∨ o + clip l.size o data.length ≤ l.size := by
    unfold clip
    omega
  have ⟨ps, hps, _, hwrite⟩ := exists_covering m t hw hlen hlive
  rw [write]
  refine .bind (.query (congrFun m.fileSize h) (fun total ht => ?_)
    fun e he => by simp [hw.fileSize_eq] at he)
  obtain rfl := Except.ok.inj (hw.fileSize_eq.symm.trans ht)
  refine .bind (.query (m.pieces ..) (fun ps' hps' => ?_) fun e he => by simp [hps] at he)
  obtain rfl := Except.ok.inj (hps.symm.trans hps')
  exact .bind ((hwrite data (Nat.min_le_left ..)).mono (fun _ _ _ h => .ok rfl rfl h) fun _ _ _ => id)

theorem zero_agrees (m : v.Matches known w) (t : v.Tended first) (hw : v.Walks h l)
    (hl : n = 0 ∨ o + n ≤ l.size)
    (hlive : ∀ a, v.Live a → known a ∨ ∃ p, o ≤ p ∧ p < o + n ∧ l.address p = a) :
    (zero h o n).Agrees v w (fun _ x y => x.Alike first y ∧ x.link? = v.link?)
      fun _ _ _ => False := by
  have ⟨ps, hps, hlen, hwrite⟩ := exists_covering m t hw hl hlive
  rw [zero]
  refine .bind (.query (m.pieces ..) (fun ps' hps' => ?_) fun e he => by simp [hps] at he)
  obtain rfl := Except.ok.inj (hps.symm.trans hps')
  rw [zeroPieces_eq ps (Nat.le_of_eq hlen)]
  exact hwrite _ (by simp)

theorem write_discreet (h o : Nat) (data : List UInt8) :
    Discreet first (Firm firm) (write h o data) fun _ => Firm firm := by
  intro v w a hf
  cases hc : v.chain h
  case ok l =>
    exact (write_agrees a.same a.tended (chain_eq_ok_iff.mp hc) fun _ => .inl).mono
      (fun _ _ _ ⟨a, hx⟩ => ⟨a, hf.of_links hx⟩) fun _ _ _ => False.elim
  case error e =>
    have he := fileSize_error hc
    exact .bind (.query (congrFun a.same.fileSize h) (fun _ ho => by simp [he] at ho) fun _ _ => a)

theorem shrink_discreet {pre : Volume → Prop} (h n : Nat) :
    Discreet first pre (shrink h n) fun _ => Firm false :=
  .of_concurs (shrink_concurs h n) fun _ t _ =>
    (shrink_sheds t h n).mono_ok fun _ w s => ⟨s, w.firm_false⟩

theorem delete_discreet {pre : Volume → Prop} (h : Nat) :
    Discreet first pre (delete h) fun _ => Firm false :=
  .query_bind (fun _ _ a => congrFun a.same.fileSize h) fun n =>
    .bind (.discard (shrink_discreet h n)) fun _ => Inode.free_discreet h

theorem growZeroed_discreet (h n : Nat) :
    Discreet first (Firm true) (growZeroed h n) fun _ => Firm true := by
  intro v w a hf
  have hr := hf rfl
  rw [growZeroed]
  cases hc : v.chain h
  case error e =>
    have he := fileSize_error hc
    refine .bind (.attempt (.query (congrFun a.same.fileSize h) (fun _ ho => by simp [he] at ho) ?_))
    intro e _
    cases e
    case errno => exact .ok rfl rfl ⟨a, hf⟩
    case crash => exact a
  case ok l =>
    have hw := chain_eq_ok_iff.mp hc
    refine .bind (.attempt (.query (congrFun a.same.fileSize h) (fun old ho => ?_)
      fun e he => by simp [hw.fileSize_eq] at he))
    obtain rfl := Except.ok.inj (hw.fileSize_eq.symm.trans ho)
    refine .bind (((grow_concurs h n v.Live v w a.same).and_ensures
      (grow_lengthens a.tended hr hw n)).mono (fun g x y ⟨m, c, hs, e⟩ => ?ok) ?error)
    case error =>
      rintro _ x y ⟨m, rfl⟩
      exact ⟨m, a.tended⟩
    case ok =>
      have hzero := zero_agrees (o := Chain.size l) (n := g.grown) m e.tended e.walks (by omega)
        fun b hb => (e.live b hb).imp_right fun ⟨p, hle, hlt, he⟩ => ⟨p, hle, hs ▸ hlt, he⟩
      refine .bind (.attempt (hzero.mono (fun _ x' y' ⟨a, hx⟩ => ?_) fun _ _ _ => False.elim))
      exact .ok rfl rfl ⟨a, Firm.of_links (fun _ => e.rooted) hx⟩

end File
end InodeVolume
