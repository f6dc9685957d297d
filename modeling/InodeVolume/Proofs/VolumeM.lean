import InodeVolume.VolumeM
import Mathlib.Tactic.Common

namespace InodeVolume

namespace Except

variable {ε α β : Type} {x : Except ε α} {f : α → Except ε β}

theorem bind_eq_ok_iff {b : β} : x >>= f = .ok b ↔ ∃ a, x = .ok a ∧ f a = .ok b := by
  cases x <;> simp [bind, Except.bind]

theorem bind_eq_error_iff {e : ε} :
    x >>= f = .error e ↔ x = .error e ∨ ∃ a, x = .ok a ∧ f a = .error e := by
  cases x <;> simp [bind, Except.bind]

end Except

namespace Fault

-- A refusal by which something is wrong with what was asked for, or with the room there is for it.
-- The others tell of a volume that is out of order, or else of a directory that is not empty.
def Ordinary : Fault → Prop
  | .errno e => e ≠ .io ∧ e ≠ .notEmpty
  | .crash   => False

instance : DecidablePred Ordinary
  | .errno e => inferInstanceAs (Decidable (e ≠ .io ∧ e ≠ .notEmpty))
  | .crash   => inferInstanceAs (Decidable False)

theorem Ordinary.exists_errno {e : Fault} (h : e.Ordinary) : ∃ n, e = .errno n := by
  cases e
  case errno n => exact ⟨n, rfl⟩
  case crash   => exact h.elim

def Amiss (e : Fault) : Prop :=
  e.Ordinary ∧ e ≠ .errno .noSpace

instance : DecidablePred Amiss :=
  fun _ => inferInstanceAs (Decidable (_ ∧ _))

theorem Amiss.ordinary {e : Fault} (h : e.Amiss) : e.Ordinary :=
  h.left

end Fault

namespace VolumeM

variable {α β : Type} {act : VolumeM α} {v : Volume} {ok : α → Volume → Prop}
variable {error : Fault → Volume → Prop}

theorem bind_of_ok {w : Volume} {a : α} (h : act v = (.ok a, w)) (f : α → VolumeM β) :
    (act >>= f) v = f a w := by
  rw [bind_apply, h]

theorem bind_of_error {w : Volume} {e : Fault} (h : act v = (.error e, w)) (f : α → VolumeM β) :
    (act >>= f) v = (.error e, w) := by
  rw [bind_apply, h]

theorem query_of_ok {look : Volume → Except Fault α} {a : α} (h : look v = .ok a) :
    query look v = (.ok a, v) := by
  rw [query, h]

theorem query_of_error {look : Volume → Except Fault α} {e : Fault} (h : look v = .error e) :
    query look v = (.error e, v) := by
  rw [query, h]

theorem attempt_of_ok {w : Volume} {a : α} (h : act v = (.ok a, w)) :
    attempt act v = (.ok (.ok a), w) := by
  rw [attempt, h]

theorem attempt_of_errno {w : Volume} {e : Errno} (h : act v = (.error (.errno e), w)) :
    attempt act v = (.ok (.error e), w) := by
  rw [attempt, h]

def Ensures (act : VolumeM α) (v : Volume) (ok : α → Volume → Prop)
    (error : Fault → Volume → Prop) : Prop :=
  match act v with
  | (.ok a, w)    => ok a w
  | (.error e, w) => error e w

def Never : Fault → Volume → Prop :=
  fun _ _ => False

namespace Ensures

theorem mono {ok' : α → Volume → Prop} {error' : Fault → Volume → Prop}
    (h : act.Ensures v ok error) (ho : ∀ a w, ok a w → ok' a w)
    (he : ∀ e w, error e w → error' e w) : act.Ensures v ok' error' := by
  simp only [Ensures] at *
  split at h
  case h_1 => exact ho _ _ h
  case h_2 => exact he _ _ h

theorem of_forall (ho : ∀ a w, ok a w) (he : ∀ e w, error e w) : act.Ensures v ok error := by
  simp only [Ensures]
  split
  case h_1 => exact ho _ _
  case h_2 => exact he _ _

theorem barring {ok' : α → Volume → Prop} {error' : Fault → Volume → Prop}
    (h : act.Ensures v ok error) (he : ∀ e w, error e w → error' e w)
    (ho : ∀ a w, ok a w → ok' a w) : act.Ensures v ok' error' :=
  h.mono ho he

theorem and {ok' : α → Volume → Prop} {error' : Fault → Volume → Prop}
    (h : act.Ensures v ok error) (h' : act.Ensures v ok' error') :
    act.Ensures v (fun a w => ok a w ∧ ok' a w) (fun e w => error e w ∧ error' e w) := by
  simp only [Ensures] at *
  split at h
  case h_1 heq => exact ⟨h, by rwa [heq] at h'⟩
  case h_2 heq => exact ⟨h, by rwa [heq] at h'⟩

theorem and_never {ok' : α → Volume → Prop} {error' : Fault → Volume → Prop}
    (h : act.Ensures v ok Never) (h' : act.Ensures v ok' error') :
    act.Ensures v (fun a w => ok a w ∧ ok' a w) Never :=
  (h.and h').mono (fun _ _ => id) fun _ _ => And.left

theorem mono_ok {ok' : α → Volume → Prop} (h : act.Ensures v ok error)
    (ho : ∀ a w, ok a w → ok' a w) : act.Ensures v ok' error :=
  h.mono ho fun _ _ => id

theorem mono_never {ok' : α → Volume → Prop} (h : act.Ensures v ok Never)
    (ho : ∀ a w, ok a w → ok' a w) : act.Ensures v ok' error :=
  h.mono ho fun _ _ => False.elim

theorem volume {p : Volume → Prop} (h : act.Ensures v ok error) (ho : ∀ a w, ok a w → p w)
    (he : ∀ e w, error e w → p w) : p (act v).2 := by
  simp only [Ensures] at h
  split at h
  case h_1 heq => exact heq ▸ ho _ _ h
  case h_2 heq => exact heq ▸ he _ _ h

theorem of_ok {a : α} {w : Volume} (h : act.Ensures v ok error) (hr : act v = (.ok a, w)) :
    ok a w := by
  simpa only [Ensures, hr] using h

theorem of_error {e : Fault} {w : Volume} (h : act.Ensures v ok error)
    (hr : act v = (.error e, w)) : error e w := by
  simpa only [Ensures, hr] using h

theorem eq_error {e : Fault} {w : Volume}
    (h : act.Ensures v (fun _ _ => False) fun e' w' => e' = e ∧ w' = w) : act v = (.error e, w) := by
  rcases hr : act v with ⟨_ | _, _⟩
  case error =>
    have ⟨he, hw⟩ := h.of_error hr
    rw [he, hw]
  case ok => exact (h.of_ok hr).elim

theorem exists_ok (h : act.Ensures v ok Never) : ∃ a w, act v = (.ok a, w) ∧ ok a w := by
  rcases hr : act v with ⟨_ | a, w⟩
  case error => exact (h.of_error hr).elim
  case ok    => exact ⟨a, w, rfl, h.of_ok hr⟩

theorem with_result (h : act.Ensures v ok error) :
    act.Ensures v (fun a w => act v = (.ok a, w) ∧ ok a w)
      (fun e w => act v = (.error e, w) ∧ error e w) := by
  rcases hr : act v with ⟨_ | _, _⟩ <;> simpa only [Ensures, hr, true_and] using h

end Ensures

theorem ensures_pure {a : α} : (pure a : VolumeM α).Ensures v ok error ↔ ok a v :=
  .rfl

theorem ensures_bind {f : α → VolumeM β} {ok : β → Volume → Prop} :
    (act >>= f).Ensures v ok error ↔
      act.Ensures v (fun a w => (f a).Ensures w ok error) error := by
  simp only [Ensures, bind_apply]
  rcases act v with ⟨_ | _, _⟩ <;> exact .rfl

theorem ensures_map {f : α → β} {ok : β → Volume → Prop} :
    (f <$> act).Ensures v ok error ↔ act.Ensures v (fun a w => ok (f a) w) error := by
  rw [← bind_pure_comp, ensures_bind]
  exact .rfl

theorem ensures_discard {ok : Unit → Volume → Prop} :
    (discard act : VolumeM Unit).Ensures v ok error ↔ act.Ensures v (fun _ w => ok () w) error :=
  ensures_map

theorem ensures_seqRight {next : VolumeM β} {ok : β → Volume → Prop} :
    (act *> next).Ensures v ok error ↔
      act.Ensures v (fun _ w => next.Ensures w ok error) error := by
  rw [seqRight_eq_bind, ensures_bind]

theorem ensures_change {f : Volume → Volume} {ok : Unit → Volume → Prop} :
    (change f).Ensures v ok error ↔ ok () (f v) :=
  .rfl

theorem ensures_look {look : Volume → α} :
    (query fun v => .ok (look v)).Ensures v ok error ↔ ok (look v) v :=
  .rfl

theorem ensures_query_ok {look : Volume → Except Fault α} {a : α} (h : look v = .ok a) :
    (query look).Ensures v ok error ↔ ok a v := by
  simp only [Ensures, query, h]

theorem ensures_query_error {look : Volume → Except Fault α} {e : Fault}
    (h : look v = .error e) : (query look).Ensures v ok error ↔ error e v := by
  simp only [Ensures, query, h]

theorem query_ensures (look : Volume → Except Fault α) (v : Volume) :
    (query look).Ensures v (fun _ w => w = v) (fun _ w => w = v) := by
  cases h : look v
  case ok    => exact (ensures_query_ok h).mpr rfl
  case error => exact (ensures_query_error h).mpr rfl

theorem ensures_attempt {ok : Except Errno α → Volume → Prop} :
    (attempt act).Ensures v ok error ↔
      act.Ensures v (fun a w => ok (.ok a) w) fun e w =>
        match e with
        | .errno e => ok (.error e) w
        | .crash   => error .crash w := by
  simp only [Ensures, attempt]
  rcases act v with ⟨(_ | _) | _, _⟩ <;> exact .rfl

end VolumeM
end InodeVolume
