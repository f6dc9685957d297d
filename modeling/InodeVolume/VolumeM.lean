import InodeVolume.Errno
import InodeVolume.Volume.Basic

namespace InodeVolume

def VolumeM (α : Type) : Type :=
  Volume → Except Fault α × Volume

namespace VolumeM

variable {α β : Type}

instance : Monad VolumeM where
  pure a := fun v => (.ok a, v)
  bind act f := fun v =>
    match act v with
    | (.ok a, w)    => f a w
    | (.error e, w) => (.error e, w)

instance : MonadExceptOf Fault VolumeM where
  throw e := fun v => (.error e, v)
  tryCatch act handle := fun v =>
    match act v with
    | (.ok a, w)    => (.ok a, w)
    | (.error e, w) => handle e w

def query (look : Volume → Except Fault α) : VolumeM α := fun v =>
  match look v with
  | .ok a    => (.ok a, v)
  | .error e => (.error e, v)

def change (f : Volume → Volume) : VolumeM Unit := fun v =>
  (.ok (), f v)

def refuse (e : Errno) : VolumeM α := fun v =>
  (.error (.errno e), v)

def crash : VolumeM α := fun v =>
  (.error .crash, v)

def attempt (act : VolumeM α) : VolumeM (Except Errno α) := fun v =>
  match act v with
  | (.ok a, w)             => (.ok (.ok a), w)
  | (.error (.errno e), w) => (.ok (.error e), w)
  | (.error .crash, w)     => (.error .crash, w)

theorem pure_apply (a : α) (v : Volume) : (pure a : VolumeM α) v = (.ok a, v) :=
  rfl

theorem bind_apply (act : VolumeM α) (f : α → VolumeM β) (v : Volume) :
    (act >>= f) v =
      match act v with
      | (.ok a, w)    => f a w
      | (.error e, w) => (.error e, w) :=
  rfl

theorem id_map_eq (act : VolumeM α) : id <$> act = act := by
  funext v
  change (act >>= fun a => pure a) v = act v
  rw [bind_apply]
  rcases act v with ⟨_ | _, _⟩ <;> rfl

theorem bind_assoc_eq {γ : Type} (act : VolumeM α) (f : α → VolumeM β) (g : β → VolumeM γ) :
    act >>= f >>= g = act >>= fun a => f a >>= g := by
  funext v
  simp only [bind_apply]
  rcases act v with ⟨_ | _, _⟩ <;> rfl

instance : LawfulMonad VolumeM :=
  LawfulMonad.mk' VolumeM id_map_eq (fun _ _ => rfl) bind_assoc_eq

end VolumeM
end InodeVolume
