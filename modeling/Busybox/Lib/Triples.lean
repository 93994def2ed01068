import Mathlib.Tactic.Common

/-!
# Computations that are left with their state

A computation returns a value or throws, and either way the state stays as it was then.
-/

namespace Busybox.Triples

universe u

variable {ε σ α β : Type u} {pre pre' : σ → Prop} {x : EStateM ε σ α} {f : α → EStateM ε σ β}
  {post post' : α → σ → Prop} {final : β → σ → Prop} {thrown : ε → σ → Prop}

/-- From a state with the precondition, the computation returns with its postcondition, or it
throws with the one for this. -/
def Triple (pre : σ → Prop) (x : EStateM ε σ α) (post : α → σ → Prop) (thrown : ε → σ → Prop) :
    Prop :=
  ∀ s, pre s →
    match x s with
    | .ok a s' => post a s'
    | .error e s' => thrown e s'

theorem Triple.pure {a : α} (holds : ∀ s, pre s → post a s) :
    Triple pre (Pure.pure a : EStateM ε σ α) post thrown :=
  holds

theorem Triple.throw {e : ε} (holds : ∀ s, pre s → thrown e s) :
    Triple pre (MonadExcept.throw e : EStateM ε σ α) post thrown :=
  holds

theorem Triple.bind (first : Triple pre x post thrown)
    (second : ∀ a, Triple (post a) (f a) final thrown) : Triple pre (x >>= f) final thrown := by
  intro s holds
  have := first s holds
  change match EStateM.bind x f s with | .ok a s' => final a s' | .error e s' => thrown e s'
  unfold EStateM.bind
  split at this
  next ended => rw [ended]; exact second _ _ this
  next ended => rw [ended]; exact this

theorem Triple.imp (triple : Triple pre x post thrown) (weaker : ∀ s, pre' s → pre s)
    (value : ∀ a s, post a s → post' a s) : Triple pre' x post' thrown := by
  intro s holds
  have := triple s (weaker s holds)
  split at this
  next => exact value _ _ this
  next => exact this

theorem Triple.get_bind {f : σ → EStateM ε σ β} {final : β → σ → Prop}
    (rest : ∀ s, pre s → Triple (· = s) (f s) final thrown) :
    Triple pre (MonadState.get >>= f) final thrown :=
  fun s holds => rest s holds s rfl

theorem Triple.set {s : σ} (later : σ → Prop) (holds : later s) :
    Triple pre (MonadStateOf.set s : EStateM ε σ PUnit) (fun _ => later) thrown :=
  fun _ _ => holds

/-! ## A part that stays -/

section Frames

variable {τ : Type*} {view : σ → τ} {part : τ} {value : α → Prop} {result : β → Prop}

/-- However the computation is left, a part of the state is as it was, and what is returned
has a property. -/
def Frames (view : σ → τ) (part : τ) (x : EStateM ε σ α) (value : α → Prop) : Prop :=
  Triple (fun s => view s = part) x (fun a s => value a ∧ view s = part) (fun _ s => view s = part)

theorem Frames.pure {a : α} (holds : value a) :
    Frames view part (Pure.pure a : EStateM ε σ α) value :=
  fun _ same => ⟨holds, same⟩

theorem Frames.throw {e : ε} : Frames view part (MonadExcept.throw e : EStateM ε σ α) value :=
  fun _ same => same

theorem Frames.bind (first : Frames view part x value)
    (second : ∀ a, value a → Frames view part (f a) result) :
    Frames view part (x >>= f) result := by
  apply Triple.bind first
  rintro a s ⟨holds, same⟩
  exact second a holds s same

theorem Frames.get_bind {f : σ → EStateM ε σ β}
    (rest : ∀ s, view s = part → Frames view part (f s) result) :
    Frames view part (MonadState.get >>= f) result :=
  fun s same => rest s same s same

theorem Frames.set {s : σ} (same : view s = part) :
    Frames view part (MonadStateOf.set s : EStateM ε σ PUnit) fun _ => True :=
  fun _ _ => ⟨trivial, same⟩

theorem Frames.set_bind {s : σ} {f : PUnit → EStateM ε σ β} (same : view s = part)
    (rest : Frames view part (f ⟨⟩) result) : Frames view part (MonadStateOf.set s >>= f) result :=
  Frames.bind (Frames.set same) fun _ _ => rest

theorem Frames.modified {f : σ → σ} (same : ∀ s, view (f s) = view s) :
    Frames view part (modify f : EStateM ε σ PUnit) fun _ => True :=
  fun s holds => ⟨trivial, (same s).trans holds⟩

theorem Frames.modified_bind {g : σ → σ} {f : PUnit → EStateM ε σ β}
    (same : ∀ s, view (g s) = view s) (rest : Frames view part (f ⟨⟩) result) :
    Frames view part (modify g >>= f) result :=
  Frames.bind (Frames.modified same) fun _ _ => rest

/-- What holds of the part before holds of it afterwards. -/
theorem Frames.triple {holds : τ → Prop} (frames : ∀ part, Frames view part x value)
    (leaves : ∀ e s, holds (view s) → thrown e s) :
    Triple (fun s => holds (view s)) x (fun a s => value a ∧ holds (view s)) thrown := by
  intro s before
  have := frames (view s) s rfl
  split at this
  next => exact ⟨this.1, this.2 ▸ before⟩
  next => exact leaves _ _ (this ▸ before)

end Frames

end Busybox.Triples
