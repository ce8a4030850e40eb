import Xv6.Fallible

/-! Programs that work on a part of their state and keep a record beside it. -/

namespace Fallible

variable {σ τ ε α β : Type} {φ : σ → τ} {m : StateT σ (Except ε) α} {m' : StateT τ (Except ε) α}
  {f : α → StateT σ (Except ε) β} {f' : α → StateT τ (Except ε) β}

/-- The program does to the part `φ` of the state what `m'` does to it alone. -/
def Projects (φ : σ → τ) (m : StateT σ (Except ε) α) (m' : StateT τ (Except ε) α) : Prop :=
  ∀ s, (m s).map (Prod.map id φ) = m' (φ s)

theorem Projects.pure (a : α) :
    Projects φ (Pure.pure a : StateT σ (Except ε) α) (Pure.pure a) := fun _ => rfl

theorem Projects.throw (e : ε) :
    Projects φ (throw e : StateT σ (Except ε) α) (throw e : StateT τ (Except ε) α) := fun _ => rfl

theorem Projects.bind (hm : Projects φ m m') (hf : ∀ a, Projects φ (f a) (f' a)) :
    Projects φ (m >>= f) (m' >>= f') := by
  intro s
  have hs := hm s
  cases hrun : m s with
  | error e =>
    rw [hrun] at hs
    rw [bind_error hrun, bind_error hs.symm]
    rfl
  | ok r =>
    rw [hrun] at hs
    rw [bind_ok hrun, bind_ok hs.symm]
    exact hf r.1 r.2

theorem Projects.ite {c : Prop} [Decidable c] {k : StateT σ (Except ε) α}
    {k' : StateT τ (Except ε) α} (hm : Projects φ m m') (hk : Projects φ k k') :
    Projects φ (if c then m else k) (if c then m' else k') := by
  split_ifs
  · exact hm
  · exact hk

end Fallible
