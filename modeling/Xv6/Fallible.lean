import Mathlib.Tactic

/-! Programs over a state that may fail. `Ends` is the weakest precondition at
one state, for the two ways a program can end. -/

namespace Fallible

variable {σ ε α β : Type}

/-- From `s` the program ends in `Q`, or fails with an error in `E`. -/
def Ends (m : StateT σ (Except ε) α) (s : σ) (Q : α → σ → Prop) (E : ε → Prop) : Prop :=
  match m s with
  | .ok (a, t) => Q a t
  | .error e => E e

variable {m : StateT σ (Except ε) α} {f : α → StateT σ (Except ε) β} {s t : σ} {a : α}
  {Q Q' : α → σ → Prop} {R : β → σ → Prop} {E E' : ε → Prop}

theorem Ends.of_ok (h : m s = .ok (a, t)) (hQ : Q a t) : Ends m s Q E := by
  rw [Ends, h]
  exact hQ

theorem Ends.congr {m' : StateT σ (Except ε) α} (h : m s = m' s) (h' : Ends m' s Q E) :
    Ends m s Q E := by
  rwa [Ends, h]

theorem Ends.of_error {e : ε} (h : m s = .error e) (hE : E e) : Ends m s Q E := by
  rw [Ends, h]
  exact hE

theorem Ends.ok (h : Ends m s Q E) (hm : m s = .ok (a, t)) : Q a t := by
  rw [Ends, hm] at h
  exact h

theorem Ends.error (h : Ends m s Q E) {e : ε} (hm : m s = .error e) : E e := by
  rw [Ends, hm] at h
  exact h

theorem Ends.returns (h : Ends m s Q (fun _ => False)) : ∃ a t, m s = .ok (a, t) ∧ Q a t := by
  unfold Ends at h
  cases hm : m s with
  | error e =>
    rw [hm] at h
    exact h.elim
  | ok r =>
    rw [hm] at h
    exact ⟨r.1, r.2, rfl, h⟩

theorem Ends.eq_ok (h : Ends m s (fun b u => b = a ∧ u = t) (fun _ => False)) :
    m s = .ok (a, t) := by
  obtain ⟨b, u, hm, rfl, rfl⟩ := h.returns
  exact hm

theorem Ends.mono (h : Ends m s Q E) (hQ : ∀ a t, Q a t → Q' a t) (hE : ∀ e, E e → E' e) :
    Ends m s Q' E' := by
  unfold Ends at h ⊢
  cases hm : m s with
  | error e =>
    rw [hm] at h
    exact hE e h
  | ok r =>
    rw [hm] at h
    exact hQ r.1 r.2 h

theorem Ends.returns_of_not (h : Ends m s Q E) (hE : ∀ e, ¬ E e) :
    ∃ a t, m s = .ok (a, t) ∧ Q a t :=
  (h.mono (fun _ _ => id) hE).returns

theorem Ends.post (h : Ends m s Q E) (hQ : ∀ a t, Q a t → Q' a t) : Ends m s Q' E :=
  h.mono hQ (fun _ => id)

theorem Ends.and (h : Ends m s Q E) (h' : Ends m s Q' E') :
    Ends m s (fun a t => Q a t ∧ Q' a t) E := by
  unfold Ends at *
  cases hm : m s with
  | error e =>
    rw [hm] at h
    exact h
  | ok r =>
    rw [hm] at h h'
    exact ⟨h, h'⟩

theorem Ends.any : Ends m s (fun _ _ => True) (fun _ => True) := by
  unfold Ends
  cases m s <;> trivial

theorem Ends.pure (h : Q a s) : Ends (pure a : StateT σ (Except ε) α) s Q E := h

theorem Ends.throw {e : ε} (h : E e) : Ends (throw e : StateT σ (Except ε) α) s Q E := h

theorem bind_ok (h : m s = .ok (a, t)) : (m >>= f) s = f a t := by
  simp only [Bind.bind, StateT.bind, h, Except.bind]

theorem bind_error {e : ε} (h : m s = .error e) : (m >>= f) s = .error e := by
  simp only [Bind.bind, StateT.bind, h, Except.bind]

theorem bind_eq_ok {b : β} {u : σ} (h : (m >>= f) s = .ok (b, u)) :
    ∃ a t, m s = .ok (a, t) ∧ f a t = .ok (b, u) := by
  cases hm : m s with
  | error e =>
    rw [bind_error hm] at h
    simp at h
  | ok r =>
    rw [bind_ok hm] at h
    exact ⟨r.1, r.2, rfl, h⟩

theorem ok_of_map {γ : Type} {g : α × σ → γ} {c : γ} (h : (m s).toOption.map g = some c) :
    ∃ a t, m s = .ok (a, t) ∧ g (a, t) = c := by
  cases hm : m s with
  | error e =>
    rw [hm] at h
    simp [Except.toOption] at h
  | ok r =>
    rw [hm] at h
    exact ⟨r.1, r.2, rfl, by simpa [Except.toOption] using h⟩

theorem Ends.bind (h : Ends m s Q E) (hf : ∀ a t, Q a t → Ends (f a) t R E) :
    Ends (m >>= f) s R E := by
  unfold Ends at h ⊢
  cases hm : m s with
  | error e =>
    rw [hm] at h
    rw [bind_error hm]
    exact h
  | ok r =>
    rw [hm] at h
    rw [bind_ok hm]
    exact hf r.1 r.2 h

theorem Ends.bind_ok (h : m s = .ok (a, t)) (hf : Ends (f a) t R E) : Ends (m >>= f) s R E := by
  rw [Ends, Fallible.bind_ok h]
  exact hf

theorem Ends.get_bind {g : σ → StateT σ (Except ε) β} (h : Ends (g s) s R E) :
    Ends (get >>= g) s R E := h

theorem Ends.set_bind {g : PUnit → StateT σ (Except ε) β} (h : Ends (g ⟨⟩) t R E) :
    Ends (set t >>= g) s R E := h

theorem Ends.modify_bind {u : σ → σ} {g : PUnit → StateT σ (Except ε) β}
    (h : Ends (g ⟨⟩) (u s) R E) : Ends (modify u >>= g) s R E := h

theorem Ends.modify {u : σ → σ} {Q : PUnit → σ → Prop} (h : Q ⟨⟩ (u s)) :
    Ends (modify u : StateT σ (Except ε) PUnit) s Q E := h

def loop (body : Nat → StateT σ (Except ε) Unit) : Nat → StateT σ (Except ε) Unit
  | 0 => Pure.pure ()
  | n + 1 => do
    loop body n
    body n

theorem Ends.loop {body : Nat → StateT σ (Except ε) Unit} {I : Nat → σ → Prop} {n : Nat}
    (hI : I 0 s) (hstep : ∀ k < n, ∀ t, I k t → Ends (body k) t (fun _ => I (k + 1)) E) :
    Ends (loop body n) s (fun _ => I n) E := by
  induction n with
  | zero => exact hI
  | succ n ih =>
    have hn := ih (fun k hk => hstep k (by omega))
    exact hn.bind (fun _ t ht => hstep n (by omega) t ht)

section Keeping

variable {γ : Type} {φ : σ → γ} {F : γ → ε → Prop}

/-- The program leaves a part of the state as it is, or fails as this part allows. -/
def Keeps (φ : σ → γ) (F : γ → ε → Prop) (m : StateT σ (Except ε) α) : Prop :=
  ∀ s, Ends m s (fun _ t => φ t = φ s) (F (φ s))

theorem Keeps.pure (a : α) : Keeps φ F (Pure.pure a : StateT σ (Except ε) α) := fun _ => rfl

theorem Keeps.throw {e : ε} (h : ∀ c, F c e) : Keeps φ F (throw e : StateT σ (Except ε) α) :=
  fun s => Ends.throw (h (φ s))

theorem Keeps.bind (hm : Keeps φ F m) (hf : ∀ a, Keeps φ F (f a)) : Keeps φ F (m >>= f) := by
  refine fun s => (hm s).bind (fun a t ht => (hf a t).mono (fun _ _ hu => hu.trans ht) ?_)
  rw [ht]
  exact fun _ => id

theorem Keeps.seq {m' : StateT σ (Except ε) β} (hm : Keeps φ F m) (hm' : Keeps φ F m') :
    Keeps φ F (m >>= fun _ => m') := hm.bind (fun _ => hm')

theorem Keeps.ret {g : α → β} (hm : Keeps φ F m) : Keeps φ F (m >>= fun a => Pure.pure (g a)) :=
  hm.bind (fun _ => Keeps.pure _)

theorem Keeps.of_get {g : σ → StateT σ (Except ε) β}
    (h : ∀ s, Ends (g s) s (fun _ t => φ t = φ s) (F (φ s))) : Keeps φ F (get >>= g) :=
  fun s => Ends.get_bind (h s)

theorem Keeps.get {g : σ → StateT σ (Except ε) β} (h : ∀ s, Keeps φ F (g s)) :
    Keeps φ F (get >>= g) := Keeps.of_get (fun s => h s s)

theorem Keeps.set_bind {g : PUnit → StateT σ (Except ε) β} (ht : φ t = φ s)
    (hg : Keeps φ F (g ⟨⟩)) : Ends (set t >>= g) s (fun _ u => φ u = φ s) (F (φ s)) := by
  have h := hg t
  rw [ht] at h
  exact Ends.set_bind h

theorem Keeps.modify {u : σ → σ} (h : ∀ s, φ (u s) = φ s) :
    Keeps φ F (modify u : StateT σ (Except ε) PUnit) := fun s => Ends.modify (h s)

theorem Keeps.ite {c : Prop} [Decidable c] {m m' : StateT σ (Except ε) α} (hm : Keeps φ F m)
    (hm' : Keeps φ F m') : Keeps φ F (if c then m else m') := by
  split_ifs
  · exact hm
  · exact hm'

theorem Keeps.loop {body : Nat → StateT σ (Except ε) Unit} (h : ∀ k, Keeps φ F (body k)) (n : Nat) :
    Keeps φ F (Fallible.loop body n) := by
  refine fun s => Ends.loop (I := fun _ t => φ t = φ s) rfl (fun k _ t ht =>
    (h k t).mono (fun _ _ hu => hu.trans ht) ?_)
  rw [ht]
  exact fun _ => id

end Keeping

-- programs are run by the rules above; unfolding a long loop would not end
attribute [irreducible] Ends

end Fallible
