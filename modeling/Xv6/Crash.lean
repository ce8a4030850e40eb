import Mathlib.Tactic

/-! Programs over a state with a durable part, which a crash may stop before
any of their durable writes. A specification says what the durable state is at
each of these points as well as at the end; a recovery procedure is judged by
what it keeps when it is itself cut short. -/

/-- One run: the durable states at which it may be stopped, and its end, if it
does not halt. -/
structure Outcome (σ δ α : Type*) where
  crashes : List δ
  final : Option (α × σ)

def Prog (σ δ α : Type) : Type := σ → Outcome σ δ α

namespace Prog

variable {σ δ α β : Type}

instance : Monad (Prog σ δ) where
  pure a := fun s => ⟨[], some (a, s)⟩
  bind p f := fun s =>
    match (p s).final with
    | none => ⟨(p s).crashes, none⟩
    | some (a, t) => ⟨(p s).crashes ++ (f a t).crashes, (f a t).final⟩

def get : Prog σ δ σ := fun s => ⟨[], some (s, s)⟩

def modify (f : σ → σ) : Prog σ δ Unit := fun s => ⟨[], some ((), f s)⟩

def write (durable : σ → δ) (f : σ → σ) : Prog σ δ Unit :=
  fun s => ⟨[durable s], some ((), f s)⟩

def attempt {ε : Type} (durable : σ → δ) (f : σ → Except ε (α × σ)) : Prog σ δ α := fun s =>
  match f s with
  | .error _ => ⟨[durable s], none⟩
  | .ok r => ⟨[], some r⟩

def loop (body : Nat → Prog σ δ Unit) : Nat → Prog σ δ Unit
  | 0 => pure ()
  | n + 1 => do
    loop body n
    body n

/-- From every state in `P` the program ends in `Q`, unless it halts, which it
does only if `H`; wherever it may be stopped the durable state is in `C`. -/
def Spec (H : Prop) (P : σ → Prop) (p : Prog σ δ α) (Q : α → σ → Prop) (C : δ → Prop) : Prop :=
  ∀ s, P s → (∀ d ∈ (p s).crashes, C d) ∧ (∀ a t, (p s).final = some (a, t) → Q a t) ∧
    ((p s).final = none → H)

variable {H H' : Prop} {P P' : σ → Prop} {Q Q' : α → σ → Prop} {C C' : δ → Prop}

theorem Spec.conseq {p : Prog σ δ α} (h : Spec H P p Q C) (hH : H → H')
    (hP : ∀ s, P' s → P s) (hQ : ∀ a s, Q a s → Q' a s) (hC : ∀ d, C d → C' d) :
    Spec H' P' p Q' C' := by
  intro s hs
  obtain ⟨hc, hq, hn⟩ := h s (hP s hs)
  exact ⟨fun d hd => hC d (hc d hd), fun a t ht => hQ a t (hq a t ht), fun hf => hH (hn hf)⟩

theorem Spec.post {p : Prog σ δ α} (h : Spec H P p Q C) (hQ : ∀ a s, Q a s → Q' a s) :
    Spec H P p Q' C :=
  h.conseq id (fun _ => id) hQ (fun _ => id)

theorem Spec.of_forall {ι : Type} {I : ι → σ → Prop} {p : Prog σ δ α}
    (h : ∀ i, Spec H (I i) p Q C) : Spec H (fun s => ∃ i, I i s) p Q C :=
  fun s ⟨i, hi⟩ => h i s hi

theorem Spec.of_and {A : Prop} {p : Prog σ δ α} (h : A → Spec H P p Q C) :
    Spec H (fun s => A ∧ P s) p Q C :=
  fun s hs => h hs.1 s hs.2

theorem Spec.assume {p : Prog σ δ α} (h : ∀ s, P s → Spec H P p Q C) : Spec H P p Q C :=
  fun s hs => h s hs s hs

theorem Spec.of_eq {p : Prog σ δ α} {cs : σ → List δ} {r : σ → α × σ}
    (hp : ∀ s, p s = ⟨cs s, some (r s)⟩) (hc : ∀ s, P s → ∀ d ∈ cs s, C d)
    (h : ∀ s, P s → Q (r s).1 (r s).2) : Spec H P p Q C := by
  intro s hs
  have hend : ∀ a t, (p s).final = some (a, t) → Q a t := by
    intro a t hf
    rw [hp] at hf
    obtain ⟨rfl, rfl⟩ := Prod.mk.inj (Option.some.inj hf).symm
    exact h s hs
  have hreturns : (p s).final ≠ none := by
    rw [hp]
    exact Option.some_ne_none _
  exact ⟨by simpa only [hp] using hc s hs, hend, fun hn => absurd hn hreturns⟩

theorem Spec.pure {a : α} (h : ∀ s, P s → Q a s) : Spec H P (pure a : Prog σ δ α) Q C :=
  Spec.of_eq (fun _ => rfl) (by simp) h

theorem Spec.bind {p : Prog σ δ α} {f : α → Prog σ δ β} {R : β → σ → Prop}
    (h : Spec H P p Q C) (hf : ∀ a, Spec H (Q a) (f a) R C) : Spec H P (p >>= f) R C := by
  intro s hs
  obtain ⟨hc, hq, hn⟩ := h s hs
  cases hp : (p s).final with
  | none =>
    simp only [Bind.bind, hp]
    exact ⟨hc, by simp, fun _ => hn hp⟩
  | some r =>
    obtain ⟨hc', hq', hn'⟩ := hf r.1 r.2 (hq r.1 r.2 hp)
    simp only [Bind.bind, hp, List.mem_append]
    exact ⟨fun d hd => hd.elim (hc d) (hc' d), hq', hn'⟩

theorem Spec.modify {f : σ → σ} {R : Unit → σ → Prop} (h : ∀ s, P s → R () (f s)) :
    Spec H P (modify f : Prog σ δ Unit) R C :=
  Spec.of_eq (fun _ => rfl) (by simp) h

theorem Spec.write {durable : σ → δ} {f : σ → σ} {R : Unit → σ → Prop}
    (hc : ∀ s, P s → C (durable s)) (h : ∀ s, P s → R () (f s)) :
    Spec H P (write durable f) R C :=
  Spec.of_eq (fun _ => rfl) (by simpa using hc) h

theorem Spec.attempt {ε : Type} {durable : σ → δ} {f : σ → Except ε (α × σ)}
    (he : ∀ s, P s → ∀ m, f s = .error m → C (durable s) ∧ H)
    (ho : ∀ s, P s → ∀ r, f s = .ok r → Q r.1 r.2) : Spec H P (attempt durable f) Q C := by
  intro s hs
  unfold Prog.attempt
  cases hf : f s with
  | error m =>
    obtain ⟨hc, hH⟩ := he s hs m hf
    exact ⟨by simpa using hc, by simp, fun _ => hH⟩
  | ok r =>
    refine ⟨by simp, ?_, by simp⟩
    rintro a t ⟨rfl, rfl⟩
    exact ho s hs _ hf

theorem Spec.loop {body : Nat → Prog σ δ Unit} {I : Nat → σ → Prop} {n : Nat}
    (h : ∀ k < n, Spec H (I k) (body k) (fun _ => I (k + 1)) C) :
    Spec H (I 0) (loop body n) (fun _ => I n) C := by
  induction n with
  | zero => exact Spec.pure (fun _ hs => hs)
  | succ n ih =>
    exact (ih (fun k hk => h k (by omega))).bind (fun _ => h n (by omega))

section Recovery

variable (durable : σ → δ) (boot : δ → σ) (recover : Prog σ δ Unit)

/-- A crash of the program leaves `d`: before one of its writes, or at its end. -/
def StopsAt (p : Prog σ δ α) (s : σ) (d : δ) : Prop :=
  d ∈ (p s).crashes ∨ ∃ a t, (p s).final = some (a, t) ∧ durable t = d

/-- From durable state `d`, any number of recoveries that crash and a last one
that ends lead to `r`. -/
inductive Recovers : δ → δ → Prop
  | done {d : δ} {t : σ} (h : (recover (boot d)).final = some ((), t)) : Recovers d (durable t)
  | crash {d d' r : δ} (h : StopsAt durable recover (boot d) d') (hr : Recovers d' r) : Recovers d r

variable {durable boot recover}

theorem Spec.stopsAt {p : Prog σ δ α} {s : σ} {d : δ} (h : Spec H P p Q C) (hs : P s)
    (hQ : ∀ a t, Q a t → C (durable t)) (hd : StopsAt durable p s d) : C d := by
  rcases hd with hd | ⟨a, t, hf, rfl⟩
  · exact (h s hs).1 d hd
  · exact hQ a t ((h s hs).2.1 a t hf)

/-- A recovery that keeps `C` wherever it is stopped, and ends in `R`, leads
from `C` to `R` however often it is repeated. -/
theorem Recovers.post {R : δ → Prop}
    (h : Spec H (fun s => ∃ d, C d ∧ s = boot d) recover (fun _ t => R (durable t)) C)
    (hRC : ∀ d, R d → C d) {d r : δ} (hr : Recovers durable boot recover d r) (hd : C d) :
    R r := by
  induction hr with
  | @done d t hf => exact (h (boot d) ⟨d, hd, rfl⟩).2.1 () t hf
  | @crash d d' r hc _ ih => exact ih (h.stopsAt ⟨d, hd, rfl⟩ (fun _ _ => hRC _) hc)

end Recovery

end Prog
