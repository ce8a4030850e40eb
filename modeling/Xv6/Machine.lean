import Mathlib.Tactic

/-! Deterministic labelled machines. A run is a list of events; properties of
runs are carried by invariants over the state and a history variable. -/

structure Machine (σ ε : Type*) where
  step : σ → ε → Option σ

namespace Machine

open List

variable {σ ε γ : Type*} (m : Machine σ ε)

def exec : σ → List ε → Option σ
  | s, [] => some s
  | s, e :: es => (m.step s e).bind (fun t => exec t es)

def Along (R : σ → ε → Prop) : σ → List ε → Prop
  | _, [] => True
  | s, e :: es => R s e ∧ ∀ t, m.step s e = some t → Along R t es

instance decidableAlong (R : σ → ε → Prop) [∀ s e, Decidable (R s e)] :
    (s : σ) → (es : List ε) → Decidable (m.Along R s es)
  | _, [] => isTrue trivial
  | s, e :: es =>
    match h : m.step s e with
    | none => decidable_of_iff (R s e) (by simp [Along, h])
    | some t =>
      have := decidableAlong R t es
      decidable_of_iff (R s e ∧ m.Along R t es) (by simp [Along, h])

def Always (φ : σ → Prop) : σ → List ε → Prop
  | s, [] => φ s
  | s, e :: es => φ s ∧ ∀ t, m.step s e = some t → Always φ t es

def watch (upd : γ → σ → ε → γ) : γ → σ → List ε → γ
  | g, _, [] => g
  | g, s, e :: es =>
    match m.step s e with
    | none => g
    | some t => watch upd (upd g s e) t es

def Reachable (s t : σ) : Prop := ∃ es, m.exec s es = some t

variable {m}

@[simp] theorem exec_nil (s : σ) : m.exec s [] = some s := rfl

theorem exec_cons {s u : σ} {e : ε} {es : List ε} :
    m.exec s (e :: es) = some u ↔ ∃ t, m.step s e = some t ∧ m.exec t es = some u := by
  simp [exec, Option.bind_eq_some_iff]

theorem exec_append {s u : σ} {es fs : List ε} :
    m.exec s (es ++ fs) = some u ↔ ∃ t, m.exec s es = some t ∧ m.exec t fs = some u := by
  induction es generalizing s with
  | nil => simp
  | cons e es ih =>
    simp only [cons_append, exec_cons, ih]
    constructor
    · rintro ⟨t, hs, r, hr, hu⟩
      exact ⟨r, ⟨t, hs, hr⟩, hu⟩
    · rintro ⟨r, ⟨t, hs, hr⟩, hu⟩
      exact ⟨t, hs, r, hr, hu⟩

theorem exec_singleton {s t : σ} {e : ε} : m.exec s [e] = some t ↔ m.step s e = some t := by
  simp [exec_cons]

theorem watch_cons {upd : γ → σ → ε → γ} {g : γ} {s t : σ} {e : ε} {es : List ε}
    (h : m.step s e = some t) :
    m.watch upd g s (e :: es) = m.watch upd (upd g s e) t es := by
  simp [watch, h]

theorem watch_append {upd : γ → σ → ε → γ} {g : γ} {s t : σ} {es fs : List ε}
    (h : m.exec s es = some t) :
    m.watch upd g s (es ++ fs) = m.watch upd (m.watch upd g s es) t fs := by
  induction es generalizing s g with
  | nil =>
    obtain rfl : s = t := by simpa using h
    rfl
  | cons e es ih =>
    obtain ⟨r, hs, hr⟩ := exec_cons.mp h
    rw [cons_append, watch_cons hs, watch_cons hs, ih hr]

theorem watch_inv (upd : γ → σ → ε → γ) {R : σ → ε → Prop} {I : σ → γ → Prop}
    (hstep : ∀ s e t g, m.step s e = some t → R s e → I s g → I t (upd g s e))
    {s t : σ} {g : γ} {es : List ε} (hrun : m.exec s es = some t)
    (hR : m.Along R s es) (hI : I s g) : I t (m.watch upd g s es) := by
  induction es generalizing s g with
  | nil =>
    obtain rfl : s = t := by simpa using hrun
    exact hI
  | cons e es ih =>
    obtain ⟨r, hs, hr⟩ := exec_cons.mp hrun
    rw [watch_cons hs]
    exact ih hr (hR.2 r hs) (hstep s e r g hs hR.1 hI)

theorem along_true (s : σ) (es : List ε) : m.Along (fun _ _ => True) s es := by
  induction es generalizing s with
  | nil => trivial
  | cons e es ih => exact ⟨trivial, fun t _ => ih t⟩

theorem inv_along {R : σ → ε → Prop} {I : σ → Prop}
    (hstep : ∀ s e t, m.step s e = some t → R s e → I s → I t)
    {s t : σ} {es : List ε} (hrun : m.exec s es = some t)
    (hR : m.Along R s es) (hI : I s) : I t :=
  watch_inv (fun g _ _ => g) (I := fun s (_ : Unit) => I s)
    (fun s e t _ => hstep s e t) (g := ()) hrun hR hI

theorem inv_exec {I : σ → Prop} (hstep : ∀ s e t, m.step s e = some t → I s → I t)
    {s t : σ} {es : List ε} (hrun : m.exec s es = some t) (hI : I s) : I t :=
  inv_along (fun s e t hs _ => hstep s e t hs) hrun (along_true s es) hI

theorem Reachable.inv {I : σ → Prop} (hstep : ∀ s e t, m.step s e = some t → I s → I t)
    {s t : σ} (h : m.Reachable s t) (hI : I s) : I t := by
  obtain ⟨es, hrun⟩ := h
  exact inv_exec hstep hrun hI

theorem Always.first {φ : σ → Prop} {s : σ} {es : List ε} (h : m.Always φ s es) : φ s := by
  cases es with
  | nil => exact h
  | cons e es => exact h.1

theorem Always.last {φ : σ → Prop} {s t : σ} {es : List ε} (h : m.Always φ s es)
    (hrun : m.exec s es = some t) : φ t := by
  induction es generalizing s with
  | nil =>
    obtain rfl : s = t := by simpa using hrun
    exact h
  | cons e es ih =>
    obtain ⟨r, hs, hr⟩ := exec_cons.mp hrun
    exact ih (h.2 r hs) hr

theorem Always.mono {φ ψ : σ → Prop} (himp : ∀ s, φ s → ψ s) {s : σ} {es : List ε}
    (h : m.Always φ s es) : m.Always ψ s es := by
  induction es generalizing s with
  | nil => exact himp s h
  | cons e es ih => exact ⟨himp s h.1, fun t ht => ih (h.2 t ht)⟩

theorem Always.and {φ ψ : σ → Prop} {s : σ} {es : List ε} (h : m.Always φ s es)
    (h' : m.Always ψ s es) : m.Always (fun s => φ s ∧ ψ s) s es := by
  induction es generalizing s with
  | nil => exact ⟨h, h'⟩
  | cons e es ih => exact ⟨⟨h.1, h'.1⟩, fun t ht => ih (h.2 t ht) (h'.2 t ht)⟩

theorem Always.inv {φ I : σ → Prop}
    (hstep : ∀ s e t, m.step s e = some t → φ s → φ t → I s → I t) {s : σ} {es : List ε}
    (h : m.Always φ s es) (hI : I s) : m.Always I s es := by
  induction es generalizing s with
  | nil => exact hI
  | cons e es ih =>
    exact ⟨hI, fun t ht => ih (h.2 t ht) (hstep s e t ht h.1 (h.2 t ht).first hI)⟩

theorem always_of_along {R : σ → ε → Prop} {I : σ → Prop}
    (hstep : ∀ s e t, m.step s e = some t → R s e → I s → I t) {s : σ} {es : List ε}
    (hR : m.Along R s es) (hI : I s) : m.Always I s es := by
  induction es generalizing s with
  | nil => exact hI
  | cons e es ih => exact ⟨hI, fun t ht => ih (hR.2 t ht) (hstep s e t ht hR.1 hI)⟩

theorem along_and {R S : σ → ε → Prop} {s : σ} {es : List ε} (h : m.Along R s es)
    (h' : m.Along S s es) : m.Along (fun s e => R s e ∧ S s e) s es := by
  induction es generalizing s with
  | nil => trivial
  | cons e es ih => exact ⟨⟨h.1, h'.1⟩, fun t ht => ih (h.2 t ht) (h'.2 t ht)⟩

theorem along_append_iff {R : σ → ε → Prop} {s : σ} {es fs : List ε} : m.Along R s (es ++ fs) ↔
      m.Along R s es ∧ ∀ t, m.exec s es = some t → m.Along R t fs := by
  induction es generalizing s with
  | nil => simp [Along]
  | cons e es ih =>
    simp only [cons_append, Along, ih, exec_cons]
    constructor
    · rintro ⟨hR, h⟩
      refine ⟨⟨hR, fun t ht => (h t ht).1⟩, ?_⟩
      rintro u ⟨t, ht, hu⟩
      exact (h t ht).2 u hu
    · rintro ⟨⟨hR, h⟩, hf⟩
      exact ⟨hR, fun t ht => ⟨h t ht, fun u hu => hf u ⟨t, ht, hu⟩⟩⟩

theorem exists_of_not_along {R : σ → ε → Prop} {s : σ} {es : List ε} (h : ¬ m.Along R s es) :
    ∃ fs f gs t, es = fs ++ f :: gs ∧ m.exec s fs = some t ∧ ¬ R t f := by
  induction es generalizing s with
  | nil => exact absurd trivial h
  | cons e es ih =>
    by_cases hR : R s e
    · have hlater : ∃ t, m.step s e = some t ∧ ¬ m.Along R t es := by
        by_contra hno
        exact h ⟨hR, fun t ht => by_contra (fun hA => hno ⟨t, ht, hA⟩)⟩
      obtain ⟨r, hr, hnot⟩ := hlater
      obtain ⟨fs, f, gs, t, rfl, ht, hf⟩ := ih hnot
      exact ⟨e :: fs, f, gs, t, rfl, exec_cons.mpr ⟨r, hr, ht⟩, hf⟩
    · exact ⟨[], e, es, s, rfl, rfl, hR⟩

theorem along_of_forall {R : σ → ε → Prop} {s : σ} {es : List ε}
    (h : ∀ e ∈ es, ∀ t, R t e) : m.Along R s es := by
  induction es generalizing s with
  | nil => trivial
  | cons e es ih =>
    exact ⟨h e mem_cons_self s, fun t _ => ih (fun f hf => h f (mem_cons_of_mem e hf))⟩

end Machine
