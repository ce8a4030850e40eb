import Xv6.Fallible
import Xv6.Machine

/-! Programs of atomic steps, run alone or interleaved. A contract says which
resources a step needs and what it gives back; programs that obey it keep an
invariant of the state and of the resources of all processes. -/

namespace Interleave

open Fallible Function

variable {Act : Type} {Res : Act → Type} {H σ ε π κ α β : Type}

inductive Prog (Res : Act → Type) (α : Type) : Type where
  | done (a : α)
  | step (a : Act) (k : Res a → Prog Res α)

namespace Prog

def bind : Prog Res α → (α → Prog Res β) → Prog Res β
  | .done a, f => f a
  | .step a k, f => .step a (fun r => (k r).bind f)

instance : Monad (Prog Res) where
  pure := .done
  bind := bind

def act (a : Act) : Prog Res (Res a) := .step a .done

def run (exec : (a : Act) → StateT σ (Except ε) (Res a)) : Prog Res α → StateT σ (Except ε) α
  | .done a => pure a
  | .step a k => do
    let r ← exec a
    (k r).run exec

theorem run_bind (exec : (a : Act) → StateT σ (Except ε) (Res a)) (p : Prog Res α)
    (f : α → Prog Res β) : (p >>= f).run exec = p.run exec >>= fun a => (f a).run exec := by
  induction p with
  | done a =>
    have h : (Prog.done a >>= f) = f a := rfl
    rw [h, run, pure_bind]
  | step a k ih =>
    have h : (Prog.step a k >>= f) = .step a (fun r => k r >>= f) := rfl
    rw [h, run, run, bind_assoc]
    congr 1
    funext r
    exact ih r

theorem run_act (exec : (a : Act) → StateT σ (Except ε) (Res a)) (a : Act) :
    (act a).run exec = exec a := by
  rw [act, run]
  exact bind_pure (exec a)

end Prog

section Alone

variable {exec : (a : Act) → StateT σ (Except ε) (Res a)} {s : σ} {E : ε → Prop}

theorem ends_bind {p : Prog Res α} {f : α → Prog Res β} {Q : α → σ → Prop} {R : β → σ → Prop}
    (h : Ends (p.run exec) s Q E) (hf : ∀ a t, Q a t → Ends ((f a).run exec) t R E) :
    Ends ((p >>= f).run exec) s R E := by
  rw [Prog.run_bind]
  exact h.bind hf

theorem ends_act {a : Act} {Q : Res a → σ → Prop} (h : Ends (exec a) s Q E) :
    Ends ((Prog.act a).run exec) s Q E := by
  rw [Prog.run_act]
  exact h

theorem ends_pure {a : α} {Q : α → σ → Prop} (h : Q a s) :
    Ends ((pure a : Prog Res α).run exec) s Q E := Ends.pure h

end Alone

/-- What a step needs, which results it may have, and what is held behind it. -/
structure Contract (Res : Act → Type) (H : Type) where
  pre : Act → H → Prop
  may : (a : Act) → H → Res a → Prop
  post : (a : Act) → Res a → H → H

def Obeys (C : Contract Res H) : Prog Res α → H → (α → H → Prop) → Prop
  | .done a, h, Q => Q a h
  | .step a k, h, Q => C.pre a h ∧ ∀ r, C.may a h r → Obeys C (k r) (C.post a r h) Q

section Obeying

variable {C : Contract Res H} {p : Prog Res α} {f : α → Prog Res β} {h : H}
  {Q : α → H → Prop} {R : β → H → Prop}

theorem Obeys.bind (hp : Obeys C p h Q) (hf : ∀ a h, Q a h → Obeys C (f a) h R) :
    Obeys C (p >>= f) h R := by
  induction p generalizing h with
  | done a => exact hf a h hp
  | step a k ih => exact ⟨hp.1, fun r hr => ih r (hp.2 r hr)⟩

theorem Obeys.act {a : Act} {Q : Res a → H → Prop} (hpre : C.pre a h)
    (hQ : ∀ r, C.may a h r → Q r (C.post a r h)) : Obeys C (Prog.act a) h Q := ⟨hpre, hQ⟩

theorem Obeys.pure {a : α} (hQ : Q a h) : Obeys C (Pure.pure a : Prog Res α) h Q := hQ

theorem Obeys.map {K : Type} {D : Contract Res K} (f : H → K) {Q' : α → K → Prop}
    (hpre : ∀ a h, C.pre a h → D.pre a (f h)) (hmay : ∀ a h r, D.may a (f h) r → C.may a h r)
    (hpost : ∀ a r h, f (C.post a r h) = D.post a r (f h)) (hp : Obeys C p h Q)
    (hQ : ∀ a h, Q a h → Q' a (f h)) : Obeys D p (f h) Q' := by
  induction p generalizing h with
  | done a => exact hQ a h hp
  | step a k ih =>
    refine ⟨hpre a h hp.1, fun r hr => ?_⟩
    rw [← hpost]
    exact ih r (hp.2 r (hmay a h r hr))

end Obeying

structure World (Res : Act → Type) (σ π α : Type) where
  st : σ
  prog : π → Prog Res α

inductive Event (π κ : Type) where
  | call (p : π) (c : κ)
  | step (p : π)

section Running

variable [DecidableEq π] (exec : π → (a : Act) → StateT σ (Except ε) (Res a))
  (body : π → κ → Prog Res α)

/-- What an event does; none if it cannot happen, an error if the step fails. -/
def fire (w : World Res σ π α) : Event π κ → Option (Except ε (World Res σ π α))
  | .call p c =>
    match w.prog p with
    | .done _ => some (.ok { w with prog := Function.update w.prog p (body p c) })
    | .step _ _ => none
  | .step p =>
    match w.prog p with
    | .done _ => none
    | .step a k =>
      match exec p a w.st with
      | .ok (r, t) => some (.ok ⟨t, Function.update w.prog p (k r)⟩)
      | .error e => some (.error e)

def machine : Machine (World Res σ π α) (Event π κ) :=
  ⟨fun w e => (fire exec body w e).bind Except.toOption⟩

variable (C : Contract Res H) (Inv : σ → (π → H) → Prop) (E : ε → Prop)
  (Meets : π → (a : Act) → σ → Prop)

/-- A step in a state that meets its condition keeps the invariant. -/
def Sound : Prop := ∀ s held p a, Inv s held → C.pre a (held p) → Meets p a s →
  Ends (exec p a) s (fun r t => C.may a (held p) r ∧
    Inv t (Function.update held p (C.post a r (held p)))) E

/-- The state with the resources of all processes; an idle process has `idle`. -/
structure Config (idle : H) (w : World Res σ π α) (held : π → H) : Prop where
  inv : Inv w.st held
  obeys : ∀ p, Obeys C (w.prog p) (held p) (fun _ h => h = idle)

/-- The next step of the process, if there is one, meets its condition. -/
def MeetsNext (w : World Res σ π α) : Event π κ → Prop
  | .call _ _ => True
  | .step p =>
    match w.prog p with
    | .done _ => True
    | .step a _ => Meets p a w.st

instance [∀ p a s, Decidable (Meets p a s)] (w : World Res σ π α) :
    (ev : Event π κ) → Decidable (MeetsNext Meets w ev)
  | .call _ _ => isTrue trivial
  | .step p =>
    match h : w.prog p with
    | .done _ => isTrue (by simp [MeetsNext, h])
    | .step a _ => decidable_of_iff (Meets p a w.st) (by simp [MeetsNext, h])

def heldAfter (w : World Res σ π α) (held : π → H) : Event π κ → π → H
  | .call _ _ => held
  | .step p =>
    match w.prog p with
    | .done _ => held
    | .step a _ =>
      match exec p a w.st with
      | .ok (r, _) => Function.update held p (C.post a r (held p))
      | .error _ => held

variable {exec body C Inv E Meets} {idle : H} {w w' : World Res σ π α} {held : π → H}
  {ev : Event π κ}

theorem Config.fire (h : Config C Inv idle w held) (hsound : Sound exec C Inv E Meets)
    (hbody : ∀ p c, Obeys C (body p c) idle (fun _ h => h = idle)) (hm : MeetsNext Meets w ev)
    {r : Except ε (World Res σ π α)} (hf : fire exec body w ev = some r) :
    match r with
    | .ok w' => Config C Inv idle w' (heldAfter exec C w held ev)
    | .error e => E e := by
  cases ev with
  | call p c =>
    cases hp : w.prog p with
    | step a k => simp [Interleave.fire, hp] at hf
    | done a =>
      have hr : r = .ok { w with prog := update w.prog p (body p c) } := by
        simpa [Interleave.fire, hp] using hf.symm
      subst hr
      refine ⟨h.inv, fun q => ?_⟩
      by_cases hq : q = p
      · subst hq
        have hidle : held q = idle := by
          have ho := h.obeys q
          rw [hp] at ho
          exact ho
        simpa [heldAfter, hidle] using hbody q c
      · simpa [heldAfter, hq] using h.obeys q
  | step p =>
    cases hp : w.prog p with
    | done a => simp [Interleave.fire, hp] at hf
    | step a k =>
      have ho := h.obeys p
      rw [hp] at ho
      have hmeet : Meets p a w.st := by simpa [MeetsNext, hp] using hm
      have hs := hsound w.st held p a h.inv ho.1 hmeet
      cases he : exec p a w.st with
      | error e =>
        have hr : r = .error e := by simpa [Interleave.fire, hp, he] using hf.symm
        subst hr
        exact hs.error he
      | ok res =>
        obtain ⟨x, t⟩ := res
        have hr : r = .ok ⟨t, update w.prog p (k x)⟩ := by
          simpa [Interleave.fire, hp, he] using hf.symm
        subst hr
        obtain ⟨hmay, hinv⟩ := hs.ok he
        have hheld : heldAfter exec C w held (.step p : Event π κ) =
            update held p (C.post a x (held p)) := by
          simp [heldAfter, hp, he]
        rw [hheld]
        refine ⟨hinv, fun q => ?_⟩
        by_cases hq : q = p
        · subst hq
          simpa using ho.2 x hmay
        · simpa [hq] using h.obeys q

theorem fire_step_ok {p : π} (hf : fire exec body w (.step p) = some (.ok w')) :
    ∃ a k r, w.prog p = .step a k ∧ exec p a w.st = .ok (r, w'.st) := by
  cases hp : w.prog p with
  | done a => simp [Interleave.fire, hp] at hf
  | step a k =>
    cases he : exec p a w.st with
    | error e => simp [Interleave.fire, hp, he] at hf
    | ok res =>
      have hw : w' = ⟨res.2, update w.prog p (k res.1)⟩ := by
        simpa [Interleave.fire, hp, he] using hf.symm
      exact ⟨a, k, res.1, rfl, by rw [he, hw]⟩

theorem fire_step_eq {p : π} {a : Act} {k : Res a → Prog Res α} (hp : w.prog p = .step a k)
    (hf : fire exec body w (.step p) = some (.ok w')) :
    ∃ r t, exec p a w.st = .ok (r, t) ∧ w' = ⟨t, update w.prog p (k r)⟩ := by
  cases he : exec p a w.st with
  | error e => simp [Interleave.fire, hp, he] at hf
  | ok res => exact ⟨res.1, res.2, rfl, by simpa [Interleave.fire, hp, he] using hf.symm⟩

theorem fire_step_error {p : π} {e : ε} (hf : fire exec body w (.step p) = some (.error e)) :
    ∃ a k, w.prog p = .step a k ∧ exec p a w.st = .error e := by
  cases hp : w.prog p with
  | done a => simp [Interleave.fire, hp] at hf
  | step a k =>
    refine ⟨a, k, rfl, ?_⟩
    cases he : exec p a w.st with
    | error e' => simpa [Interleave.fire, hp, he] using hf
    | ok res => simp [Interleave.fire, hp, he] at hf

theorem machine_step : (machine exec body).step w ev = some w' ↔
    fire exec body w ev = some (.ok w') := by
  unfold machine
  dsimp only
  cases hf : Interleave.fire exec body w ev with
  | none => simp
  | some r =>
    cases r with
    | error e => simp [Except.toOption]
    | ok u => simp [Except.toOption]

omit [DecidableEq π] in
theorem meetsNext_true (w : World Res σ π α) (ev : Event π κ) :
    MeetsNext (fun _ _ _ => True) w ev := by
  cases ev with
  | call p c => trivial
  | step p =>
    unfold MeetsNext
    dsimp only
    split <;> trivial

theorem along_true (es : List (Event π κ)) :
    (machine exec body).Along (MeetsNext (fun _ _ _ => True)) w es :=
  Machine.along_of_forall (fun ev _ u => meetsNext_true u ev)

def heldBehind (exec : π → (a : Act) → StateT σ (Except ε) (Res a)) (body : π → κ → Prog Res α)
    (C : Contract Res H) (held : π → H) (w : World Res σ π α) (es : List (Event π κ)) : π → H :=
  (machine exec body).watch (fun held w ev => heldAfter exec C w held ev) held w es

theorem Config.run (h : Config C Inv idle w held) (hsound : Sound exec C Inv E Meets)
    (hbody : ∀ p c, Obeys C (body p c) idle (fun _ h => h = idle)) {es : List (Event π κ)}
    (hm : (machine exec body).Along (MeetsNext Meets) w es)
    (hrun : (machine exec body).exec w es = some w') :
    Config C Inv idle w' (heldBehind exec body C held w es) := by
  refine Machine.watch_inv (R := MeetsNext Meets) (I := fun w held => Config C Inv idle w held)
    (fun held w ev => heldAfter exec C w held ev) (fun w ev u g hstep hm hI => ?_) hrun hm h
  exact hI.fire hsound hbody hm (machine_step.mp hstep)

theorem Config.error (h : Config C Inv idle w held) (hsound : Sound exec C Inv E Meets)
    (hbody : ∀ p c, Obeys C (body p c) idle (fun _ h => h = idle)) (hm : MeetsNext Meets w ev)
    {e : ε} (hf : Interleave.fire exec body w ev = some (.error e)) : E e :=
  h.fire hsound hbody hm hf

omit [DecidableEq π] in
theorem Config.idle_of_done (h : Config C Inv idle w held) {p : π} {a : α}
    (hp : w.prog p = .done a) : held p = idle := by
  have ho := h.obeys p
  rw [hp] at ho
  exact ho

end Running

end Interleave
