import Mathlib.Tactic

/-! Radix trees whose nodes lie in a heap. A path is read from its end: the last
index leads from the root, the first one to the node itself. -/

namespace Radix

open List Option

variable {A I : Type}

def nodeAt (child : A → I → Option A) (root : A) : List I → Option A
  | [] => some root
  | i :: p => (nodeAt child root p).bind (fun a => child a i)

def IsTree (child : A → I → Option A) (root : A) (d : Nat) : Prop :=
  ∀ p q a, p.length ≤ d → q.length ≤ d → nodeAt child root p = some a →
    nodeAt child root q = some a → p = q

section Paths

variable {child child' : A → I → Option A} {root a b : A} {i : I} {p q : List I} {d : Nat}

theorem nodeAt_append (q p : List I) :
    nodeAt child root (q ++ p) = (nodeAt child root p).bind (fun a => nodeAt child a q) := by
  induction q with
  | nil =>
    rw [nil_append]
    cases nodeAt child root p with
    | none => rfl
    | some a => rfl
  | cons i q ih =>
    rw [cons_append, nodeAt, ih]
    cases nodeAt child root p with
    | none => rfl
    | some a => rfl

theorem nodeAt_below (hp : nodeAt child root p = some a) (q : List I) :
    nodeAt child root (q ++ p) = nodeAt child a q := by
  rw [nodeAt_append, hp]
  rfl

theorem nodeAt_congr (h : ∀ p a, p.length < d → nodeAt child root p = some a →
    child' a = child a) (hq : q.length ≤ d) : nodeAt child' root q = nodeAt child root q := by
  induction q with
  | nil => rfl
  | cons i q ih =>
    have hlt : q.length < d := hq
    rw [nodeAt, nodeAt, ih hlt.le]
    cases ha : nodeAt child root q with
    | none => rfl
    | some a => rw [bind_some, bind_some, h q a hlt ha]

theorem IsTree.congr (h : IsTree child root d)
    (hq : ∀ q, q.length ≤ d → nodeAt child' root q = nodeAt child root q) :
    IsTree child' root d := by
  intro p q a hp hq' hpa hqa
  rw [hq p hp] at hpa
  rw [hq q hq'] at hqa
  exact h p q a hp hq' hpa hqa

theorem IsTree.below (h : IsTree child root (d + p.length)) (hp : nodeAt child root p = some a) :
    IsTree child a d := by
  intro q r b hq hr hqb hrb
  rw [← nodeAt_below hp] at hqb hrb
  have heq := h (q ++ p) (r ++ p) b (by simpa using hq) (by simpa using hr) hqb hrb
  exact append_cancel_right heq

section Link

variable [DecidableEq I]

theorem nodeAt_link (h : IsTree child root d) (hp : nodeAt child root p = some a)
    (hlen : p.length < d) (hnone : child a i = none)
    (hfresh : ∀ q, q.length ≤ d → nodeAt child root q ≠ some b)
    (ha : child' a = Function.update (child a) i (some b)) (hb : ∀ j, child' b j = none)
    (hother : ∀ c, c ≠ a → c ≠ b → child' c = child c) (hq : q.length ≤ d) :
    nodeAt child' root q = if q = i :: p then some b else nodeAt child root q := by
  have hpne : p ≠ i :: p := fun he => by simpa using congrArg length he
  induction q with
  | nil => rfl
  | cons j q ih =>
    have hlt : q.length < d := hq
    have ih := ih hlt.le
    rw [nodeAt, ih, nodeAt]
    by_cases hqp : q = p
    · subst hqp
      rw [if_neg hpne, hp, bind_some, bind_some, ha]
      by_cases hj : j = i
      · rw [hj, Function.update_self, if_pos rfl]
      · rw [Function.update_of_ne hj, if_neg (fun he => hj (cons.inj he).1)]
    · rw [if_neg (fun he => hqp (cons.inj he).2)]
      by_cases hnew : q = i :: p
      · have hold : nodeAt child root q = none := by
          rw [hnew, nodeAt, hp, bind_some, hnone]
        rw [if_pos hnew, hold, bind_some, bind_none, hb]
      · rw [if_neg hnew]
        cases hc : nodeAt child root q with
        | none => rfl
        | some c =>
          have hca : c ≠ a := fun he => hqp (h q p a hlt.le hlen.le (he ▸ hc) hp)
          have hcb : c ≠ b := fun he => hfresh q hlt.le (he ▸ hc)
          rw [bind_some, bind_some, hother c hca hcb]

theorem IsTree.link (h : IsTree child root d) (hp : nodeAt child root p = some a)
    (hlen : p.length < d) (hnone : child a i = none)
    (hfresh : ∀ q, q.length ≤ d → nodeAt child root q ≠ some b)
    (ha : child' a = Function.update (child a) i (some b)) (hb : ∀ j, child' b j = none)
    (hother : ∀ c, c ≠ a → c ≠ b → child' c = child c) : IsTree child' root d := by
  have hnode := fun q => nodeAt_link (q := q) h hp hlen hnone hfresh ha hb hother
  intro q r c hq hr hqc hrc
  rw [hnode q hq] at hqc
  rw [hnode r hr] at hrc
  split_ifs at hqc hrc with hqi hri hri
  · rw [hqi, hri]
  · exact absurd (hrc.trans hqc.symm) (hfresh r hr)
  · exact absurd (hqc.trans hrc.symm) (hfresh q hq)
  · exact h q r c hq hr hqc hrc

end Link

end Paths

end Radix
