import Mathlib.Data.Finset.Card
import Mathlib.Data.Multiset.Basic
import Xv6.SectionSpecs

/-! A process that runs alone and holds references to some inodes. As long as it
only looks at inodes and puts what it got, nothing else changes. -/

namespace Xv6

open Fallible FsM CString Multiset Inodes Fs

def Fs.NoOrphans (s : Fs) : Prop :=
  ∀ j n, s.view j = some n → n.nlink = 0 → 1 ≤ (s.itable j).ref

def Fs.entering (s : Fs) (H : Multiset Nat) : Finset Nat :=
  H.toFinset.filter (fun j => (s.itable j).ref = 0)

/-- `B` are the inodes of `s`, with a reference more to each of `H`. -/
structure Extra (s : Fs) (B : Inodes) (H : Multiset Nat) : Prop where
  view : B.view = s.view
  ref : ∀ j, B.ref j = (s.itable j).ref + H.count j
  loaded : ∀ j, s.inodes.loaded j = true → B.loaded j = true
  inuse : B.inuse = s.inuse + (s.entering H).card

structure Holds (start : Nat) (s t : Fs) (H : Multiset Nat) : Prop where
  becomes : Becomes start s t t.inodes
  extra : Extra s t.inodes H

section Rules

variable {start : Nat} {s t u : Fs} {i : Nat} {H H' : Multiset Nat} {A B : Inodes}

theorem Extra.refl (s : Fs) : Extra s s.inodes 0 :=
  ⟨rfl, fun _ => by simp [inodes], fun _ => id, by simp [entering, inodes]⟩

theorem Fs.card_entering_cons (s : Fs) (i : Nat) (H : Multiset Nat) : (s.entering (i ::ₘ H)).card =
      (s.entering H).card + if (s.itable i).ref = 0 ∧ i ∉ H then 1 else 0 := by
  unfold entering
  rw [toFinset_cons, Finset.filter_insert]
  by_cases h0 : (s.itable i).ref = 0
  · rw [if_pos h0]
    by_cases hi : i ∈ H
    · have hmem : i ∈ H.toFinset.filter (fun j => (s.itable j).ref = 0) := by simp [hi, h0]
      rw [Finset.insert_eq_of_mem hmem, if_neg (fun h => h.2 hi), add_zero]
    · have hmem : i ∉ H.toFinset.filter (fun j => (s.itable j).ref = 0) := by simp [hi]
      rw [Finset.card_insert_of_notMem hmem, if_pos ⟨h0, hi⟩]
  · rw [if_neg h0, if_neg (fun h => h0 h.1), add_zero]

theorem Extra.load (h : Extra s B H) (i : Nat) : Extra s (B.load i) H where
  view := h.view
  ref := h.ref
  loaded j hj := (Untouched.load B i).loaded j (h.loaded j hj)
  inuse := h.inuse

theorem Extra.get (h : Extra s B H) (i : Nat) : Extra s (B.get i) (i ::ₘ H) where
  view := h.view
  ref j := by
    rw [get_ref, count_cons, h.ref j, h.ref i]
    by_cases hj : j = i
    · subst hj
      simp [add_assoc]
    · simp [hj]
  loaded := h.loaded
  inuse := by
    have hB : (B.get i).inuse = B.inuse + if B.ref i = 0 then 1 else 0 := by
      unfold Inodes.get
      dsimp only
      split_ifs <;> rfl
    have h0 : B.ref i = 0 ↔ (s.itable i).ref = 0 ∧ i ∉ H := by
      rw [h.ref i, Nat.add_eq_zero_iff, count_eq_zero]
    rw [hB, h.inuse, card_entering_cons, add_assoc]
    simp only [h0]

theorem Extra.kept (h : Extra s B (i ::ₘ H)) (hs : s.NoOrphans) :
    ¬ (B.ref i = 1 ∧ B.orphaned i = true) := by
  rintro ⟨h1, ho⟩
  obtain ⟨-, n, hn, hnl⟩ := (orphaned_iff _ _).mp ho
  have hpos := hs i n (by rw [← h.view]; exact hn) hnl
  have hi := h.ref i
  rw [count_cons_self] at hi
  omega

theorem Extra.drop (h : Extra s B (i ::ₘ H)) (hs : s.NoOrphans) : Extra s (B.drop i) H := by
  have hi := h.ref i
  rw [count_cons_self] at hi
  have hlast : B.ref i = 1 ↔ (s.itable i).ref = 0 ∧ i ∉ H := by
    rw [← count_eq_zero]
    omega
  refine ⟨?_, fun j => ?_, fun j hj => ?_, ?_⟩
  · rw [← h.view]
    funext j
    rw [drop_view]
    exact if_neg (fun hc => h.kept hs hc.2)
  · rw [drop_ref, h.ref j, hi]
    by_cases hj : j = i
    · subst hj
      simp
    · simp [hj]
  · have hr := ref_of_loaded hj
    have hne : ¬ (j = i ∧ B.ref i = 1) := by
      rintro ⟨rfl, h1⟩
      omega
    rw [drop_loaded, if_neg hne]
    exact h.loaded j hj
  · have hin := h.inuse
    rw [card_entering_cons] at hin
    rw [drop_inuse]
    simp only [hlast]
    split_ifs at hin ⊢ with h1
    · omega
    · omega

theorem Holds.refl (h : Good start s) : Holds start s s 0 := ⟨Becomes.refl h, Extra.refl s⟩

theorem Holds.good (h : Holds start s t H) : Good start t := h.becomes.good

theorem Holds.step (h : Holds start s t H) (hb : Becomes start t u B) (hx : Extra s B H') :
    Holds start s u H' := by
  have hbu := h.becomes.trans hb
  rw [← hb.inodes] at hx hbu
  exact ⟨hbu, hx⟩

theorem Holds.view (h : Holds start s t H) : t.view = s.view := h.extra.view

theorem Holds.ref_pos (h : Holds start s t (i ::ₘ H)) : 1 ≤ (t.itable i).ref := by
  have hi : (t.itable i).ref = (s.itable i).ref + (i ::ₘ H).count i := h.extra.ref i
  rw [count_cons_self] at hi
  omega

theorem Holds.swap {j : Nat} (h : Holds start s t (i ::ₘ j ::ₘ H)) :
    Holds start s t (j ::ₘ i ::ₘ H) := by
  rw [cons_swap]
  exact h

variable {E : String → Prop}

theorem iput_holds (h : Holds start s t (i ::ₘ H)) (hs : s.NoOrphans) :
    Ends (iput i) t (fun _ u => Holds start s u H) E := by
  refine (iput_spec h.good h.ref_pos (fun ho h1 => ?_)).post
    (fun _ u hu => h.step hu (h.extra.drop hs))
  exact absurd ⟨h1, ho⟩ (h.extra.kept hs)

theorem iget_holds (h : Holds start s t H) (hroom : ninode ≤ t.inuse → E "iget: no inodes") :
    Ends (iget i) t (fun _ u => Holds start s u (i ::ₘ H)) E :=
  (iget_spec h.good (fun _ => hroom)).post (fun _ _ hu => h.step hu (h.extra.get i))

theorem typeOf_holds (h : Holds start s t (i ::ₘ H))
    (halloc : s.view i = none → E "ilock: no type") :
    Ends (typeOf i) t (fun r u => Holds start s u (i ::ₘ H) ∧
      ∃ n, s.view i = some n ∧ r = n.type) E := by
  rw [← h.view] at halloc ⊢
  have hpos := h.ref_pos
  refine (typeOf_spec h.good (fun h0 => by omega) halloc).post (fun r u hu => ?_)
  exact ⟨h.step hu.1 (h.extra.load i), hu.2⟩

theorem search_holds (h : Holds start s t (i ::ₘ H)) (name : Buffer)
    (halloc : s.view i = none → E "ilock: no type")
    (hfmt : ∀ n, s.view i = some n → n.type = tDir → ¬ n.Formatted → E "dirlookup read")
    (hroom : ninode ≤ t.inuse → E "iget: no inodes") :
    Ends (search i name) t (fun r u => Holds start s u (r.elim (i ::ₘ H) (i ::ₘ · ::ₘ H)) ∧
      ∃ n, s.view i = some n ∧ (n.type ≠ tDir → r = none) ∧ (n.type = tDir → n.Formatted →
        r = (lookup (dirents n.data) name).map Prod.fst)) E := by
  rw [← h.view] at halloc hfmt ⊢
  have hpos := h.ref_pos
  refine (search_spec h.good name (fun h0 => by omega) halloc hfmt hroom).post
    (fun r u hu => ⟨?_, hu.2⟩)
  rcases hu.1 with ⟨rfl, hb⟩ | ⟨j, rfl, hb⟩
  · exact h.step hb (h.extra.load i)
  · exact (h.step hb ((h.extra.load i).get j)).swap

end Rules

end Xv6
