import Mathlib.Tactic

/-! A single pass that keeps the best element seen so far finds the first
element of least key. -/

namespace FirstMin

open List

variable {α κ : Type*} [LinearOrder κ] (key : α → κ)

/-- The candidate after one more element: replaced only by a strictly smaller one. -/
def keep : Option α → α → Option α
  | none, x => some x
  | some b, x => if key x < key b then some x else some b

def firstMin (l : List α) : Option α := l.foldl (keep key) none

def IsFirstMin (l : List α) (b : α) : Prop :=
  ∃ l₁ l₂, l = l₁ ++ b :: l₂ ∧ (∀ x ∈ l₁, key b < key x) ∧ ∀ x ∈ l₂, key b ≤ key x

variable {key}

@[simp] theorem firstMin_nil : firstMin key [] = none := rfl

theorem firstMin_snoc (l : List α) (x : α) :
    firstMin key (l ++ [x]) = keep key (firstMin key l) x := by
  simp [firstMin, foldl_append]

theorem IsFirstMin.mem {l : List α} {b : α} (h : IsFirstMin key l b) : b ∈ l := by
  obtain ⟨l₁, l₂, rfl, _, _⟩ := h
  simp

theorem IsFirstMin.le {l : List α} {b x : α} (h : IsFirstMin key l b) (hx : x ∈ l) :
    key b ≤ key x := by
  obtain ⟨l₁, l₂, rfl, hl, hr⟩ := h
  rcases mem_append.mp hx with hx | hx
  · exact (hl x hx).le
  · rcases mem_cons.mp hx with rfl | hx
    · exact le_rfl
    · exact hr x hx

theorem IsFirstMin.snoc_ge {l : List α} {b x : α} (h : IsFirstMin key l b)
    (hx : key b ≤ key x) : IsFirstMin key (l ++ [x]) b := by
  obtain ⟨l₁, l₂, rfl, hl, hr⟩ := h
  refine ⟨l₁, l₂ ++ [x], by simp, hl, ?_⟩
  intro y hy
  rcases mem_append.mp hy with hy | hy
  · exact hr y hy
  · obtain rfl := mem_singleton.mp hy
    exact hx

theorem IsFirstMin.snoc_lt {l : List α} {b x : α} (h : IsFirstMin key l b)
    (hx : key x < key b) : IsFirstMin key (l ++ [x]) x :=
  ⟨l, [], rfl, fun _ hy => hx.trans_le (h.le hy), by simp⟩

theorem firstMin_cases (key : α → κ) (l : List α) :
    (l = [] ∧ firstMin key l = none) ∨ ∃ b, firstMin key l = some b ∧ IsFirstMin key l b := by
  induction l using reverseRecOn with
  | nil => exact .inl ⟨rfl, rfl⟩
  | append_singleton l x ih =>
    right
    rw [firstMin_snoc]
    rcases ih with ⟨rfl, hn⟩ | ⟨b, hb, hm⟩
    · exact ⟨x, by simp [keep], [], [], rfl, by simp, by simp⟩
    · rw [hb]
      by_cases hx : key x < key b
      · exact ⟨x, by simp [keep, hx], hm.snoc_lt hx⟩
      · exact ⟨b, by simp [keep, hx], hm.snoc_ge (not_lt.mp hx)⟩

theorem firstMin_eq_none {l : List α} : firstMin key l = none ↔ l = [] := by
  rcases firstMin_cases key l with ⟨hl, hn⟩ | ⟨b, hb, hm⟩
  · simp [hl]
  · have hl : l ≠ [] := ne_nil_of_mem hm.mem
    simp [hb, hl]

theorem firstMin_isFirstMin {l : List α} {b : α} (h : firstMin key l = some b) :
    IsFirstMin key l b := by
  rcases firstMin_cases key l with ⟨_, hn⟩ | ⟨c, hc, hm⟩
  · simp [hn] at h
  · obtain rfl : c = b := by simpa [hc] using h
    exact hm

theorem IsFirstMin.lex_lt {ι : Type*} [LinearOrder ι] {l : List α} {b x : α}
    (h : IsFirstMin key l b) (idx : α → ι) (hs : l.Pairwise (fun x y => idx x < idx y)) (hx : x ∈ l)
    (hne : idx x ≠ idx b) : toLex (key b, idx b) < toLex (key x, idx x) := by
  obtain ⟨l₁, l₂, rfl, hl, hr⟩ := h
  obtain ⟨-, hs₂, -⟩ := pairwise_append.mp hs
  rw [Prod.Lex.toLex_lt_toLex]
  rcases mem_append.mp hx with hx | hx
  · exact .inl (hl x hx)
  · rcases mem_cons.mp hx with rfl | hx
    · exact absurd rfl hne
    · rcases (hr x hx).lt_or_eq with hh | hh
      · exact .inl hh
      · exact .inr ⟨hh, (pairwise_cons.mp hs₂).1 x hx⟩

end FirstMin
