import Mathlib.Data.List.TakeWhile
import Xv6.SysCalls
import Xv6.DirectoryMap

/-! Paths as lists of names. `skipelem` takes the first name of the list from a
path, whatever the slashes in it and the bytes that its buffer had before. -/

namespace Xv6

open CString List

def components (path : Buffer) : List Buffer :=
  (((path.takeWhile (· ≠ 0#8)).splitOn slash).filter (· ≠ [])).map (·.take dirsiz)

def descend (A : Inodes) (i : Nat) (name : Buffer) : Option Nat :=
  (A.view i).bind (fun n =>
    if n.type = tDir then (lookup (dirents n.data) name).map Prod.fst else none)

def resolve (A : Inodes) (i : Nat) (names : List Buffer) : Option Nat :=
  names.foldlM (descend A) i

section Components

theorem slash_ne_zero : slash ≠ 0#8 := by decide

theorem components_slash (path : Buffer) : components (slash :: path) = components path := by
  unfold components
  rw [takeWhile_cons_of_pos (by simpa using slash_ne_zero),
    splitOn_cons_eq_if_modifyHead, if_pos (by simp)]
  rfl

theorem components_dropWhile (path : Buffer) :
    components (path.dropWhile (· = slash)) = components path := by
  induction path with
  | nil => rfl
  | cons c path ih =>
    by_cases hc : c = slash
    · rw [hc, dropWhile_cons_of_pos (by simp), ih, components_slash]
    · rw [dropWhile_cons_of_neg (by simpa using hc)]

theorem components_of_end {path : Buffer} (h : path.headD 0#8 = 0#8) : components path = [] := by
  cases path with
  | nil => rfl
  | cons c path =>
    rw [headD_cons] at h
    rw [h]
    rfl

theorem components_elem {s path : Buffer} (hs : ∀ c ∈ s, c ≠ slash ∧ c ≠ 0#8) (hne : s ≠ [])
    (hpath : path.headD 0#8 = slash ∨ path.headD 0#8 = 0#8) :
    components (s ++ path) = s.take dirsiz :: components path := by
  have htake : (s ++ path).takeWhile (· ≠ 0#8) = s ++ path.takeWhile (· ≠ 0#8) :=
    takeWhile_append_of_pos (fun c hc => by simpa using (hs c hc).2)
  have hsep : ∀ c ∈ s, (c == slash) = false := fun c hc => by simpa using (hs c hc).1
  rcases hpath with hslash | hend
  · obtain ⟨q, rfl⟩ : ∃ q, path = slash :: q := by
      cases path with
      | nil => simp [slash] at hslash
      | cons c q => exact ⟨q, by rw [headD_cons] at hslash; rw [hslash]⟩
    rw [components_slash]
    unfold components
    rw [htake, takeWhile_cons_of_pos (by simpa using slash_ne_zero),
      splitOn_append_cons_of_forall_mem_beq_eq_false hsep slash (by simp),
      filter_cons_of_pos (by simpa using hne), map_cons]
  · have hnil : path.takeWhile (· ≠ 0#8) = [] := by
      cases path with
      | nil => rfl
      | cons c q =>
        rw [headD_cons] at hend
        simp [hend]
    rw [components_of_end hend]
    unfold components
    rw [htake, hnil, append_nil, splitOn_eq_singleton_of_beq_eq_false hsep,
      filter_cons_of_pos (by simpa using hne)]
    rfl

theorem nameKey_elem {s : Buffer} (hs : ∀ c ∈ s, c ≠ 0#8) (name : Buffer) :
    nameKey (if dirsiz ≤ s.length then s.take dirsiz else s ++ 0#8 :: name) = s.take dirsiz := by
  unfold nameKey text
  split_ifs with hlen
  · rw [take_take, min_self]
    refine takeWhile_eq_self_iff.mpr (fun c hc => ?_)
    simpa using hs c (mem_of_mem_take hc)
  · have hlt : s.length < dirsiz := not_le.mp hlen
    obtain ⟨k, hk⟩ : ∃ k, dirsiz - s.length = k + 1 := ⟨dirsiz - s.length - 1, by omega⟩
    rw [take_append, take_of_length_le hlt.le, hk, take_succ_cons,
      takeWhile_append_of_pos (fun c hc => by simpa using hs c hc),
      takeWhile_cons_of_neg (by simp), append_nil]

theorem headD_dropWhile (path : Buffer) : (path.dropWhile (· = slash)).headD 0#8 ≠ slash := by
  induction path with
  | nil => exact slash_ne_zero.symm
  | cons c path ih =>
    by_cases hc : c = slash
    · rw [hc, dropWhile_cons_of_pos (by simp)]
      exact ih
    · rw [dropWhile_cons_of_neg (by simpa using hc)]
      exact hc

theorem split_elem {path : Buffer} (hs : path.headD 0#8 ≠ slash) (h0 : path.headD 0#8 ≠ 0#8) :
    ∃ s rest, path.takeWhile (fun c => c ≠ slash ∧ c ≠ 0#8) = s ∧ path.drop s.length = rest ∧
      s ≠ [] ∧ (∀ c ∈ s, c ≠ slash ∧ c ≠ 0#8) ∧ path.length = s.length + rest.length ∧
      components path = s.take dirsiz :: components rest := by
  have hmem : ∀ c ∈ path.takeWhile (fun c => c ≠ slash ∧ c ≠ 0#8), c ≠ slash ∧ c ≠ 0#8 :=
    fun c hc => by simpa using mem_takeWhile_imp hc
  have hsplit := takeWhile_append_dropWhile (p := fun c => c ≠ slash ∧ c ≠ 0#8) (l := path)
  have hne : path.takeWhile (fun c => c ≠ slash ∧ c ≠ 0#8) ≠ [] := by
    cases path with
    | nil => exact absurd rfl h0
    | cons c path =>
      rw [headD_cons] at hs h0
      rw [takeWhile_cons_of_pos (by simp [hs, h0])]
      exact cons_ne_nil _ _
  have hrest : (path.dropWhile (fun c => c ≠ slash ∧ c ≠ 0#8)).headD 0#8 = slash ∨
      (path.dropWhile (fun c => c ≠ slash ∧ c ≠ 0#8)).headD 0#8 = 0#8 := by
    cases hd : path.dropWhile (fun c => c ≠ slash ∧ c ≠ 0#8) with
    | nil => exact .inr rfl
    | cons c q =>
      have hc := head_dropWhile_not (fun c => decide (c ≠ slash ∧ c ≠ 0#8)) (l := path)
        (by rw [hd]; exact cons_ne_nil _ _)
      simp only [hd, head_cons] at hc
      rw [headD_cons]
      have hn : ¬ (c ≠ slash ∧ c ≠ 0#8) := of_decide_eq_false hc
      tauto
  have hdrop : path.drop (path.takeWhile (fun c => c ≠ slash ∧ c ≠ 0#8)).length =
      path.dropWhile (fun c => c ≠ slash ∧ c ≠ 0#8) := by
    have h := congrArg (drop (path.takeWhile (fun c => c ≠ slash ∧ c ≠ 0#8)).length) hsplit
    rw [drop_left] at h
    exact h.symm
  refine ⟨_, _, rfl, hdrop, hne, hmem, ?_, ?_⟩
  · rw [← length_append, hsplit]
  · rw [← components_elem hmem hne hrest, hsplit]

theorem components_eq_nil {path : Buffer} (h : path.headD 0#8 ≠ slash) :
    components path = [] ↔ path.headD 0#8 = 0#8 := by
  refine ⟨fun hnil => ?_, components_of_end⟩
  by_contra h0
  obtain ⟨s, rest, -, -, -, -, -, hc⟩ := split_elem h h0
  rw [hc] at hnil
  exact cons_ne_nil _ _ hnil

theorem skipelem_eq_none {path name : Buffer} (h : skipelem path name = none) :
    components path = [] := by
  unfold skipelem at h
  dsimp only at h
  split_ifs at h with hend
  rw [← components_dropWhile]
  exact components_of_end hend

theorem skipelem_eq_some {path name rest name' : Buffer}
    (h : skipelem path name = some (rest, name')) :
    components path = nameKey name' :: components rest ∧ rest.length < path.length ∧
      rest.headD 0#8 ≠ slash := by
  unfold skipelem at h
  dsimp only at h
  split_ifs at h with hend hlen
  all_goals
    obtain ⟨rfl, rfl⟩ := Prod.mk.inj (Option.some.inj h)
    obtain ⟨s, rest, hs, hr, hne, hmem, hsize, hc⟩ := split_elem (headD_dropWhile path) hend
    have hkey := nameKey_elem (fun c hc => (hmem c hc).2) (name.drop (s.length + 1))
    simp only [hs, hr] at hlen ⊢
    have hpath : (path.dropWhile (· = slash)).length ≤ path.length :=
      (dropWhile_sublist _).length_le
    have hrest : (rest.dropWhile (· = slash)).length ≤ rest.length :=
      (dropWhile_sublist _).length_le
    have hpos := length_pos_iff.mpr hne
    refine ⟨?_, by omega, headD_dropWhile rest⟩
    rw [← components_dropWhile path, hc, components_dropWhile]
  · rw [if_pos hlen] at hkey
    rw [hkey]
  · rw [if_neg hlen] at hkey
    rw [hkey]

end Components

end Xv6
