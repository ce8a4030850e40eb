import Xv6.PageTable

/-! `mappages` and `uvmunmap` on the partial map that a page table stands for. -/

namespace Xv6.Vm

open Fallible Radix Function List Option

def overlay {β : Type} (entry : Nat → β) : Nat → Nat → (Slot → β) → Slot → β
  | 0, _, m => m
  | n + 1, a, m => overlay entry n (a + pgsize) (Function.update m (slotOf a) (entry a))

section Maps

variable {all own : Nat → Prop} {map : Slot → Option Pte} {s t : Ram} {root a b n : Nat}
  {va pa : Nat} {perm pte : Pte} {entry : Nat → Option Pte} {m : Slot → Option Pte}
  {E : String → Prop}

theorem maxva_lt : maxva < 2 ^ 39 := by decide

theorem overlay_of_ne {β : Type} {entry : Nat → β} {m : Slot → β} {v : Slot}
    (h : ∀ k < n, v ≠ slotOf (a + k * pgsize)) : overlay entry n a m v = m v := by
  induction n generalizing a m with
  | zero => rfl
  | succ n ih =>
    have hhead : v ≠ slotOf a := by simpa using h 0 (by omega)
    rw [overlay, ih, update_of_ne hhead]
    intro k hk
    have hnext := h (k + 1) (by omega)
    rwa [show a + (k + 1) * pgsize = a + pgsize + k * pgsize by ring] at hnext

theorem overlay_apply {β : Type} {entry : Nat → β} {m : Slot → β} (ha : a % pgsize = 0)
    (hb : b % pgsize = 0) (hlt : b < 2 ^ 39) (hbound : a + n * pgsize ≤ 2 ^ 39) : overlay entry n a m (slotOf b) =
      if a ≤ b ∧ b < a + n * pgsize then entry b else m (slotOf b) := by
  induction n generalizing a m with
  | zero => rw [overlay, if_neg (by omega)]
  | succ n ih =>
    have hsplit : a + (n + 1) * pgsize = a + pgsize + n * pgsize := by ring
    have hpos : 0 < pgsize := by decide
    rw [overlay, ih (by simpa using ha) (by omega)]
    by_cases hba : b = a
    · rw [hba, if_neg (by omega), if_pos (by omega), update_self]
    · have hne : slotOf b ≠ slotOf a := fun he => hba (slotOf_inj hb ha hlt (by omega) he)
      rw [update_of_ne hne, hsplit]
      by_cases hin : a + pgsize ≤ b ∧ b < a + pgsize + n * pgsize
      · rw [if_pos hin, if_pos (by omega)]
      · have hgap : ¬ (a < b ∧ b < a + pgsize) := by
          simp only [pgsize] at ha hb ⊢
          omega
        rw [if_neg hin, if_neg (by omega)]

theorem overlay_at {β : Type} {entry : Nat → β} {m : Slot → β} {k : Nat} (ha : a % pgsize = 0)
    (hbound : a + n * pgsize ≤ 2 ^ 39) (hk : k < n) :
    overlay entry n a m (slotOf (a + k * pgsize)) = entry (a + k * pgsize) := by
  have hlt : k * pgsize < n * pgsize := Nat.mul_lt_mul_of_pos_right hk (by decide)
  rw [overlay_apply ha (by simpa using ha) (by omega) hbound, if_pos (by omega)]

theorem overlay_succ {β : Type} (entry : Nat → β) (n a : Nat) (m : Slot → β) :
    overlay entry (n + 1) a m =
      update (overlay entry n a m) (slotOf (a + n * pgsize)) (entry (a + n * pgsize)) := by
  induction n generalizing a m with
  | zero => rw [zero_mul, add_zero, overlay, overlay, overlay]
  | succ n ih =>
    rw [overlay, ih, overlay, show a + pgsize + n * pgsize = a + (n + 1) * pgsize by ring]

theorem pa2pte_u64_add (x y : Nat) : pa2pte (u64 x + y) = pa2pte (x + y) := by
  have hbits : BitVec.ofNat 64 (u64 x + y) = BitVec.ofNat 64 (x + y) := by
    refine BitVec.eq_of_toNat_eq ?_
    rw [BitVec.toNat_ofNat, BitVec.toNat_ofNat, u64, Nat.mod_add_mod]
  rw [pa2pte, pa2pte, hbits]

theorem present_or_valid (pte : Pte) : present (pte ||| pteV) = some (pte ||| pteV) :=
  if_pos (valid_or pte)

theorem present_eq_map (slot : Nat × Fin 512) (hnode : s.node root (slotOf va).path = some slot.1)
    (hidx : slot.2 = px 0 va) :
    present ((s.page slot.1).pte slot.2) = s.map root (slotOf va) := by
  rw [Ram.map, hnode, hidx]
  rfl

theorem walk_mapped (hva : va < maxva) (hpte : s.map root (slotOf va) = some pte) :
    ∃ a, walk root va false s = .ok (some (a, px 0 va), s) ∧
      readPte (a, px 0 va) s = .ok (pte, s) ∧ s.node root (slotOf va).path = some a ∧
      pte &&& pteV ≠ 0 := by
  obtain ⟨a, ha, hentry⟩ := bind_eq_some_iff.mp hpte
  rw [Ram.entry, present] at hentry
  have hvalid : (s.page a).pte (slotOf va).2.2 &&& pteV ≠ 0 := fun hv => by simp [hv] at hentry
  rw [if_pos hvalid, some_inj] at hentry
  refine ⟨a, ?_, congrArg (fun x => Except.ok (x, s)) hentry, ha, hentry ▸ hvalid⟩
  rw [walk_false hva, ha, map_some]

theorem leaf_run {α : Type} {x : α} {f : Pte → VmM α} (g : Option Pte → α) (hva : va < maxva)
    (hx : g none = x) (hf : ∀ pte, f pte s = .ok (g (present pte), s)) :
    (do
      match ← walk root va false with
      | none => pure x
      | some slot => readPte slot >>= f : VmM α) s = .ok (g (s.map root (slotOf va)), s) := by
  rw [bind_ok (walk_false hva), Ram.map]
  cases s.node root (slotOf va).path with
  | none => exact congrArg (fun y => Except.ok (y, s)) hx.symm
  | some a => exact (bind_ok (a := (s.page a).pte (px 0 va)) (t := s) rfl).trans (hf _)

theorem Table.mapLoop {last : Nat} (h : Table all root s) (ha : a % pgsize = 0) (hn : n ≠ 0)
    (hbound : a + n * pgsize ≤ maxva) (hlast : last + pgsize = a + n * pgsize)
    (hfree : ∀ k < n, s.map root (slotOf (a + k * pgsize)) = none)
    (hentry : ∀ k < n, entry (a + k * pgsize) = some (pa2pte (pa + k * pgsize) ||| perm ||| pteV)) :
    Ends (mapLoop root last perm n a pa) s (fun r t => ∃ k,
      After all root s t (s.others all root) (overlay entry k a (s.map root)) ∧
      (r = true ∧ k = n ∨ r = false ∧ k < n ∧ s.failures < t.failures)) E := by
  induction n generalizing s a pa with
  | zero => exact absurd rfl hn
  | succ n ih =>
    have hpos : 0 < pgsize := by decide
    have hmax := maxva_lt
    have hsplit : a + (n + 1) * pgsize = a + pgsize + n * pgsize := by ring
    rw [Vm.mapLoop]
    refine (h.walk (by omega)).bind ?_
    rintro r t ⟨ht, hnone, hsome⟩
    cases r with
    | none => exact Ends.pure ⟨0, ht, .inr ⟨rfl, by omega, hnone rfl⟩⟩
    | some slot =>
      obtain ⟨hnode, hidx⟩ := hsome slot rfl
      have hpte := present_eq_map slot hnode hidx
      have hempty : s.map root (slotOf a) = none := by simpa using hfree 0 (by omega)
      rw [ht.mapped, hempty, present] at hpte
      have hinvalid : ¬ (t.page slot.1).pte slot.2 &&& pteV ≠ 0 := fun hv => by
        rw [if_pos hv] at hpte
        simp at hpte
      refine Ends.bind_ok (a := (t.page slot.1).pte slot.2) (t := t) rfl ?_
      rw [if_neg hinvalid, hidx]
      refine (ht.table.setPte (slotOf a) hnode).bind ?_
      intro _ u hu
      have hfirst : entry a = some (pa2pte pa ||| perm ||| pteV) := by
        simpa using hentry 0 (by omega)
      have hsu : After all root s u (s.others all root)
          (update (s.map root) (slotOf a) (entry a)) := by
        refine ht.trans (hu.congr (fun b => (ht.others b).symm) ?_) (fun _ hb _ => hb)
        rw [ht.mapped, present_or_valid, hfirst]
      split_ifs with hal
      · have hn0 : n = 0 := by
          have hzero : n * pgsize = 0 := by omega
          exact (Nat.mul_eq_zero.mp hzero).resolve_right hpos.ne'
        refine Ends.pure ⟨1, hsu, .inl ⟨rfl, by omega⟩⟩
      · have hn' : n ≠ 0 := by
          rintro rfl
          omega
        have hnext : u64 (a + pgsize) = a + pgsize := Nat.mod_eq_of_lt (by omega)
        have hshift : ∀ k, a + pgsize + k * pgsize = a + (k + 1) * pgsize := fun k => by ring
        rw [hnext]
        refine (ih hsu.table (by simpa using ha) hn' (by omega) (by omega) ?_ ?_).post ?_
        · intro k hk
          have hne : slotOf (a + (k + 1) * pgsize) ≠ slotOf a := by
            intro he
            have hk' : (k + 1) * pgsize ≤ n * pgsize := Nat.mul_le_mul_right _ hk
            have hka : 0 < (k + 1) * pgsize := Nat.mul_pos (Nat.succ_pos k) hpos
            have heq := slotOf_inj (by simpa using ha) ha (by omega) (by omega) he
            omega
          rw [hsu.mapped, hshift, update_of_ne hne]
          exact hfree (k + 1) (by omega)
        · intro k hk
          rw [hshift, hentry (k + 1) (by omega), pa2pte_u64_add,
            show pa + pgsize + k * pgsize = pa + (k + 1) * pgsize by ring]
        · rintro r w ⟨k, hw, hr⟩
          refine ⟨k + 1, hsu.trans (hw.congr (fun b => (hsu.others b).symm) ?_) (fun _ hb _ => hb),
            ?_⟩
          · rw [hsu.mapped]
            rfl
          · rcases hr with ⟨hr, hk⟩ | ⟨hr, hk, hlt⟩
            · exact .inl ⟨hr, by omega⟩
            · exact .inr ⟨hr, by omega, lt_of_le_of_lt hsu.failures hlt⟩

def framesOf (m : Slot → Option Pte) (a n : Nat) (b : Nat) : Prop :=
  ∃ k < n, (m (slotOf (a + k * pgsize))).map pte2pa = some b

/-- The pages of a range can be freed: they are in use, and each of them is there once. -/
structure Freeable (own : Nat → Prop) (m : Slot → Option Pte) (a n : Nat) : Prop where
  own : ∀ k < n, ∀ b, (m (slotOf (a + k * pgsize))).map pte2pa = some b → own b
  once : ∀ j < n, ∀ k < n, ∀ b, (m (slotOf (a + j * pgsize))).map pte2pa = some b →
    (m (slotOf (a + k * pgsize))).map pte2pa = some b → j = k

theorem Table.unmapPage {doFree : Bool} (h : Table all root s) (hva : va < maxva)
    (hown : doFree = true → ∀ b, (s.map root (slotOf va)).map pte2pa = some b →
      s.others all root b) :
    Ends (unmapPage root va doFree) s (fun _ t => After all root s t (fun b => s.others all root b ∧
        ¬ (doFree = true ∧ (s.map root (slotOf va)).map pte2pa = some b))
      (update (s.map root) (slotOf va) none)) E := by
  have hsame : s.map root (slotOf va) = none → After all root s s (fun b => s.others all root b ∧
        ¬ (doFree = true ∧ (s.map root (slotOf va)).map pte2pa = some b))
      (update (s.map root) (slotOf va) none) := fun hnone => by
    refine h.refl.congr (fun b => and_iff_left ?_) (update_eq_self_iff.mpr hnone.symm)
    rw [hnone]
    simp
  rw [Vm.unmapPage]
  refine Ends.bind_ok (walk_false hva) ?_
  cases hnode : s.node root (slotOf va).path with
  | none =>
    refine Ends.pure (hsame ?_)
    rw [Ram.map, hnode]
    rfl
  | some a =>
    have hpte := present_eq_map (a, px 0 va) hnode rfl
    refine Ends.bind_ok (a := (s.page a).pte (px 0 va)) (t := s) rfl ?_
    by_cases hv : (s.page a).pte (px 0 va) &&& pteV = 0
    · rw [if_pos hv]
      exact Ends.pure (hsame (hpte.symm.trans (if_neg (not_not.mpr hv))))
    · rw [if_neg hv]
      rw [present, if_pos hv] at hpte
      cases doFree with
      | false =>
        refine (h.setPte (slotOf va) hnode).post ?_
        intro _ t ht
        refine ht.congr (fun b => and_iff_left (fun hb => by simp at hb)) ?_
        rw [present_zero]
      | true =>
        have hpa : s.others all root (pte2pa ((s.page a).pte (px 0 va))) :=
          hown rfl _ (by rw [← hpte, map_some])
        refine (h.kfree hpa).bind ?_
        intro _ t ht
        refine (ht.table.setPte (slotOf va) (ht.nodes _ _ hnode)).post ?_
        intro _ u hu
        refine ht.trans (hu.congr (fun b => ?_) ?_) (fun b hb hb' => ⟨fun he => hb'.2 ⟨rfl, ?_⟩, hb⟩)
        · rw [ht.others b, ← hpte, map_some, some_inj]
          simp only [true_and, eq_comm (a := b), ne_eq]
          exact and_comm
        · rw [ht.mapped, present_zero]
        · rw [← hpte, map_some, he]

theorem Table.unmapLoop {doFree : Bool} {stop : Nat} (h : Table all root s) (ha : a % pgsize = 0)
    (hbound : a + n * pgsize ≤ maxva) (hstop : stop = a + n * pgsize)
    (hfree : doFree = true → Freeable (s.others all root) (s.map root) a n) :
    Ends (unmapLoop root stop doFree n a) s (fun _ t => After all root s t
      (fun b => s.others all root b ∧ ¬ (doFree = true ∧ framesOf (s.map root) a n b))
      (overlay (fun _ => none) n a (s.map root))) E := by
  induction n generalizing s a with
  | zero =>
    refine Ends.pure (h.refl.congr (fun b => and_iff_left ?_) rfl)
    rintro ⟨-, k, hk, -⟩
    omega
  | succ n ih =>
    have hpos : 0 < pgsize := by decide
    have hmax := maxva_lt
    have hsplit : a + (n + 1) * pgsize = a + pgsize + n * pgsize := by ring
    have hshift : ∀ k, a + pgsize + k * pgsize = a + (k + 1) * pgsize := fun k => by ring
    have hnext : u64 (a + pgsize) = a + pgsize := Nat.mod_eq_of_lt (by omega)
    have hhead : s.map root (slotOf (a + 0 * pgsize)) = s.map root (slotOf a) := by simp
    rw [Vm.unmapLoop, if_pos (by omega), hnext]
    refine (h.unmapPage (by omega) ?_).bind ?_
    · intro hd b hb
      exact (hfree hd).own 0 (by omega) b (hhead ▸ hb)
    intro _ t ht
    have hlater : ∀ k < n, t.map root (slotOf (a + pgsize + k * pgsize)) =
        s.map root (slotOf (a + (k + 1) * pgsize)) := by
      intro k hk
      have hne : slotOf (a + (k + 1) * pgsize) ≠ slotOf a := by
        intro he
        have hk' : (k + 1) * pgsize ≤ n * pgsize := Nat.mul_le_mul_right _ hk
        have hka : 0 < (k + 1) * pgsize := Nat.mul_pos (Nat.succ_pos k) hpos
        have heq := slotOf_inj (by simpa using ha) ha (by omega) (by omega) he
        omega
      rw [ht.mapped, hshift, update_of_ne hne]
    refine (ih ht.table (by simpa using ha) (by omega) (by omega) ?_).post ?_
    · intro hd
      constructor
      · intro k hk b hb
        rw [hlater k hk] at hb
        refine (ht.others b).mpr ⟨(hfree hd).own (k + 1) (by omega) b hb, fun hgone => ?_⟩
        have heq := (hfree hd).once 0 (by omega) (k + 1) (by omega) b (hhead ▸ hgone.2) hb
        omega
      · intro j hj k hk b hjb hkb
        rw [hlater j hj] at hjb
        rw [hlater k hk] at hkb
        have heq := (hfree hd).once (j + 1) (by omega) (k + 1) (by omega) b hjb hkb
        omega
    · intro _ u hu
      have hframes : ∀ b, framesOf (s.map root) a (n + 1) b ↔
          (s.map root (slotOf a)).map pte2pa = some b ∨ framesOf (t.map root) (a + pgsize) n b := by
        intro b
        constructor
        · rintro ⟨k, hk, hb⟩
          cases k with
          | zero => exact .inl (hhead ▸ hb)
          | succ k => exact .inr ⟨k, by omega, by rw [hlater k (by omega), hb]⟩
        · rintro (hb | ⟨k, hk, hb⟩)
          · exact ⟨0, by omega, by rw [hhead, hb]⟩
          · exact ⟨k + 1, by omega, by rw [← hlater k hk, hb]⟩
      refine ht.trans (hu.congr (fun b => ?_) ?_) (fun b hb hb' => ⟨hb, fun hgone => hb'.2
        ⟨hgone.1, (hframes b).mpr (.inl hgone.2)⟩⟩)
      · rw [ht.others b, hframes b, and_or_left, not_or, and_assoc]
      · rw [ht.mapped, overlay]

theorem Table.mappages (h : Table all root s) (pa : Nat) (perm : Pte)
    (entry : Nat → Option Pte) (hva : va % pgsize = 0) (hn : n ≠ 0)
    (hbound : va + n * pgsize ≤ maxva)
    (hfree : ∀ k < n, s.map root (slotOf (va + k * pgsize)) = none)
    (hentry : ∀ k < n, entry (va + k * pgsize) =
      some (pa2pte (pa + k * pgsize) ||| perm ||| pteV)) :
    Ends (mappages root va (n * pgsize) pa perm) s (fun r t => ∃ k,
      After all root s t (s.others all root) (overlay entry k va (s.map root)) ∧
      (r = true ∧ k = n ∨ r = false ∧ k < n ∧ s.failures < t.failures)) E := by
  have hpos : 0 < pgsize := by decide
  have hmax := maxva_lt
  have hsize : pgsize ≤ n * pgsize := Nat.le_mul_of_pos_left _ (Nat.pos_of_ne_zero hn)
  have hlast : u64 (va + n * pgsize - pgsize) = va + n * pgsize - pgsize :=
    Nat.mod_eq_of_lt (by omega)
  rw [Vm.mappages, if_neg (by omega), if_neg (by simp), if_neg (by omega), hlast,
    Nat.mul_div_cancel _ hpos]
  exact h.mapLoop hva hn hbound (by omega) hfree hentry

theorem Table.mapOne (h : Table all root s) (hva : va % pgsize = 0) (hbound : va + pgsize ≤ maxva)
    (hfree : s.map root (slotOf va) = none) :
    Ends (Vm.mappages root va pgsize pa perm) s (fun r t =>
      (r = true ∧ After all root s t (s.others all root)
        (update (s.map root) (slotOf va) (some (pa2pte pa ||| perm ||| pteV)))) ∨
      (r = false ∧ s.failures < t.failures ∧
        After all root s t (s.others all root) (s.map root))) E := by
  have hspec := h.mappages (E := E) (n := 1) pa perm
    (fun _ => some (pa2pte pa ||| perm ||| pteV)) hva one_ne_zero (by omega)
    (fun k hk => by rw [Nat.lt_one_iff.mp hk, zero_mul, add_zero, hfree])
    (fun k hk => by rw [Nat.lt_one_iff.mp hk, zero_mul, add_zero])
  rw [one_mul] at hspec
  refine hspec.post ?_
  rintro r t ⟨k, ht, ⟨hr, rfl⟩ | ⟨hr, hk, hlt⟩⟩
  · exact .inl ⟨hr, ht⟩
  · rw [Nat.lt_one_iff.mp hk] at ht
    exact .inr ⟨hr, hlt, ht⟩

theorem Table.uvmunmap {doFree : Bool} (h : Table all root s) (hva : va % pgsize = 0)
    (hbound : va + n * pgsize ≤ maxva)
    (hfree : doFree = true → Freeable (s.others all root) (s.map root) va n) :
    Ends (uvmunmap root va n doFree) s (fun _ t => After all root s t
      (fun b => s.others all root b ∧ ¬ (doFree = true ∧ framesOf (s.map root) va n b))
      (overlay (fun _ => none) n va (s.map root))) E := by
  have hmax := maxva_lt
  have hstop : u64 (va + n * pgsize) = va + n * pgsize := Nat.mod_eq_of_lt (by omega)
  rw [Vm.uvmunmap, if_neg (by omega), hstop]
  exact h.unmapLoop hva hbound rfl hfree

theorem Ram.node_zero (h : s.page root = zeroPage) (p : List (Fin 512)) :
    nodeAt s.child root p = if p = [] then some root else none := by
  induction p with
  | nil => rfl
  | cons i p ih =>
    rw [nodeAt, ih, if_neg (cons_ne_nil i p)]
    split_ifs with hp
    · rw [bind_some, Ram.child, Ram.entry, h]
      exact congrArg (Option.map pte2pa) present_zero
    · rfl

theorem uvmcreate_spec (h : Pool all s) : Ends uvmcreate s (fun r t =>
    (r = none ∧ Pool all t ∧ (∀ a, t.busy all a ↔ s.busy all a) ∧ t.page = s.page ∧
      s.failures < t.failures ∧ t.trampText = s.trampText) ∨
    ∃ root, r = some root ∧ ¬ s.busy all root ∧ all root ∧ Table all root t ∧
      t.map root = (fun _ => none) ∧ (∀ a, t.others all root a ↔ s.busy all a) ∧
      (∀ a, a ≠ root → t.page a = s.page a) ∧ t.failures = s.failures ∧ t.trampText = s.trampText) E := by
  rw [uvmcreate]
  refine (kalloc_spec s).bind ?_
  rintro r t (⟨rfl, rfl⟩ | ⟨root, rest, rfl, hl, rfl⟩)
  · exact Ends.pure (.inl ⟨rfl, h.congr rfl rfl rfl, fun _ => Iff.rfl, rfl, Nat.lt_succ_self _, rfl⟩)
  · refine Ends.modify_bind (Ends.pure (.inr ⟨root, rfl, ?_⟩))
    generalize ht : ({ s with
      calls := s.calls + 1
      freelist := rest
      page := _ } : Ram) = t
    have hmem : root ∈ s.freelist := hl ▸ mem_cons_self
    have hidle : ¬ s.busy all root := fun hb => hb.2 hmem
    have hnd := h.nodup
    rw [hl] at hnd
    have hzero : t.page root = zeroPage := by
      rw [← ht]
      exact update_self _ _ _
    have hpage : ∀ a, a ≠ root → t.page a = s.page a := by
      intro a ha
      rw [← ht]
      dsimp only
      rw [update_of_ne ha, update_of_ne ha]
    have hfree : t.freelist = rest := by rw [← ht]
    have hbusy : ∀ a, t.busy all a ↔ a = root ∨ s.busy all a := by
      intro a
      rw [Ram.busy, Ram.busy, hfree, hl, mem_cons]
      by_cases ha : a = root
      · exact iff_of_true ⟨ha ▸ h.sub root hmem, ha ▸ (nodup_cons.mp hnd).1⟩ (.inl ha)
      · simp only [ha, false_or]
    have hnode : ∀ p a, t.node root p = some a ↔ p = [] ∧ a = root := by
      intro p a
      by_cases hp : p = []
      · rw [hp]
        simp [Ram.node, nodeAt, eq_comm]
      · rw [Ram.node, Ram.node_zero hzero, if_neg hp]
        simp [hp]
    refine ⟨hidle, h.sub root hmem, ⟨?_, ?_, ?_, ?_⟩, ?_, ?_, hpage, by rw [← ht], by rw [← ht]⟩
    · rw [← ht]
      exact h.alloc hl rfl rfl rfl
    · intro p q a hp hq hpa hqa
      rw [← Ram.node_eq hp, hnode] at hpa
      rw [← Ram.node_eq hq, hnode] at hqa
      rw [hpa.1, hqa.1]
    · intro p a hp
      exact (hbusy a).mpr (.inl ((hnode p a).mp hp).2)
    · intro p a i pte _ hp hpte
      rw [((hnode p a).mp hp).2, Ram.entry, hzero] at hpte
      exact absurd (present_zero.symm.trans hpte) (by simp)
    · funext v
      have hnone : t.node root v.path = none := by
        rw [Slot.node_path, Ram.node_zero hzero]
        rfl
      rw [Ram.map, hnone]
      rfl
    · intro a
      have hno : (∀ p, t.node root p ≠ some a) ↔ a ≠ root := by
        constructor
        · exact fun hp ha => hp [] ((hnode [] a).mpr ⟨rfl, ha⟩)
        · exact fun ha p hp => ha ((hnode p a).mp hp).2
      rw [Ram.others, hno, hbusy]
      constructor
      · exact fun ha => ha.1.resolve_left ha.2
      · exact fun ha => ⟨.inr ha, fun he => hidle (he ▸ ha)⟩

/-- The entry for an address, if it is valid, as `walk` finds it. -/
def tableMap (s : Ram) (root va : Nat) : Option Pte :=
  match walk root va false s with
  | .ok (some slot, _) => present ((s.page slot.1).pte slot.2)
  | _ => none

theorem tableMap_eq (hva : va < maxva) : tableMap s root va = s.map root (slotOf va) := by
  rw [tableMap, walk_false hva, Ram.map]
  cases s.node root (slotOf va).path with
  | none => rfl
  | some a => rfl

/-- What the kernel does to a table, and to the pages besides it. -/
inductive TableOp where
  | map (va size pa : Nat) (perm : Pte)
  | unmap (va npages : Nat) (doFree : Bool)
  | take
  | give (pa : Nat)

def TableOp.run (root : Nat) : TableOp → VmM Unit
  | .map va size pa perm => do
    let _ ← Vm.mappages root va size pa perm
    pure ()
  | .unmap va npages doFree => Vm.uvmunmap root va npages doFree
  | .take => do
    let _ ← kalloc
    pure ()
  | .give pa => kfree pa

/-- A range of pages below the limit that are not mapped. -/
structure Mappable (s : Ram) (root va size : Nat) : Prop where
  start : va % pgsize = 0
  whole : size % pgsize = 0
  nonempty : size ≠ 0
  below : va + size ≤ maxva
  unmapped : ∀ b, b % pgsize = 0 → va ≤ b → b < va + size → tableMap s root b = none

/-- A range of pages below the limit whose pages can be freed, if they are to be. -/
structure Unmappable (all : Nat → Prop) (s : Ram) (root va npages : Nat) (doFree : Bool) :
    Prop where
  start : va % pgsize = 0
  below : va + npages * pgsize ≤ maxva
  free : doFree = true → Freeable (s.others all root) (s.map root) va npages

def TableOp.Proper (all : Nat → Prop) (root : Nat) (s : Ram) : TableOp → Prop
  | .map va size _ _ => Mappable s root va size
  | .unmap va npages doFree => Unmappable all s root va npages doFree
  | .take => True
  | .give pa => s.others all root pa

inductive TableRun (all : Nat → Prop) (root : Nat) : Ram → List TableOp → Ram → Prop where
  | nil (s : Ram) : TableRun all root s [] s
  | cons {s t u : Ram} {op : TableOp} {ops : List TableOp} (hproper : op.Proper all root s)
      (hop : op.run root s = .ok ((), t)) (hrest : TableRun all root t ops u) :
      TableRun all root s (op :: ops) u

theorem Mappable.pages {size : Nat} (h : Mappable s root va size) :
    size = size / pgsize * pgsize ∧ size / pgsize ≠ 0 ∧
      ∀ k < size / pgsize, s.map root (slotOf (va + k * pgsize)) = none := by
  have hpos : 0 < pgsize := by decide
  have hsize : size / pgsize * pgsize = size := Nat.div_mul_cancel (Nat.dvd_of_mod_eq_zero h.whole)
  refine ⟨hsize.symm, fun hz => h.nonempty (by rw [← hsize, hz, zero_mul]), fun k hk => ?_⟩
  have hlt : k * pgsize < size := by
    rw [← hsize]
    exact Nat.mul_lt_mul_of_pos_right hk hpos
  have hbelow := h.below
  rw [← tableMap_eq (by omega)]
  exact h.unmapped _ (by simpa using h.start) (by omega) (by omega)

theorem Table.mapped {size : Nat} (h : Table all root s) (pa : Nat) (perm : Pte)
    (hm : Mappable s root va size) : Ends (Vm.mappages root va size pa perm) s (fun r t => ∃ k,
      After all root s t (s.others all root)
        (overlay (fun b => some (pa2pte (pa + (b - va)) ||| perm ||| pteV)) k va (s.map root)) ∧
      (r = true ∧ k = size / pgsize ∨ r = false ∧ k < size / pgsize)) E := by
  obtain ⟨hsize, hn, hfree⟩ := hm.pages
  have hbound := hm.below
  rw [hsize] at hbound
  have hspec := h.mappages (E := E) pa perm
    (fun b => some (pa2pte (pa + (b - va)) ||| perm ||| pteV)) hm.start hn hbound hfree
    (fun k _ => by rw [Nat.add_sub_cancel_left])
  rw [← hsize] at hspec
  refine hspec.post ?_
  rintro r t ⟨k, ht, hr⟩
  exact ⟨k, ht, hr.imp_right (fun hr => ⟨hr.1, hr.2.1⟩)⟩

theorem Table.unmapped {doFree : Bool} (h : Table all root s)
    (hm : Unmappable all s root va n doFree) :
    Ends (Vm.uvmunmap root va n doFree) s (fun _ t => After all root s t
      (fun b => s.others all root b ∧ ¬ (doFree = true ∧ framesOf (s.map root) va n b))
      (overlay (fun _ => none) n va (s.map root))) E :=
  h.uvmunmap hm.start hm.below hm.free

theorem Table.step {op : TableOp} (h : Table all root s) (hproper : op.Proper all root s)
    (hop : op.run root s = .ok ((), t)) : Table all root t := by
  cases op with
  | map va size pa perm =>
    obtain ⟨r, u, hr, hu⟩ := bind_eq_ok hop
    obtain ⟨k, hafter, -⟩ := (h.mapped (E := fun _ => True) pa perm hproper).ok hr
    have htu : u = t := congrArg Prod.snd (Except.ok.inj hu)
    exact htu ▸ hafter.table
  | unmap va npages doFree => exact ((h.unmapped (E := fun _ => True) hproper).ok hop).table
  | take =>
    obtain ⟨r, u, hr, hu⟩ := bind_eq_ok hop
    have htu : u = t := congrArg Prod.snd (Except.ok.inj hu)
    rcases (h.kalloc (E := fun _ => True)).ok hr with ⟨-, hafter, -⟩ | ⟨a, -, -, -, hafter⟩
    · exact htu ▸ hafter.table
    · exact htu ▸ hafter.table
  | give pa => exact ((h.kfree (E := fun _ => True) hproper).ok hop).table

theorem TableRun.table {ops : List TableOp} (h : TableRun all root s ops t)
    (hs : Table all root s) : Table all root t := by
  induction h with
  | nil s => exact hs
  | cons hproper hop _ ih => exact ih (hs.step hproper hop)

/-- The page table is a partial map: in every table that has been built from
`uvmcreate`, `mappages` enters the range or a part of it from its start,
`uvmunmap` removes the range, and two pages never share an entry. -/
theorem page_table_refines_map (hpool : Pool all s) {t₀ : Ram}
    (hcreate : uvmcreate s = .ok (some root, t₀)) {ops : List TableOp}
    (hrun : TableRun all root t₀ ops t) :
    (∀ va size pa perm, Mappable t root va size → pa % pgsize = 0 → pa + size ≤ 2 ^ 64 →
      perm.toNat < 2 ^ 10 → ∃ r u k, Vm.mappages root va size pa perm t = .ok (r, u) ∧
        (r = true ∧ k = size / pgsize ∨ r = false ∧ k < size / pgsize) ∧
        ∀ b, b % pgsize = 0 → b < maxva →
          (va ≤ b ∧ b < va + k * pgsize → ∃ pte, tableMap u root b = some pte ∧
            pte2pa pte = pa + (b - va) ∧ pteFlags pte = perm ||| pteV) ∧
          (¬ (va ≤ b ∧ b < va + k * pgsize) → tableMap u root b = tableMap t root b)) ∧
    (∀ va npages doFree, Unmappable all t root va npages doFree →
      ∃ u, Vm.uvmunmap root va npages doFree t = .ok ((), u) ∧
        ∀ b, b % pgsize = 0 → b < maxva → tableMap u root b =
          if va ≤ b ∧ b < va + npages * pgsize then none else tableMap t root b) ∧
    (∀ va vb, va % pgsize = 0 → vb % pgsize = 0 → va < maxva → vb < maxva → va ≠ vb →
      ∀ slot slot', Vm.walk root va false t = .ok (some slot, t) →
        Vm.walk root vb false t = .ok (some slot', t) → slot ≠ slot') := by
  have hmax := maxva_lt
  have htable : Table all root t := by
    rcases (uvmcreate_spec (E := fun _ => True) hpool).ok hcreate with
      ⟨hr, -⟩ | ⟨_, hr, -, -, htable, -⟩
    · simp at hr
    · obtain rfl := some.inj hr
      exact hrun.table htable
  refine ⟨?_, ?_, ?_⟩
  · intro va size pa perm hm hpa hroom hperm
    obtain ⟨r, u, hr, k, hu, hk⟩ := (htable.mapped (E := fun _ => False) pa perm hm).returns
    obtain ⟨hsize, -, -⟩ := hm.pages
    have hkn : k * pgsize ≤ size := by
      rw [hsize]
      refine Nat.mul_le_mul_right _ ?_
      omega
    have hbelow := hm.below
    refine ⟨r, u, k, hr, hk, fun b hb hlt => ?_⟩
    rw [tableMap_eq hlt, tableMap_eq hlt, hu.mapped,
      overlay_apply hm.start hb (by omega) (by omega)]
    constructor
    · intro hin
      refine ⟨_, if_pos hin, ?_, ?_⟩
      · rw [BitVec.or_assoc]
        refine pte2pa_or ?_ (by omega) (or_valid_lt hperm)
        have hva := hm.start
        simp only [pgsize] at hpa hb hva ⊢
        omega
      · rw [BitVec.or_assoc]
        exact pteFlags_or (or_valid_lt hperm)
    · exact fun hout => if_neg hout
  · intro va n doFree hm
    obtain ⟨_, u, hr, hu⟩ := (htable.unmapped (E := fun _ => False) hm).returns
    have hbelow := hm.below
    refine ⟨u, hr, fun b hb hlt => ?_⟩
    rw [tableMap_eq hlt, tableMap_eq hlt, hu.mapped,
      overlay_apply hm.start hb (by omega) (by omega)]
  · intro va vb hva hvb hlta hltb hne slot slot' hslot hslot' heq
    rw [walk_false hlta] at hslot
    rw [walk_false hltb] at hslot'
    simp only [Except.ok.injEq, Prod.mk.injEq, and_true, map_eq_some_iff] at hslot hslot'
    obtain ⟨a, ha, rfl⟩ := hslot
    obtain ⟨b, hb, hb'⟩ := hslot'
    rw [← heq, Prod.mk.injEq] at hb'
    have hpath := htable.node_inj ha (hb'.1 ▸ hb)
    simp only [Slot.path, slotOf, cons.injEq, and_true] at hpath
    refine hne (slotOf_inj hva hvb (by omega) (by omega) ?_)
    exact Prod.ext hpath.2 (Prod.ext hpath.1 hb'.2.symm)

end Maps

def smallRam : Ram where
  page := fun _ => zeroPage
  freelist := [4096, 8192, 12288, 16384, 20480, 24576, 28672]
  kend := 4096
  phystop := 32768
  trampText := 0
  deny := fun _ => false
  calls := 0
  failures := 0

theorem smallRam_pool : Pool (fun a => a ∈ smallRam.freelist) smallRam where
  nodup := by decide
  sub _ := id
  page := by decide
  low := by decide
  high := by decide

/-- Two pages are mapped; then a third is added, the first is taken away again, and the
entries of the two are different. -/
theorem page_table_refines_map_twoPages : ∃ t₀ t u u', uvmcreate smallRam = .ok (some 4096, t₀) ∧
    TableRun (fun a => a ∈ smallRam.freelist) 4096 t₀ [.map 0 8192 28672 (pteR ||| pteU)] t ∧
    Vm.mappages 4096 8192 4096 28672 pteR t = .ok (true, u) ∧
    (∃ pte, tableMap u 4096 8192 = some pte ∧ pte2pa pte = 28672) ∧
    tableMap u 4096 0 = tableMap t 4096 0 ∧ uvmunmap 4096 0 1 false t = .ok ((), u') ∧
    tableMap u' 4096 0 = none ∧ tableMap u' 4096 4096 = tableMap t 4096 4096 ∧
    ∀ slot slot', Vm.walk 4096 0 false t = .ok (some slot, t) →
      Vm.walk 4096 4096 false t = .ok (some slot', t) → slot ≠ slot' := by
  obtain ⟨t₀, ht₀⟩ : ∃ t₀, uvmcreate smallRam = .ok (some 4096, t₀) := ⟨_, rfl⟩
  have hmap : Mappable t₀ 4096 0 8192 := by
    refine ⟨by decide, by decide, by decide, by decide, fun b hb _ hlt => ?_⟩
    have hb0 : b = 0 ∨ b = 4096 := by
      simp only [pgsize] at hb
      omega
    cases ht₀
    rcases hb0 with rfl | rfl <;> rfl
  obtain ⟨t, ht, hfree, hok⟩ : ∃ t, TableRun (fun a => a ∈ smallRam.freelist) 4096 t₀
      [.map 0 8192 28672 (pteR ||| pteU)] t ∧ tableMap t 4096 8192 = none ∧
      (Vm.mappages 4096 8192 4096 28672 pteR t).toOption.map Prod.fst = some true := by
    cases ht₀
    exact ⟨_, .cons hmap rfl (.nil _), rfl, rfl⟩
  obtain ⟨hmappages, hunmap, hwalk⟩ := page_table_refines_map smallRam_pool ht₀ ht
  have hmap' : Mappable t 4096 8192 4096 := by
    refine ⟨by decide, by decide, by decide, by decide, fun b hb hlow hlt => ?_⟩
    obtain rfl : b = 8192 := by
      simp only [pgsize] at hb
      omega
    exact hfree
  obtain ⟨r, u, k, hu, hr, hmapu⟩ := hmappages 8192 4096 28672 pteR hmap' (by decide) (by decide)
    (by decide)
  obtain ⟨u', hu', hmapu'⟩ := hunmap 0 1 false ⟨by decide, by decide, fun h => by simp at h⟩
  rw [hu] at hok
  obtain rfl : r = true := some.inj hok
  obtain rfl : k = 1 := (hr.resolve_right (fun hno => by simp at hno)).2
  obtain ⟨pte, hpte, hpa, -⟩ := (hmapu 8192 (by decide) (by decide)).1 (by decide)
  refine ⟨t₀, t, u, u', ht₀, ht, hu, ⟨pte, hpte, hpa⟩, (hmapu 0 (by decide) (by decide)).2 (by decide),
    hu', ?_, ?_, hwalk 0 4096 (by decide) (by decide) (by decide) (by decide) (by decide)⟩
  · rw [hmapu' 0 (by decide) (by decide), if_pos (by decide)]
  · rw [hmapu' 4096 (by decide) (by decide), if_neg (by decide)]

end Xv6.Vm
