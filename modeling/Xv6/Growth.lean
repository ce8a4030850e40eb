import Xv6.AddressSpace

/-! An address space grows and shrinks: `uvmalloc`, `uvmdealloc` and page faults. -/

namespace Xv6.Vm

open Fallible

def Dense (s : Ram) (root sz : Nat) : Prop :=
  ∀ k, k * pgsize < sz → s.cell root (slotOf (k * pgsize)) ≠ none

section Growth

variable {all : Nat → Prop} {s t u : Ram} {root mem sz sz' va k n a oldsz newsz : Nat}
  {perm xperm : Pte} {v : Page} {write : Nat → VmM Unit} {cells : Slot → Option Cell}
  {E : String → Prop}

theorem zeroFill_run (mem : Nat) (u : Ram) :
    zeroFill mem u = .ok ((), { u with page := Function.update u.page mem zeroPage }) := rfl

theorem User.mapNew (h : User all root sz s) (hva : va % pgsize = 0) (hsz : sz ≤ sz')
    (hroom : ∀ mem, all mem → ¬ s.busy all mem → va < sz' ∧ sz' ≤ trapframe)
    (hfree : ∀ mem, all mem → ¬ s.busy all mem → s.cell root (slotOf va) = none)
    (hperm : perm.toNat < 2 ^ 10)
    (hwrite : ∀ mem u, ¬ s.busy all mem → (∀ b, s.others all root b → u.page b = s.page b) →
      write mem u = .ok ((), { u with page := Function.update u.page mem v })) :
    Ends (mapNew root va perm write) s (fun r t =>
      (r = none ∧ s.failures < t.failures ∧ Became all root s t sz (s.cell root)) ∨
      ∃ mem, r = some mem ∧ all mem ∧ ¬ s.busy all mem ∧
        t.map root (slotOf va) = some (pa2pte mem ||| perm ||| pteV) ∧
        Became all root s t sz' (Function.update (s.cell root) (slotOf va)
          (some ⟨perm ||| pteV, v.byte⟩))) E := by
  have hmap : ∀ mem, all mem → ¬ s.busy all mem → s.map root (slotOf va) = none := by
    intro mem hall hidle
    obtain ⟨hlt, hsz'⟩ := hroom mem hall hidle
    rw [← Ram.cell_eq_none (isUser_slotOf hva (by omega))]
    exact hfree mem hall hidle
  have hbound : ∀ mem, all mem → ¬ s.busy all mem → va + pgsize ≤ maxva := by
    intro mem hall hidle
    obtain ⟨hlt, hsz'⟩ := hroom mem hall hidle
    have hpage := page_room hva (by omega)
    rw [maxva_eq, trampoline_eq]
    omega
  refine (h.table.mapNew hva hbound hmap hwrite).post ?_
  rintro r t (⟨rfl, hlt, ht⟩ | ⟨mem, rfl, hall, hidle, hpage, ht⟩)
  · exact .inl ⟨rfl, hlt, h.grown ht⟩
  · obtain ⟨hlt, hsz'⟩ := hroom mem hall hidle
    refine .inr ⟨mem, rfl, hall, hidle, ?_, ?_⟩
    · rw [ht.mapped, Function.update_self]
    · rw [← hpage]
      exact h.enter hall hidle hva hlt hsz hsz' (hmap mem hall hidle) hperm ht

theorem i32_pages (h : n * pgsize ≤ trapframe) : (i32 n % 2 ^ 64).toNat = n := by
  rw [trapframe_val] at h
  simp only [pgsize] at h
  rw [i32, Int.bmod_eq_of_le (by omega) (by omega), Int.emod_eq_of_lt (by omega) (by omega)]
  rfl

theorem Became.resize (h : Became all root s t sz cells) (hsz : sz' ≤ trapframe)
    (hlow : ∀ k, k * pgsize < sz → cells (slotOf (k * pgsize)) ≠ none → k * pgsize < sz') :
    Became all root s t sz' cells :=
  ⟨h.user.resize hsz (fun k hk hcell => hlow k hk (h.cell ▸ hcell)), h.within, h.cell⟩

theorem User.uvmdealloc (h : User all root sz s) (hlt : newsz < sz) :
    Ends (uvmdealloc root sz newsz) s (fun r t => r = newsz ∧
      Became all root s t newsz (overlay (fun _ => none)
        ((pgroundup sz - pgroundup newsz) / pgsize) (pgroundup newsz) (s.cell root))) E := by
  have hsize := h.size
  have hmax : trapframe < 2 ^ 39 := by decide
  obtain ⟨holdm, -, -, holdt⟩ := pgroundup_spec hsize
  have hnewt : newsz ≤ trapframe := by omega
  obtain ⟨hnewm, -, -, -⟩ := pgroundup_spec hnewt
  have hpages : (pgroundup sz - pgroundup newsz) / pgsize * pgsize =
      pgroundup sz - pgroundup newsz := by
    refine Nat.div_mul_cancel (Nat.dvd_sub ?_ ?_)
    · exact Nat.dvd_of_mod_eq_zero holdm
    · exact Nat.dvd_of_mod_eq_zero hnewm
  -- a page that is left lies below the new size
  have hleft : ∀ k, k * pgsize < sz → overlay (fun _ => none)
      ((pgroundup sz - pgroundup newsz) / pgsize) (pgroundup newsz) (s.cell root)
      (slotOf (k * pgsize)) ≠ none → k * pgsize < newsz := by
    intro k hk hcell
    by_contra hnew
    have hlow := (lt_pgroundup hnewt (mul_pgsize_mod k)).not.mpr hnew
    have hhigh := (lt_pgroundup hsize (mul_pgsize_mod k)).mpr hk
    refine hcell ?_
    rw [overlay_apply hnewm (mul_pgsize_mod k) (by omega) (by omega), if_pos (by omega)]
  rw [Vm.uvmdealloc, if_neg (by omega)]
  split_ifs with hgap
  · dsimp only
    rw [i32_pages (by omega)]
    refine (h.unmap hnewm (by omega)).bind ?_
    exact fun _ t ht => Ends.pure ⟨rfl, ht.resize (by omega) hleft⟩
  · have hzero : (pgroundup sz - pgroundup newsz) / pgsize = 0 := by
      rw [Nat.sub_eq_zero_of_le (not_lt.mp hgap), Nat.zero_div]
    rw [hzero] at hleft ⊢
    exact Ends.pure ⟨rfl, h.became.resize (by omega) hleft⟩

theorem pgroundup_of_aligned (hva : va % pgsize = 0) (hle : va ≤ trapframe) :
    pgroundup va = va := by
  rw [trapframe_val] at hle
  simp only [pgroundup, pgsize, u64] at hva ⊢
  omega

def zeroCell (xperm : Pte) : Cell := ⟨pteR ||| pteU ||| xperm ||| pteV, zeroPage.byte⟩

theorem or_perm_lt {p q : Pte} (hp : p.toNat < 2 ^ 10) (hq : q.toNat < 2 ^ 10) :
    (p ||| q).toNat < 2 ^ 10 := by
  rw [BitVec.toNat_or]
  exact Nat.or_lt_two_pow hp hq

theorem User.cell_above (h : User all root sz s) (hsz : sz ≤ va) (hva : va % pgsize = 0)
    (hlt : va < 2 ^ 39) : s.cell root (slotOf va) = none := by
  unfold Ram.cell
  split_ifs with hv
  · cases hpte : s.map root (slotOf va) with
    | none => rfl
    | some pte =>
      obtain ⟨k, hk, hslot⟩ := h.low _ pte hv hpte
      have heq := slotOf_inj hva (mul_pgsize_mod k) hlt (by omega) hslot
      omega
  · rfl

theorem overlay_undo {f : Nat → Option Cell} (ha : a % pgsize = 0)
    (hbound : a + n * pgsize ≤ 2 ^ 39) (hnone : ∀ k < n, cells (slotOf (a + k * pgsize)) = none) :
    overlay (fun _ => none) n a (overlay f n a cells) = cells := by
  funext w
  by_cases hw : ∃ k < n, w = slotOf (a + k * pgsize)
  · obtain ⟨k, hk, rfl⟩ := hw
    rw [overlay_at ha hbound hk, hnone k hk]
  · have hout : ∀ k < n, w ≠ slotOf (a + k * pgsize) := fun k hk he => hw ⟨k, hk, he⟩
    rw [overlay_of_ne hout, overlay_of_ne hout]

theorem User.allocLoop {fuel : Nat} (hs : User all root a s) (ha : a % pgsize = 0)
    (hperm : xperm.toNat < 2 ^ 10)
    (hu : Became all root s u (a + k * pgsize)
      (overlay (fun _ => some (zeroCell xperm)) k a (s.cell root)))
    (hfit : newsz ≤ trapframe)
    (hfuel : newsz ≤ a + k * pgsize + fuel * pgsize)
    (hlast : k = 0 ∨ a + k * pgsize < newsz + pgsize) :
    Ends (allocLoop root a newsz xperm fuel (a + k * pgsize)) u (fun r t =>
      (r = newsz ∧ ∃ n, newsz ≤ a + n * pgsize ∧ (n = 0 ∨ a + n * pgsize < newsz + pgsize) ∧
        Became all root s t (a + n * pgsize)
          (overlay (fun _ => some (zeroCell xperm)) n a (s.cell root))) ∨
      (r = 0 ∧ s.failures < t.failures ∧ Became all root s t a (s.cell root))) E := by
  have hsize := hu.user.size
  have hmax : trapframe < 2 ^ 39 := by decide
  induction fuel generalizing k u with
  | zero =>
    rw [Vm.allocLoop, if_neg (by omega)]
    exact Ends.pure (.inl ⟨rfl, k, by omega, hlast, hu⟩)
  | succ fuel ih =>
    rw [Vm.allocLoop]
    split_ifs with hlt
    · have halign : (a + k * pgsize) % pgsize = 0 := by simpa using ha
      have htop := page_room halign (by omega)
      have hpermU : (pteR ||| pteU ||| xperm).toNat < 2 ^ 10 := or_perm_lt (by decide) hperm
      refine (hu.user.mapNew halign (Nat.le_add_right _ pgsize)
        (fun _ _ _ => ⟨Nat.lt_add_of_pos_right (by decide), htop⟩) (fun _ _ _ => ?_) hpermU
        (fun mem w _ _ => zeroFill_run mem w)).bind ?_
      · exact hu.user.cell_above le_rfl halign (by omega)
      · rintro r w (⟨rfl, hfail, hw⟩ | ⟨mem, rfl, hall, hidle, -, hw⟩)
        · -- what has been added is removed again
          have hsw := hu.trans hw
          have hless : s.failures < w.failures := lt_of_le_of_lt hu.within.failures hfail
          have hnone : ∀ j < k, s.cell root (slotOf (a + j * pgsize)) = none := by
            intro j hj
            have hjk : j * pgsize < k * pgsize := Nat.mul_lt_mul_of_pos_right hj (by decide)
            exact hs.cell_above (by omega) (by simpa using ha) (by omega)
          by_cases hk : k = 0
          · rw [hk, zero_mul, add_zero] at hsw
            rw [hu.cell, hk] at hsw
            rw [Vm.uvmdealloc, if_pos (by rw [hk]; omega)]
            exact Ends.bind_ok (a := a + k * pgsize) (t := w) rfl
              (Ends.pure (.inr ⟨rfl, hless, hsw⟩))
          · have hpos : 0 < k * pgsize := Nat.mul_pos (Nat.pos_of_ne_zero hk) (by decide)
            refine (hw.user.uvmdealloc (by omega)).bind ?_
            rintro r x ⟨-, hx⟩
            refine Ends.pure (.inr ⟨rfl, lt_of_lt_of_le hless hx.within.failures, ?_⟩)
            rw [pgroundup_of_aligned halign hsize, pgroundup_of_aligned ha (by omega),
              Nat.add_sub_cancel_left, Nat.mul_div_cancel _ (by decide), hw.cell, hu.cell,
              overlay_undo ha (by omega) hnone] at hx
            exact hsw.trans hx
        · have hsw := hu.trans hw
          have hshift : a + k * pgsize + pgsize = a + (k + 1) * pgsize := by ring
          have hcells : Function.update (u.cell root) (slotOf (a + k * pgsize))
              (some ⟨pteR ||| pteU ||| xperm ||| pteV, zeroPage.byte⟩) =
              overlay (fun _ => some (zeroCell xperm)) (k + 1) a (s.cell root) := by
            rw [hu.cell, overlay_succ]
            rfl
          have hnext : u64 (a + k * pgsize + pgsize) = a + (k + 1) * pgsize := by
            rw [hshift]
            exact Nat.mod_eq_of_lt (by omega)
          rw [hcells, hshift] at hsw
          dsimp only
          rw [hnext]
          refine ih hsw ?_ (.inr (by omega)) hsw.user.size
          rw [Nat.add_mul, one_mul] at hfuel ⊢
          omega
    · exact Ends.pure (.inl ⟨rfl, k, by omega, hlast, hu⟩)

theorem User.uvmalloc (h : User all root sz s) (hperm : xperm.toNat < 2 ^ 10)
    (hfit : newsz ≤ trapframe) :
    Ends (uvmalloc root sz newsz xperm) s (fun r t =>
      (newsz < sz ∧ r = sz ∧ t = s) ∨
      (sz ≤ newsz ∧ r = newsz ∧ ∃ n, newsz ≤ pgroundup sz + n * pgsize ∧
        pgroundup sz + n * pgsize ≤ trapframe ∧ Became all root s t newsz
          (overlay (fun _ => some (zeroCell xperm)) n (pgroundup sz) (s.cell root))) ∨
      (r = 0 ∧ s.failures < t.failures ∧ Became all root s t sz (s.cell root))) E := by
  obtain ⟨halign, hle, -, htop⟩ := pgroundup_spec h.size
  have hsize := h.size
  rw [Vm.uvmalloc]
  split_ifs with hlt
  · exact Ends.pure (.inl ⟨hlt, rfl, rfl⟩)
  have hup : User all root (pgroundup sz) s := h.resize htop (fun k hk _ => by omega)
  have hdown : ∀ k, k * pgsize < pgroundup sz → k * pgsize < sz := fun k hk =>
    (lt_pgroundup hsize (mul_pgsize_mod k)).mp hk
  have hfuel : newsz ≤ pgroundup sz + 0 * pgsize +
      ((newsz - pgroundup sz) / pgsize + 1) * pgsize := by
    have hmod := Nat.div_add_mod' (newsz - pgroundup sz) pgsize
    have hrem := Nat.mod_lt (newsz - pgroundup sz) (show 0 < pgsize by decide)
    rw [Nat.add_mul, one_mul]
    omega
  have hloop := hup.allocLoop (E := E) (u := s) (k := 0) halign hperm
    (by rw [zero_mul, add_zero]; exact hup.became)
    hfit hfuel (.inl rfl)
  rw [zero_mul, add_zero] at hloop
  refine hloop.post ?_
  rintro r t (⟨rfl, n, hn, hlast, ht⟩ | ⟨rfl, hfail, ht⟩)
  · refine .inr (.inl ⟨not_lt.mp hlt, rfl, n, hn, ht.user.size, ht.resize hfit ?_⟩)
    · intro k hk _
      rcases hlast with rfl | hlast
      · have hkz := hdown k (by simpa using hk)
        omega
      · have hkm := mul_pgsize_mod k
        have hnm : (pgroundup sz + n * pgsize) % pgsize = 0 := by simpa using halign
        simp only [pgsize] at hkm hnm hk hlast ⊢
        omega
  · exact .inr (.inr ⟨rfl, hfail, ht.resize hsize (fun k hk _ => hdown k hk)⟩)

theorem pgrounddown_spec (va : Nat) : pgrounddown va % pgsize = 0 ∧ pgrounddown va ≤ va ∧
    va < pgrounddown va + pgsize := by
  simp only [pgrounddown, pgsize]
  omega

theorem ismapped_run (hva : va < maxva) :
    ismapped root va s = .ok ((s.map root (slotOf va)).isSome, s) := by
  refine leaf_run Option.isSome hva rfl (fun pte => ?_)
  rw [present]
  split_ifs with hv
  · rw [decide_eq_true hv]
    rfl
  · rw [decide_eq_false hv]
    rfl

def faultCell : Cell := ⟨pteW ||| pteU ||| pteR ||| pteV, zeroPage.byte⟩

theorem User.vmfault {p : Task} (h : User all root sz s) (hp : p.pagetable = root)
    (hsz : p.sz = sz) : Ends (vmfault p root va) s (fun r t =>
      (r = 0 ∧ Became all root s t sz (s.cell root) ∧
        ((sz ≤ va ∨ s.cell root (slotOf (pgrounddown va)) ≠ none) ∧ t = s ∨
        va < sz ∧ s.cell root (slotOf (pgrounddown va)) = none ∧ s.failures < t.failures)) ∨
      (all r ∧ va < sz ∧ s.cell root (slotOf (pgrounddown va)) = none ∧
        t.map root (slotOf (pgrounddown va)) =
          some (pa2pte r ||| (pteW ||| pteU ||| pteR) ||| pteV) ∧
        Became all root s t sz (Function.update (s.cell root) (slotOf (pgrounddown va))
          (some faultCell)))) E := by
  have hsize := h.size
  obtain ⟨halign, hle, -⟩ := pgrounddown_spec va
  rw [Vm.vmfault, hp, hsz]
  split_ifs with hva
  · exact Ends.pure (.inl ⟨rfl, h.became, .inl ⟨.inl hva, rfl⟩⟩)
  have huser : isUser (slotOf (pgrounddown va)) := isUser_slotOf halign (by omega)
  refine Ends.bind_ok (ismapped_run (by rw [maxva_eq, trampoline_eq]; omega)) ?_
  by_cases hmap : s.map root (slotOf (pgrounddown va)) = none
  · rw [if_neg (by simp [hmap])]
    have hcell : s.cell root (slotOf (pgrounddown va)) = none := (Ram.cell_eq_none huser).mpr hmap
    refine (h.mapNew halign le_rfl (fun _ _ _ => ⟨by omega, hsize⟩) (fun _ _ _ => hcell) (by decide)
      (fun mem w _ _ => zeroFill_run mem w)).bind ?_
    rintro r t (⟨rfl, hfail, ht⟩ | ⟨mem, rfl, hall, -, hmem, ht⟩)
    · exact Ends.pure (.inl ⟨rfl, ht, .inr ⟨not_le.mp hva, hcell, hfail⟩⟩)
    · exact Ends.pure (.inr ⟨hall, not_le.mp hva, hcell, hmem, ht⟩)
  · rw [if_pos (by simpa [Option.isSome_iff_ne_none] using hmap)]
    refine Ends.pure (.inl ⟨rfl, h.became, .inl ⟨.inr ?_, rfl⟩⟩)
    rwa [Ne, Ram.cell_eq_none huser]

theorem pa2pte_low {pa i : Nat} (hi : i < 10) : (pa2pte pa).getLsbD i = false := by
  rw [pa2pte, BitVec.getLsbD_shiftLeft]
  simp [hi]

end Growth

end Xv6.Vm
