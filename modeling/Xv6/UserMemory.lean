import Xv6.ProcPagetable

/-! User memory as the user sees it: pages below the size that are not there yet
count as pages of zeros. -/

namespace Xv6.Vm

open Fallible Function Option BitVec

def Ram.view (s : Ram) (root sz k : Nat) : Option Cell :=
  if k * pgsize < maxva then
    (s.cell root (slotOf (k * pgsize))).or (if k * pgsize < sz then some faultCell else none)
  else none

abbrev View := Nat → Option Cell

def userPage (m : View) (va : Nat) : Option Cell :=
  (m (va / pgsize)).filter (fun c => c.flags &&& pteU ≠ 0)

def Missing (s : Ram) (root sz k : Nat) : Prop :=
  k * pgsize < sz ∧ s.cell root (slotOf (k * pgsize)) = none

/-- No page gets lost, and there is no failure without a missing page. -/
structure Brings (root sz : Nat) (s t : Ram) : Prop where
  missing : ∀ k, Missing t root sz k → Missing s root sz k
  failures : s.failures < t.failures → ∃ k, Missing s root sz k

/-- Missing pages may have been brought in; the user sees no difference. -/
structure Unseen (all : Nat → Prop) (root sz : Nat) (s t : Ram) : Prop where
  became : Became all root s t sz (t.cell root)
  brings : Brings root sz s t
  view : t.view root sz = s.view root sz

section Views

variable {all : Nat → Prop} {s t u : Ram} {root sz frame va k n : Nat} {c : Cell} {v : Slot}
  {pte perm : Pte} {p : Task} {E : String → Prop}

theorem mul_pgsize_lt_maxva (hk : k * pgsize < maxva) : k * pgsize < 2 ^ 39 := by
  have hmax := maxva_lt
  omega

theorem slotOf_page_inj {j : Nat} (hj : j * pgsize < maxva) (hk : k * pgsize < maxva)
    (h : slotOf (j * pgsize) = slotOf (k * pgsize)) : j = k :=
  Nat.eq_of_mul_eq_mul_right (by decide) (slotOf_inj (mul_pgsize_mod j) (mul_pgsize_mod k)
    (mul_pgsize_lt_maxva hj) (mul_pgsize_lt_maxva hk) h)

theorem view_eq (h : t.cell root = s.cell root) : t.view root sz = s.view root sz := by
  funext k
  unfold Ram.view
  rw [h]

theorem Brings.refl (root sz : Nat) (s : Ram) : Brings root sz s s :=
  ⟨fun _ => id, fun h => absurd h (lt_irrefl _)⟩

theorem Brings.trans (h : Brings root sz s t) (h' : Brings root sz t u) : Brings root sz s u := by
  refine ⟨fun k hk => h.missing k (h'.missing k hk), fun hless => ?_⟩
  by_cases hst : s.failures < t.failures
  · exact h.failures hst
  · obtain ⟨k, hk⟩ := h'.failures (by omega)
    exact ⟨k, h.missing k hk⟩

theorem Unseen.refl (h : User all root sz s) : Unseen all root sz s s :=
  ⟨h.became, Brings.refl root sz s, rfl⟩

theorem Unseen.trans (h : Unseen all root sz s t) (h' : Unseen all root sz t u) :
    Unseen all root sz s u :=
  ⟨h.became.trans h'.became, h.brings.trans h'.brings, h'.view.trans h.view⟩

theorem Missing.of_update {w : Slot} (h : Missing t root sz k)
    (ht : t.cell root = update (s.cell root) w (some c)) : Missing s root sz k := by
  refine ⟨h.1, ?_⟩
  have hnone := h.2
  rw [ht] at hnone
  by_cases hw : slotOf (k * pgsize) = w
  · rw [hw, update_self] at hnone
    simp at hnone
  · rwa [update_of_ne hw] at hnone

theorem view_fault (hk : k * pgsize < sz) (hsz : sz ≤ trapframe)
    (hnone : s.cell root (slotOf (k * pgsize)) = none)
    (ht : t.cell root = update (s.cell root) (slotOf (k * pgsize)) (some faultCell)) :
    t.view root sz = s.view root sz := by
  have hmax : k * pgsize < maxva := by
    rw [maxva_eq, trampoline_eq]
    omega
  funext j
  unfold Ram.view
  rw [ht]
  by_cases hj : j * pgsize < maxva
  · rw [if_pos hj, if_pos hj]
    by_cases hjk : j = k
    · rw [hjk, update_self, hnone]
      simp [hk]
    · rw [update_of_ne (fun he => hjk (slotOf_page_inj hj hmax he))]
  · rw [if_neg hj, if_neg hj]

theorem view_store (hk : k * pgsize < maxva)
    (ht : t.cell root = update (s.cell root) (slotOf (k * pgsize)) (some c)) :
    t.view root sz = update (s.view root sz) k (some c) := by
  funext j
  by_cases hjk : j = k
  · rw [hjk, update_self, Ram.view, if_pos hk, ht, update_self, some_or]
  · rw [update_of_ne hjk, Ram.view, Ram.view, ht]
    by_cases hj : j * pgsize < maxva
    · rw [if_pos hj, if_pos hj, update_of_ne (fun he => hjk (slotOf_page_inj hj hk he))]
    · rw [if_neg hj, if_neg hj]

theorem view_of_cell (hk : k * pgsize < maxva)
    (hcell : s.cell root (slotOf (k * pgsize)) = some c) : s.view root sz k = some c := by
  rw [Ram.view, if_pos hk, hcell, some_or]

theorem User.store (h : User all root sz s) (byte : Nat → Byte) (hv : isUser v)
    (hpte : s.map root v = some pte) :
    Became all root s { s with
      page := update s.page (pte2pa pte) { s.page (pte2pa pte) with byte := byte } } sz
      (update (s.cell root) v (some ⟨pteFlags pte, byte⟩)) := by
  have hothers := h.own v pte hv hpte
  obtain ⟨htable, hown, hmap, -⟩ := h.table.same (s.others all root) (t := { s with
      page := update s.page (pte2pa pte) { s.page (pte2pa pte) with byte := byte } })
    (h.table.pool.congr rfl rfl rfl)
    (fun a => by
      by_cases ha : a = pte2pa pte
      · exact .inr (fun ⟨p, hp⟩ => hothers.2 p (ha ▸ hp))
      · exact .inl (update_of_ne ha _ _))
    h.table.busy (fun a ha => (and_iff_left ha).symm) (fun p a hp ha => ha.2 p hp)
  refine ⟨⟨htable, h.size, ?_, ?_, ?_, ?_⟩, ⟨fun a => ?_, fun a ha _ => ?_, ?_, rfl, le_rfl⟩, ?_⟩
  · rw [hmap]
    exact h.low
  · rw [hmap]
    exact fun w x hw hx => (hown _).mpr (h.own w x hw hx)
  · rw [hmap]
    exact h.inj
  · rw [hmap]
    exact h.form
  · rw [Ram.rest, hown, hmap]
    rfl
  · exact update_of_ne (fun he => ha.2 ⟨v, pte, hv, hpte, he.symm⟩) _ _
  · exact fun w _ => by rw [hmap]
  · funext w
    by_cases hw : w = v
    · rw [hw, update_self, Ram.cell, if_pos hv, hmap, hpte, map_some]
      dsimp only
      rw [update_self]
    · rw [update_of_ne hw, Ram.cell, Ram.cell, hmap]
      split_ifs with hwu
      · cases hx : s.map root w with
        | none => rfl
        | some x =>
          have hne : pte2pa x ≠ pte2pa pte := fun he => hw (h.inj w v x pte hwu hv hx hpte he)
          rw [map_some, map_some]
          dsimp only
          rw [update_of_ne hne]
      · rfl

theorem flags_and (h : perm &&& 0x3FF = perm) : pteFlags pte &&& perm = pte &&& perm := by
  rw [pteFlags, BitVec.and_assoc, BitVec.and_comm 0x3FF perm, h]

theorem walkaddr_run (hva : va < maxva) : walkaddr root va s =
    .ok (((s.map root (slotOf va)).filter (fun pte => pte &&& pteU ≠ 0)).elim 0 pte2pa, s) := by
  rw [walkaddr, if_neg (not_le.mpr hva)]
  refine leaf_run (fun o => (o.filter (fun pte => pte &&& pteU ≠ 0)).elim 0 pte2pa) hva rfl
    (fun pte => ?_)
  rw [present]
  by_cases hv : pte &&& pteV = 0
  · rw [if_pos hv, if_neg (not_not.mpr hv)]
    rfl
  · rw [if_neg hv, if_pos hv, filter_some]
    by_cases hu : pte &&& pteU = 0
    · rw [if_pos hu, if_neg (by simpa using hu)]
      rfl
    · rw [if_neg hu, if_pos (decide_eq_true hu)]
      rfl

theorem pa2pte_and {pa : Nat} {f : Pte} (hf : f.toNat < 2 ^ 10) : pa2pte pa &&& f = 0 := by
  refine eq_of_getLsbD_eq (fun i hi => ?_)
  rw [getLsbD_and]
  by_cases h10 : i < 10
  · rw [pa2pte_low h10]
    simp
  · rw [getLsbD_of_lt hf (not_lt.mp h10)]
    simp

theorem entry_and {pa : Nat} {flags f : Pte} (hf : f.toNat < 2 ^ 10) :
    (pa2pte pa ||| flags) &&& f = flags &&& f := by
  have hdist : (pa2pte pa ||| flags) &&& f = (pa2pte pa &&& f) ||| (flags &&& f) := by
    refine eq_of_getLsbD_eq (fun i _ => ?_)
    simp only [getLsbD_and, getLsbD_or, Bool.and_or_distrib_right]
  rw [hdist, pa2pte_and hf]
  exact zero_or

theorem User.pa_ne_zero (h : User all root sz s) (hv : isUser v) (hpte : s.map root v = some pte) :
    pte2pa pte ≠ 0 := by
  have hpage := h.table.pool.page _ (h.own v pte hv hpte).1.1
  have hlow := h.table.pool.low
  omega

theorem User.cell_of_map (hv : isUser v) (hpte : s.map root v = some pte) :
    s.cell root v = some ⟨pteFlags pte, (s.page (pte2pa pte)).byte⟩ := by
  rw [Ram.cell, if_pos hv, hpte, map_some]

theorem walkaddr_high (hva : maxva ≤ va) : walkaddr root va s = .ok (0, s) := by
  rw [walkaddr, if_pos hva]
  rfl

theorem Space.special_closed (h : Space all root sz frame s) (hv : ¬ isUser v)
    (hpte : s.map root v = some pte) : pte &&& pteU = 0 := by
  rcases (isUser_iff v).mp hv with rfl | rfl
  · rw [h.special.tramp, some_inj] at hpte
    rw [← hpte, BitVec.or_assoc, entry_and (by decide)]
    decide
  · rw [h.special.frame, some_inj] at hpte
    rw [← hpte, BitVec.or_assoc, entry_and (by decide)]
    decide

theorem cell_filter {f : Pte → Bool} (hf : ∀ pte, f (pteFlags pte) = f pte)
    (hnone : (s.map root v).filter f = none) (hc : s.cell root v = some c) : f c.flags = false := by
  rw [Ram.cell] at hc
  split_ifs at hc
  obtain ⟨pte, hpte, rfl⟩ := map_eq_some_iff.mp hc
  rw [hpte, filter_eq_none_iff] at hnone
  rw [hf]
  simpa using hnone pte rfl

theorem Space.walkaddr (h : Space all root sz frame s) (k : Nat) :
    (∃ pte, k * pgsize < maxva ∧ isUser (slotOf (k * pgsize)) ∧
      s.map root (slotOf (k * pgsize)) = some pte ∧ pte &&& pteU ≠ 0 ∧
      walkaddr root (k * pgsize) s = .ok (pte2pa pte, s)) ∨
    (walkaddr root (k * pgsize) s = .ok (0, s) ∧ ∀ c, k * pgsize < maxva →
      s.cell root (slotOf (k * pgsize)) = some c → c.flags &&& pteU = 0) := by
  by_cases hk : k * pgsize < maxva
  · rw [walkaddr_run hk]
    cases hfound : (s.map root (slotOf (k * pgsize))).filter
        (fun pte => decide (pte &&& pteU ≠ 0)) with
    | some pte =>
      rw [filter_eq_some_iff, decide_eq_true_eq] at hfound
      have hv : isUser (slotOf (k * pgsize)) := by
        by_contra hv
        exact hfound.2 (h.special_closed hv hfound.1)
      exact .inl ⟨pte, hk, hv, hfound.1, hfound.2, rfl⟩
    | none =>
      refine .inr ⟨rfl, fun c _ hc => ?_⟩
      simpa using cell_filter (fun pte => by rw [flags_and (by decide)]) hfound hc
  · exact .inr ⟨walkaddr_high (not_lt.mp hk), fun c hlt => absurd hlt hk⟩

theorem pgrounddown_mul (k : Nat) : pgrounddown (k * pgsize) = k * pgsize := by
  rw [pgrounddown, Nat.mul_div_cancel _ (by decide)]

theorem userPage_mul (m : View) (k : Nat) :
    userPage m (k * pgsize) = (m k).filter (fun c => c.flags &&& pteU ≠ 0) := by
  rw [userPage, Nat.mul_div_cancel _ (by decide)]

theorem view_filter {f : Cell → Bool} (hmiss : ¬ Missing s root sz k)
    (hclosed : ∀ c, k * pgsize < maxva → s.cell root (slotOf (k * pgsize)) = some c →
      f c = false) : (s.view root sz k).filter f = none := by
  rw [Ram.view]
  by_cases hk : k * pgsize < maxva
  · rw [if_pos hk]
    cases hc : s.cell root (slotOf (k * pgsize)) with
    | some c => rw [some_or, filter_some, if_neg (by simp [hclosed c hk hc])]
    | none =>
      rw [if_neg (fun hlt => hmiss ⟨hlt, hc⟩)]
      rfl
  · rw [if_neg hk]
    rfl

theorem User.vmfault_unseen (h : User all root sz s) (hp : p.pagetable = root) (hsz : p.sz = sz) :
    Ends (Vm.vmfault p root va) s (fun r t => Unseen all root sz s t ∧
      ((r = 0 ∧ t.cell root = s.cell root ∧
        (s.failures < t.failures ∧ Missing s root sz (va / pgsize) ∨
          sz ≤ va ∨ s.cell root (slotOf (pgrounddown va)) ≠ none)) ∨
      (r ≠ 0 ∧ va < sz ∧ ∃ pte, isUser (slotOf (pgrounddown va)) ∧
        t.map root (slotOf (pgrounddown va)) = some pte ∧ pte2pa pte = r ∧
        ∀ f : Pte, f.toNat < 2 ^ 10 → pte &&& f = faultCell.flags &&& f))) E := by
  have hsize := h.size
  obtain ⟨halign, hdown, -⟩ := pgrounddown_spec va
  refine (h.vmfault hp hsz).post ?_
  rintro r t (⟨rfl, ht, hwhy⟩ | ⟨hall, hlt, hnone, hmap, ht⟩)
  · refine ⟨⟨ht.cell ▸ ht, ?_, view_eq ht.cell⟩, .inl ⟨rfl, ht.cell, ?_⟩⟩
    · rcases hwhy with ⟨-, rfl⟩ | ⟨hlt, hnone, -⟩
      · exact Brings.refl root sz t
      · exact ⟨fun k hk => ⟨hk.1, ht.cell ▸ hk.2⟩,
          fun _ => ⟨va / pgsize, lt_of_le_of_lt hdown hlt, hnone⟩⟩
    · rcases hwhy with ⟨hwhy, -⟩ | ⟨hlt, hnone, hfail⟩
      · exact .inr hwhy
      · exact .inl ⟨hfail, lt_of_le_of_lt hdown hlt, hnone⟩
  · have hlow : va / pgsize * pgsize < sz := lt_of_le_of_lt hdown hlt
    have huser : isUser (slotOf (pgrounddown va)) := isUser_slotOf halign (by omega)
    have hpa : pte2pa (pa2pte r ||| (pteW ||| pteU ||| pteR) ||| pteV) = r := by
      obtain ⟨ralign, -, rhigh⟩ := h.table.pool.page r hall
      rw [BitVec.or_assoc]
      exact pte2pa_or ralign (lt_of_lt_of_le rhigh h.table.pool.high) (by decide)
    refine ⟨⟨ht.cell ▸ ht, ⟨fun k hk => hk.of_update ht.cell, fun _ => ⟨va / pgsize, hlow, hnone⟩⟩,
      view_fault hlow hsize hnone ht.cell⟩, .inr ⟨?_, hlt, _, huser, hmap, hpa, fun f hf => ?_⟩⟩
    · rw [← hpa]
      exact ht.user.pa_ne_zero huser hmap
    · rw [BitVec.or_assoc, entry_and hf]
      rfl

theorem Space.faultIn (h : Space all root sz frame s) (hp : p.pagetable = root) (hsz : p.sz = sz) :
    Ends (faultIn p root (k * pgsize)) s (fun r t => Unseen all root sz s t ∧
      ((r = 0 ∧ t.cell root = s.cell root ∧ (s.failures < t.failures ∧ Missing s root sz k ∨
        userPage (s.view root sz) (k * pgsize) = none)) ∨
      (r ≠ 0 ∧ k * pgsize < maxva ∧ ∃ pte, isUser (slotOf (k * pgsize)) ∧
        t.map root (slotOf (k * pgsize)) = some pte ∧ pte2pa pte = r ∧ pte &&& pteU ≠ 0))) E := by
  have hsize := h.user.size
  rw [Vm.faultIn]
  rcases h.walkaddr k with ⟨pte, hk, huser, hmap, hu, hrun⟩ | ⟨hrun, hclosed⟩
  · refine Ends.bind_ok hrun ?_
    rw [if_neg (h.user.pa_ne_zero huser hmap)]
    exact Ends.pure ⟨Unseen.refl h.user,
      .inr ⟨h.user.pa_ne_zero huser hmap, hk, pte, huser, hmap, rfl, hu⟩⟩
  · refine Ends.bind_ok hrun ?_
    rw [if_pos rfl]
    refine (h.user.vmfault_unseen hp hsz).post ?_
    rw [pgrounddown_mul, Nat.mul_div_cancel _ (by decide)]
    rintro r t ⟨ht, ⟨rfl, hcell, hwhy⟩ | ⟨hr, hlt, pte, huser, hmap, hpa, hflags⟩⟩
    · refine ⟨ht, .inl ⟨rfl, hcell, hwhy.imp_right (fun hwhy => ?_)⟩⟩
      rw [userPage_mul]
      refine view_filter (fun hmiss => ?_) (fun c hk hc => by simpa using hclosed c hk hc)
      rcases hwhy with hle | hne
      · exact not_lt.mpr hle hmiss.1
      · exact hne hmiss.2
    · refine ⟨ht, .inr ⟨hr, ?_, pte, huser, hmap, hpa, ?_⟩⟩
      · rw [maxva_eq, trampoline_eq]
        omega
      · rw [hflags pteU (by decide)]
        decide

end Views

def startRam : Ram where
  page := fun _ => zeroPage
  freelist := [4096, 8192, 12288, 16384, 20480, 24576, 28672, 36864, 40960, 45056, 49152, 53248,
    57344]
  kend := 4096
  phystop := 61440
  trampText := 0
  deny := fun _ => false
  calls := 0
  failures := 0

def startPages (a : Nat) : Prop := a ∈ 32768 :: startRam.freelist

/-- A process that has grown by a hundred bytes and not used them. -/
def lazyTask : Task := ⟨4096, 100, 32768⟩

def lazyRam : Ram :=
  match procPagetable 32768 startRam with
  | .ok (_, t) => t
  | .error _ => startRam

theorem startRam_pool : Pool startPages startRam where
  nodup := by decide
  sub a ha := List.mem_cons_of_mem _ ha
  page := by
    have hall : ∀ a ∈ 32768 :: startRam.freelist, a % pgsize = 0 ∧ startRam.kend ≤ a ∧
        a < startRam.phystop := by decide
    exact hall
  low := by decide
  high := by decide

theorem lazyRam_fresh : Space startPages 4096 0 32768 lazyRam ∧
    ∀ v, lazyRam.cell 4096 v = none := by
  have hrun : procPagetable 32768 startRam = .ok (some 4096, lazyRam) := rfl
  rcases (procPagetable_spec (E := fun _ => True) startRam_pool).ok hrun with
    ⟨hr, -⟩ | ⟨root, hr, -, -, hspace, hcell, -⟩
  · simp at hr
  · obtain rfl := Option.some.inj hr
    exact ⟨hspace, hcell⟩

theorem lazyRam_space : Space startPages 4096 100 32768 lazyRam :=
  ⟨lazyRam_fresh.1.user.resize (by decide) (fun k _ hne => absurd (lazyRam_fresh.2 _) hne),
    lazyRam_fresh.1.special⟩

end Xv6.Vm
