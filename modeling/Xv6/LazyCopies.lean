import Xv6.UserCopies

/-! The copies between the kernel and user space, and the accesses of the user
program, in terms of what the user sees. A page that has not been brought in yet
makes no difference to them, but for `copyinstr`, which does not bring it in. -/

namespace Xv6.Vm

open Fallible List

def viewAccess (m : View) (va : Nat) (perm : Pte) : Option Cell :=
  (userPage m va).filter (fun c => c.flags &&& perm ≠ 0)

def viewLoad (m : View) (va : Nat) : Option Byte :=
  (viewAccess m va pteR).map (fun c => c.byte (va - pgrounddown va))

def viewStore (m : View) (va : Nat) (b : Byte) : Bool × View :=
  match viewAccess m va pteW with
  | none => (false, m)
  | some c => (true, Function.update m (va / pgsize) (some { c with
      byte := written c.byte (va - pgrounddown va) [b] }))

noncomputable def readable (va len : Nat) (m : View) : Bool × List Byte :=
  (decide (reach m pteU va len = len), bytesAt m va (reach m pteU va len))

noncomputable def writable (va : Nat) (src : List Byte) (m : View) : Bool × View :=
  (decide (reach m pteW va src.length = src.length),
    overwritten m va (src.take (reach m pteW va src.length)))

section Copies

variable {all : Nat → Prop} {s t u : Ram} {root sz frame va k n fuel srcva dstva len : Nat}
  {c : Cell} {pte perm : Pte} {p : Task} {dst src : List Byte} {E : String → Prop}

theorem Space.copyin (h : Space all root sz frame s) (hp : p.pagetable = root)
    (hsz : p.sz = sz) : Ends (copyin p root srcva len) s (fun r t => Unseen all root sz s t ∧
      (s.failures < t.failures ∨ r = readable srcva len (s.view root sz))) E := by
  refine (h.copyinLoop_reached hp hsz le_rfl).post ?_
  rintro ⟨r, bytes⟩ t ⟨ht, n, hreached, hbytes⟩
  refine ⟨ht, or_iff_not_imp_left.mpr (fun hf => ?_)⟩
  obtain ⟨rfl, hr⟩ := hreached.eq_reach hf
  exact Prod.ext hr hbytes

theorem Space.copyout (h : Space all root sz frame s) (hp : p.pagetable = root)
    (hsz : p.sz = sz) : Ends (copyout p root dstva src) s (fun r t => Brings root sz s t ∧
      (s.failures < t.failures ∨ (r, t.view root sz) = writable dstva src (s.view root sz))) E := by
  refine (h.copyoutLoop_reached hp hsz le_rfl).post ?_
  rintro r t ⟨-, hbrings, n, hreached, hview⟩
  refine ⟨hbrings, or_iff_not_imp_left.mpr (fun hf => ?_)⟩
  obtain ⟨rfl, hr⟩ := hreached.eq_reach hf
  exact Prod.ext hr hview

theorem px_pgrounddown (level va : Nat) : px level (pgrounddown va) = px level va := by
  refine Fin.ext ?_
  have hsplit : ∀ x, x / 2 ^ (12 + 9 * level) = x / 4096 / 2 ^ (9 * level) := fun x => by
    rw [Nat.div_div_eq_div_mul, pow_add, show (2 : Nat) ^ 12 = 4096 from rfl]
  rw [px_val, px_val, hsplit, hsplit, pgrounddown, pgsize, Nat.mul_div_cancel _ (by decide)]

theorem slotOf_pgrounddown (va : Nat) : slotOf (pgrounddown va) = slotOf va := by
  rw [slotOf, slotOf, px_pgrounddown, px_pgrounddown, px_pgrounddown]

theorem translate_run (hva : va < maxva) : translate root va perm s =
    .ok (((s.map root (slotOf va)).filter (fun pte => pte &&& pteU ≠ 0 ∧ pte &&& perm ≠ 0)).map
      pte2pa, s) := by
  rw [translate, if_neg (not_le.mpr hva)]
  refine leaf_run (fun o => (o.filter (fun pte => pte &&& pteU ≠ 0 ∧ pte &&& perm ≠ 0)).map pte2pa)
    hva rfl (fun pte => ?_)
  rw [present]
  by_cases hv : pte &&& pteV ≠ 0
  · rw [if_pos hv, Option.filter_some]
    by_cases hup : pte &&& pteU ≠ 0 ∧ pte &&& perm ≠ 0
    · rw [if_pos ⟨hv, hup⟩, if_pos (decide_eq_true hup)]
      rfl
    · rw [if_neg (fun hall => hup hall.2), if_neg (by rwa [decide_eq_true_eq])]
      rfl
  · rw [if_neg hv, if_neg (fun hall => hv hall.1)]
    rfl

theorem Space.translate (h : Space all root sz frame s) (hmask : perm &&& 0x3FF = perm) (va : Nat) :
    (∃ pte, va < maxva ∧ isUser (slotOf (pgrounddown va)) ∧
      s.map root (slotOf (pgrounddown va)) = some pte ∧ pte &&& pteU ≠ 0 ∧ pte &&& perm ≠ 0 ∧
      translate root va perm s = .ok (some (pte2pa pte), s)) ∨
    (translate root va perm s = .ok (none, s) ∧ ∀ c, pgrounddown va < maxva →
      s.cell root (slotOf (pgrounddown va)) = some c →
      ¬ (c.flags &&& pteU ≠ 0 ∧ c.flags &&& perm ≠ 0)) := by
  by_cases hva : va < maxva
  · rw [translate_run hva, ← slotOf_pgrounddown va]
    cases hfound : (s.map root (slotOf (pgrounddown va))).filter
        (fun pte => decide (pte &&& pteU ≠ 0 ∧ pte &&& perm ≠ 0)) with
    | some pte =>
      rw [Option.filter_eq_some_iff, decide_eq_true_eq] at hfound
      have hv : isUser (slotOf (pgrounddown va)) := by
        by_contra hv
        exact hfound.2.1 (h.special_closed hv hfound.1)
      exact .inl ⟨pte, hva, hv, hfound.1, hfound.2.1, hfound.2.2, rfl⟩
    | none =>
      refine .inr ⟨rfl, fun c _ hc => of_decide_eq_false (cell_filter (fun pte => ?_) hfound hc)⟩
      rw [flags_and (by decide), flags_and hmask]
  · refine .inr ⟨by rw [Vm.translate, if_pos (not_lt.mp hva)]; rfl, fun c hlt => absurd ?_ hva⟩
    rw [maxva_eq, trampoline_eq, trapframe_val] at hlt ⊢
    simp only [pgrounddown, pgsize] at *
    omega

theorem Space.access (h : Space all root sz frame s) (hp : p.pagetable = root) (hsz : p.sz = sz)
    (hperm : perm = pteR ∨ perm = pteW) :
    Ends (access p va perm) s (fun r t => Unseen all root sz s t ∧
      ((r = none ∧ (s.failures < t.failures ∨ ((Missing s root sz (va / pgsize) → va < sz) →
        viewAccess (s.view root sz) va perm = none))) ∨
      ∃ pte, r = some (pte2pa pte) ∧ va < maxva ∧ isUser (slotOf (pgrounddown va)) ∧
        t.map root (slotOf (pgrounddown va)) = some pte ∧ pte &&& pteU ≠ 0 ∧ pte &&& perm ≠ 0))
      E := by
  have hsize := h.user.size
  have hmask : perm &&& 0x3FF = perm := by
    rcases hperm with rfl | rfl <;> decide
  rw [Vm.access, hp]
  rcases h.translate hmask va with ⟨pte, hva, hv, hpte, hu, hup, hrun⟩ | ⟨hrun, hclosed⟩
  · exact Ends.bind_ok hrun (Ends.pure ⟨Unseen.refl h.user,
      .inr ⟨pte, rfl, hva, hv, hpte, hu, hup⟩⟩)
  · refine Ends.bind_ok hrun ((h.user.vmfault_unseen hp hsz).bind ?_)
    rintro r t ⟨ht, ⟨rfl, -, hwhy⟩ | ⟨hr, hlt, pte, hv, hpte, rfl, hflags⟩⟩
    · rw [if_neg (by simp)]
      refine Ends.pure ⟨ht, .inl ⟨rfl, hwhy.imp And.left (fun hwhy hseen => ?_)⟩⟩
      rw [viewAccess, userPage, Option.filter_filter]
      refine view_filter (fun hmiss => ?_) (fun c hk hc => ?_)
      · rcases hwhy with hle | hne
        · exact not_lt.mpr hle (hseen hmiss)
        · exact hne hmiss.2
      · simpa using hclosed c hk hc
    · have hva : va < maxva := by
        rw [maxva_eq, trampoline_eq]
        omega
      have hu : pte &&& pteU ≠ 0 := by
        rw [hflags pteU (by decide)]
        decide
      have hup : pte &&& perm ≠ 0 := by
        rcases hperm with rfl | rfl
        · rw [hflags pteR (by decide)]
          decide
        · rw [hflags pteW (by decide)]
          decide
      rw [if_pos hr]
      refine Ends.of_ok (translate_run hva) ⟨ht, .inr ⟨pte, ?_, hva, hv, hpte, hu, hup⟩⟩
      rw [← slotOf_pgrounddown va, hpte, Option.filter_some, if_pos (decide_eq_true ⟨hu, hup⟩),
        Option.map_some]

theorem viewAccess_of_map (hva : va < maxva) (hv : isUser (slotOf (pgrounddown va)))
    (hpte : t.map root (slotOf (pgrounddown va)) = some pte) (hu : pte &&& pteU ≠ 0)
    (hperm : perm = pteR ∨ perm = pteW) (hp : pte &&& perm ≠ 0) :
    viewAccess (t.view root sz) va perm = some ⟨pteFlags pte, (t.page (pte2pa pte)).byte⟩ := by
  obtain ⟨-, hdown, -⟩ := pgrounddown_spec va
  have hpage := userPage_of_map sz (k := va / pgsize) (lt_of_le_of_lt hdown hva) hv hpte hu
  rw [userPage_div] at hpage
  rw [viewAccess, hpage, Option.filter_some, if_pos]
  rw [decide_eq_true_eq, flags_and (by rcases hperm with rfl | rfl <;> decide)]
  exact hp

theorem Space.userLoad (h : Space all root sz frame s) (hp : p.pagetable = root)
    (hsz : p.sz = sz) : Ends (userLoad p va) s (fun r t => Unseen all root sz s t ∧
      (r = none ∧ s.failures < t.failures ∨ ((Missing s root sz (va / pgsize) → va < sz) →
        r = viewLoad (s.view root sz) va))) E := by
  rw [Vm.userLoad]
  refine (h.access hp hsz (.inl rfl)).bind ?_
  rintro r t ⟨ht, ⟨rfl, hwhy⟩ | ⟨pte, rfl, hva, hv, hpte, hu, hperm⟩⟩
  · refine Ends.pure ⟨ht, hwhy.imp (fun hfail => ⟨rfl, hfail⟩) (fun hnone hseen => ?_)⟩
    rw [viewLoad, hnone hseen]
    rfl
  · refine Ends.get_bind (Ends.pure ⟨ht, .inr (fun _ => ?_)⟩)
    rw [viewLoad, ← ht.view, viewAccess_of_map hva hv hpte hu (.inl rfl) hperm, Option.map_some]

theorem Space.userStore {b : Byte} (h : Space all root sz frame s) (hp : p.pagetable = root)
    (hsz : p.sz = sz) (hseen : Missing s root sz (va / pgsize) → va < sz) :
    Ends (userStore p va b) s (fun r t => Became all root s t sz (t.cell root) ∧
      Brings root sz s t ∧
      (r = false ∧ s.failures < t.failures ∨
        (r, t.view root sz) = viewStore (s.view root sz) va b)) E := by
  rw [Vm.userStore]
  refine (h.access hp hsz (.inr rfl)).bind ?_
  rintro r t ⟨⟨ht, hbrings, hview⟩, ⟨rfl, hwhy⟩ | ⟨pte, rfl, hva, hv, hpte, hu, hperm⟩⟩
  · refine Ends.pure ⟨ht, hbrings, hwhy.imp (fun hfail => ⟨rfl, hfail⟩) (fun hnone => ?_)⟩
    rw [viewStore, hnone hseen, hview]
  · have hstore := ht.user.store (written (t.page (pte2pa pte)).byte (va - pgrounddown va) [b])
      hv hpte
    have hlow : va / pgsize * pgsize < maxva := by
      obtain ⟨-, hdown, -⟩ := pgrounddown_spec va
      exact lt_of_le_of_lt hdown hva
    refine Ends.bind_ok (a := ()) rfl (Ends.pure ⟨?_, ?_, .inr ?_⟩)
    · have hall := ht.trans hstore
      exact hall.cell ▸ hall
    · exact hbrings.trans ⟨fun k hk => hk.of_update hstore.cell, fun hless =>
        absurd hless (lt_irrefl _)⟩
    · rw [viewStore, ← hview, viewAccess_of_map hva hv hpte hu (.inr rfl) hperm,
        view_store (k := va / pgsize) hlow hstore.cell]

theorem Space.fetchaddr {addr : Nat} (h : Space all root sz frame s) (hp : p.pagetable = root)
    (hsz : p.sz = sz) : Ends (fetchaddr p addr) s (fun r t =>
      Brings root sz s t ∧ t.view root sz = s.view root sz ∧
      (s.failures < t.failures ∨ r = if sz ≤ addr ∨ sz < u64 (addr + 8) then none
        else if (readable addr 8 (s.view root sz)).1 then
          some (readable addr 8 (s.view root sz)).2 else none)) E := by
  rw [Vm.fetchaddr, hp, hsz]
  by_cases hout : sz ≤ addr ∨ sz < u64 (addr + 8)
  · rw [if_pos hout, if_pos hout]
    exact Ends.pure ⟨Brings.refl root sz s, rfl, .inr rfl⟩
  · rw [if_neg hout, if_neg hout]
    refine (h.copyin hp hsz).bind ?_
    rintro r t ⟨⟨-, hbrings, hview⟩, hr⟩
    by_cases hok : r.1
    · rw [if_pos hok]
      refine Ends.pure ⟨hbrings, hview, hr.imp_right (fun hr => ?_)⟩
      rw [← hr, if_pos hok]
    · rw [if_neg hok]
      refine Ends.pure ⟨hbrings, hview, hr.imp_right (fun hr => ?_)⟩
      rw [← hr, if_neg hok]

theorem seen_present (hk : ¬ Missing s root sz (va / pgsize)) :
    seen (s.view root 0) va = seen (s.view root sz) va := by
  rw [seen, seen, Ram.view, Ram.view, if_neg (Nat.not_lt_zero _)]
  cases hc : s.cell root (slotOf (va / pgsize * pgsize)) with
  | some c => rfl
  | none => rw [if_neg (fun hlt => hk ⟨hlt, hc⟩)]

theorem seen_missing (hsz : sz ≤ trapframe) (hk : Missing s root sz (va / pgsize)) :
    s.view root sz (va / pgsize) = some faultCell ∧ s.view root 0 (va / pgsize) = none := by
  have hlt : va / pgsize * pgsize < maxva := by
    have hmiss := hk.1
    rw [maxva_eq, trampoline_eq]
    omega
  rw [Ram.view, Ram.view, if_pos hlt, if_pos hlt, hk.2, if_pos hk.1, if_neg (Nat.not_lt_zero _)]
  exact ⟨rfl, rfl⟩

/-- Without the missing pages the scan is the same, if it reaches none. -/
theorem Scanned.present {max : Nat} {r : Bool} (h : Scanned (s.view root sz) srcva max r n)
    (hseen : Unreached s root sz srcva max) : Scanned (s.view root 0) srcva max r n ∧
      bytesAt (s.view root 0) srcva n = bytesAt (s.view root sz) srcva n := by
  have hle := h.le
  have hsame : ∀ i < max, i ≤ n → (i = n → r = false) →
      seen (s.view root 0) (srcva + i) = seen (s.view root sz) (srcva + i) := by
    intro i hi hn hlast
    refine seen_present (hseen i hi (fun j hj => ⟨h.allowed j (by omega), fun hzero => ?_⟩))
    obtain ⟨hr, hj⟩ := h.clear j (by omega) hzero
    rw [hlast (by omega)] at hr
    simp at hr
  have hinside : ∀ i < n, seen (s.view root 0) (srcva + i) = seen (s.view root sz) (srcva + i) :=
    fun i hi => hsame i (by omega) hi.le (by omega)
  have hbyte : ∀ i < n, byteAt (s.view root 0) (srcva + i) = byteAt (s.view root sz) (srcva + i) :=
    fun i hi => by rw [byteAt, byteAt, hinside i hi]
  refine ⟨⟨hle, fun i hi => ?_, fun i hi => hbyte i hi ▸ h.clear i hi, fun hr => ?_, fun hr => ?_⟩,
    map_congr_left (fun i hi => hbyte i (mem_range.mp hi))⟩
  · rw [Allowed, hinside i hi]
    exact h.allowed i hi
  · obtain ⟨i, hi, hzero⟩ := h.ended hr
    exact ⟨i, hi, by rw [hbyte i (by omega), hzero]⟩
  · rcases h.cut hr with hn | hno
    · exact .inl hn
    · by_cases hn : n = max
      · exact .inl hn
      · rw [Allowed, hsame n (by omega) le_rfl (fun _ => hr)]
        exact .inr hno

/-- A missing page that the scan reaches would have ended the string. -/
theorem Scanned.missed {max n' : Nat} {r r' : Bool} (h : Scanned (s.view root sz) srcva max r n)
    (h' : Scanned (s.view root 0) srcva max r' n') (hsz : sz ≤ trapframe)
    (hreached : ¬ Unreached s root sz srcva max) : r = true ∧ r' = false := by
  rw [Unreached] at hreached
  push Not at hreached
  obtain ⟨i, hi, hbefore, hmiss⟩ := hreached
  obtain ⟨hthere, hgone⟩ := seen_missing hsz hmiss
  constructor
  · refine h.iff_ends.mpr ⟨i, hi, by rw [byteAt, seen, hthere]; rfl, fun j hj => ?_⟩
    rcases hj.eq_or_lt with rfl | hlt
    · exact allowed_iff.mpr ⟨faultCell, hthere, by decide, by decide⟩
    · exact (hbefore j hlt).1
  · rw [Bool.eq_false_iff]
    intro hr
    obtain ⟨j, -, hzero, hall⟩ := h'.iff_ends.mp hr
    have hpage := fun j hj => allowed_iff.mp (hall j hj)
    by_cases hij : i ≤ j
    · obtain ⟨c, hc, -⟩ := hpage i hij
      rw [hgone] at hc
      simp at hc
    · refine (hbefore j (by omega)).2 ?_
      obtain ⟨c, hc, -⟩ := hpage j le_rfl
      rw [byteAt, ← seen_present (fun hmiss => ?_), ← byteAt, hzero]
      rw [(seen_missing hsz hmiss).2] at hc
      simp at hc

theorem Space.copyinstr (h : Space all root sz frame s) (srcva max : Nat) :
    copyinstr root srcva max s = .ok (viewCopyinstr (s.view root 0) max srcva max [], s) :=
  h.copyinstrLoop le_rfl

theorem view_scanned (s : Ram) (root sz srcva max : Nat) :
    ∃ n, Scanned (s.view root sz) srcva max (viewCopyinstr (s.view root sz) max srcva max []).1 n ∧
      (viewCopyinstr (s.view root sz) max srcva max []).2 = [] ++ bytesAt (s.view root sz) srcva n :=
  viewCopyinstr_scanned (fun _ hk => view_high hk) le_rfl

theorem viewCopyinstr_present {max : Nat} (hseen : Unreached s root sz srcva max) :
    viewCopyinstr (s.view root 0) max srcva max [] =
      viewCopyinstr (s.view root sz) max srcva max [] := by
  obtain ⟨n, hn, hbytes⟩ := view_scanned s root sz srcva max
  obtain ⟨i, hi, hbytes'⟩ := view_scanned s root 0 srcva max
  obtain ⟨hpresent, hsame⟩ := hn.present hseen
  obtain ⟨hr, rfl⟩ := hi.unique hpresent
  exact Prod.ext hr (by rw [hbytes, hbytes', hsame])

theorem viewCopyinstr_missed {max : Nat} (hsz : sz ≤ trapframe)
    (hreached : ¬ Unreached s root sz srcva max) :
    (viewCopyinstr (s.view root 0) max srcva max []).1 = false ∧
      (viewCopyinstr (s.view root sz) max srcva max []).1 = true := by
  obtain ⟨n, hn, -⟩ := view_scanned s root sz srcva max
  obtain ⟨i, hi, -⟩ := view_scanned s root 0 srcva max
  exact (hn.missed hi hsz hreached).symm

theorem fetchstr_run {max : Nat} {r : Bool × List Byte} (hp : p.pagetable = root)
    (hr : Vm.copyinstr root srcva max s = .ok (r, s)) :
    fetchstr p srcva max s = .ok (if r.1 then some r.2.dropLast else none, s) := by
  rw [fetchstr, hp, bind_ok hr]
  split_ifs
  · rfl
  · rfl

/-- Beyond the size a missing page is not brought in. -/
theorem Space.access_beyond (h : Space all root sz frame s) (hp : p.pagetable = root)
    (hsz : p.sz = sz) (hmask : perm &&& 0x3FF = perm) (hmiss : Missing s root sz (va / pgsize))
    (hva : sz ≤ va) : Vm.access p va perm s = .ok (none, s) := by
  have hnone : Vm.translate root va perm s = .ok (none, s) := by
    rcases h.translate hmask va with ⟨pte, -, hv, hpte, -⟩ | ⟨hrun, -⟩
    · exact absurd hmiss (not_missing (User.cell_of_map hv hpte))
    · exact hrun
  rw [Vm.access, hp, bind_ok hnone]
  refine (bind_ok (a := 0) (t := s) ?_).trans rfl
  rw [vmfault, hsz, if_pos hva]
  rfl

theorem viewAccess_missing (hsz : sz ≤ trapframe) (hmiss : Missing s root sz (va / pgsize))
    (hperm : faultCell.flags &&& perm ≠ 0) :
    viewAccess (s.view root sz) va perm = some faultCell := by
  rw [viewAccess, userPage, (seen_missing hsz hmiss).1, Option.filter_some, if_pos (by decide),
    Option.filter_some, if_pos (decide_eq_true hperm)]

end Copies

/-- Two operations return the same and leave the user the same memory, unless memory
runs out. -/
def Agree {α : Type} (root root' sz : Nat) (s s' : Ram) (m m' : VmM α) : Prop :=
  ∃ r t r' t', m s = .ok (r, t) ∧ m' s' = .ok (r', t') ∧
    (t.failures = s.failures → r = r' ∧ t.view root sz = t'.view root' sz)

section Twins

variable {all all' : Nat → Prop} {s s' : Ram} {root root' sz frame frame' : Nat} {p q : Task}

theorem not_agree {α : Type} {m m' : VmM α} {r r' : α} {t' : Ram} (hm : m s = .ok (r, s))
    (hm' : m' s' = .ok (r', t')) (hne : r ≠ r') : ¬ Agree root root' sz s s' m m' := by
  rintro ⟨x, y, x', y', hx, hx', hsame⟩
  cases hm.symm.trans hx
  cases hm'.symm.trans hx'
  exact hne (hsame rfl).1

theorem Brings.dense {t : Ram} (h : Brings root sz s t) (hdense : Dense s root sz) :
    ¬ s.failures < t.failures := by
  intro hless
  obtain ⟨k, hk, hnone⟩ := h.failures hless
  exact hdense k hk hnone

theorem agree_of_view {α : Type} {m m' : VmM α} {f : View → α × View} (hdense : Dense s' root' sz)
    (hview : s'.view root' sz = s.view root sz)
    (hm : Ends m s (fun r t => s.failures < t.failures ∨ (r, t.view root sz) = f (s.view root sz))
      (fun _ => False))
    (hm' : Ends m' s' (fun r t => Brings root' sz s' t ∧
      (s'.failures < t.failures ∨ (r, t.view root' sz) = f (s'.view root' sz))) (fun _ => False)) :
    Agree root root' sz s s' m m' := by
  obtain ⟨r, t, hr, ht⟩ := hm.returns
  obtain ⟨r', t', hr', hbrings, ht'⟩ := hm'.returns
  refine ⟨r, t, r', t', hr, hr', fun hsame => ?_⟩
  have hleft := ht.resolve_left (by omega)
  have hright := ht'.resolve_left (hbrings.dense hdense)
  rw [hview] at hright
  have hboth := hleft.trans hright.symm
  exact ⟨congrArg Prod.fst hboth, congrArg Prod.snd hboth⟩

theorem Dense.present (h : Dense s root sz) (k : Nat) : ¬ Missing s root sz k :=
  fun hk => h k hk.1 hk.2

theorem agree_string {srcva max : Nat} (h : Space all root sz frame s)
    (h' : Space all' root' sz frame' s') (hdense : Dense s' root' sz)
    (hview : s'.view root' sz = s.view root sz) (hp : p.pagetable = root)
    (hq : q.pagetable = root') :
    (Agree root root' sz s s' (copyinstr root srcva max) (copyinstr root' srcva max) ↔
      Unreached s root sz srcva max) ∧
    (Agree root root' sz s s' (fetchstr p srcva max) (fetchstr q srcva max) ↔
      Unreached s root sz srcva max) := by
  have hrun := h.copyinstr srcva max
  have hrun' := h'.copyinstr srcva max
  rw [viewCopyinstr_present (fun i _ _ => hdense.present _), hview] at hrun'
  have hstr := fetchstr_run hp hrun
  have hstr' := fetchstr_run hq hrun'
  by_cases hseen : Unreached s root sz srcva max
  · rw [viewCopyinstr_present hseen] at hrun hstr
    exact ⟨iff_of_true ⟨_, _, _, _, hrun, hrun', fun _ => ⟨rfl, hview.symm⟩⟩ hseen,
      iff_of_true ⟨_, _, _, _, hstr, hstr', fun _ => ⟨rfl, hview.symm⟩⟩ hseen⟩
  · obtain ⟨hlost, hfound⟩ := viewCopyinstr_missed h.user.size hseen
    rw [hlost, if_neg (by simp)] at hstr
    rw [hfound, if_pos rfl] at hstr'
    refine ⟨iff_of_false (not_agree hrun hrun' (fun heq => ?_)) hseen,
      iff_of_false (not_agree hstr hstr' (by simp)) hseen⟩
    rw [heq, hfound] at hlost
    simp at hlost

theorem agree_access {va : Nat} (h : Space all root sz frame s)
    (h' : Space all' root' sz frame' s') (hdense : Dense s' root' sz)
    (hview : s'.view root' sz = s.view root sz) (hp : p.pagetable = root ∧ p.sz = sz)
    (hq : q.pagetable = root' ∧ q.sz = sz) :
    (Agree root root' sz s s' (userLoad p va) (userLoad q va) ↔
      (Missing s root sz (va / pgsize) → va < sz)) ∧
    ∀ b, (Agree root root' sz s s' (userStore p va b) (userStore q va b) ↔
      (Missing s root sz (va / pgsize) → va < sz)) := by
  have hpresent := hdense.present (va / pgsize)
  have hload : Ends (userLoad q va) s' (fun r t => Brings root' sz s' t ∧
      (s'.failures < t.failures ∨
        (r, t.view root' sz) = (viewLoad (s'.view root' sz) va, s'.view root' sz)))
      (fun _ => False) := (h'.userLoad hq.1 hq.2).post (fun r t ht =>
    ⟨ht.1.brings, ht.2.imp And.right (fun hr => by
      rw [hr (fun hm => absurd hm hpresent), ht.1.view])⟩)
  have hstore : ∀ b, Ends (userStore q va b) s' (fun r t => Brings root' sz s' t ∧
      (s'.failures < t.failures ∨ (r, t.view root' sz) = viewStore (s'.view root' sz) va b))
      (fun _ => False) := fun b => (h'.userStore hq.1 hq.2 (fun hm => absurd hm hpresent)).post
    (fun _ _ ht => ht.2.imp_right (Or.imp_left And.right))
  by_cases hseen : Missing s root sz (va / pgsize) → va < sz
  · refine ⟨iff_of_true ?_ hseen, fun b => iff_of_true ?_ hseen⟩
    · refine agree_of_view (f := fun m => (viewLoad m va, m)) hdense hview
        ((h.userLoad hp.1 hp.2).post ?_) hload
      rintro r t ⟨ht, hr⟩
      exact hr.imp And.right (fun hr => by rw [hr hseen, ht.view])
    · exact agree_of_view (f := fun m => viewStore m va b) hdense hview
        ((h.userStore hp.1 hp.2 hseen).post (fun _ _ ht => ht.2.2.imp_left And.right)) (hstore b)
  · push Not at hseen
    obtain ⟨hmiss, hva⟩ := hseen
    have hseen : ¬ (Missing s root sz (va / pgsize) → va < sz) := fun hlt =>
      absurd (hlt hmiss) (not_lt.mpr hva)
    refine ⟨iff_of_false ?_ hseen, fun b => iff_of_false ?_ hseen⟩
    · obtain ⟨r, t, hrun, hbrings, hr⟩ := hload.returns
      have hr := hr.resolve_left (hbrings.dense hdense)
      rw [hview, viewLoad, viewAccess_missing h.user.size hmiss (by decide)] at hr
      refine not_agree (r := none) ?_ hrun (by rw [(Prod.mk.inj hr).1]; simp)
      rw [userLoad, bind_ok (h.access_beyond hp.1 hp.2 (by decide) hmiss hva)]
      rfl
    · obtain ⟨r, t, hrun, hbrings, hr⟩ := (hstore b).returns
      have hr := hr.resolve_left (hbrings.dense hdense)
      rw [hview, viewStore, viewAccess_missing h.user.size hmiss (by decide)] at hr
      refine not_agree (r := false) ?_ hrun (by rw [(Prod.mk.inj hr).1]; simp)
      rw [userStore, bind_ok (h.access_beyond hp.1 hp.2 (by decide) hmiss hva)]
      rfl

/-- Lazy allocation makes no difference: a process with missing pages, compared with
one whose pages are all there. -/
theorem lazy_transparent (h : Space all root sz frame s) (h' : Space all' root' sz frame' s')
    (hdense : Dense s' root' sz) (hview : s'.view root' sz = s.view root sz)
    (hp : p.pagetable = root ∧ p.sz = sz) (hq : q.pagetable = root' ∧ q.sz = sz) :
    (∀ srcva len, Agree root root' sz s s' (copyin p root srcva len) (copyin q root' srcva len)) ∧
    (∀ dstva src, Agree root root' sz s s' (copyout p root dstva src) (copyout q root' dstva src)) ∧
    (∀ addr, Agree root root' sz s s' (fetchaddr p addr) (fetchaddr q addr)) ∧
    (∀ srcva max,
      (Agree root root' sz s s' (copyinstr root srcva max) (copyinstr root' srcva max) ↔
        Unreached s root sz srcva max) ∧
      (Agree root root' sz s s' (fetchstr p srcva max) (fetchstr q srcva max) ↔
        Unreached s root sz srcva max)) ∧
    (∀ va, (Agree root root' sz s s' (userLoad p va) (userLoad q va) ↔
        (Missing s root sz (va / pgsize) → va < sz)) ∧
      ∀ b, (Agree root root' sz s s' (userStore p va b) (userStore q va b) ↔
        (Missing s root sz (va / pgsize) → va < sz))) := by
  refine ⟨fun srcva len => ?_, fun dstva src => ?_, fun addr => ?_,
    fun srcva max => agree_string h h' hdense hview hp.1 hq.1,
    fun va => agree_access h h' hdense hview hp hq⟩
  · refine agree_of_view (f := fun m => (readable srcva len m, m)) hdense hview
      ((h.copyin hp.1 hp.2).post ?_) ((h'.copyin hq.1 hq.2).post ?_)
    · rintro r t ⟨ht, hr⟩
      exact hr.imp_right (fun hr => by rw [hr, ht.view])
    · rintro r t ⟨ht, hr⟩
      exact ⟨ht.brings, hr.imp_right (fun hr => by rw [hr, ht.view])⟩
  · exact agree_of_view (f := writable dstva src) hdense hview
      ((h.copyout hp.1 hp.2).post (fun _ _ ht => ht.2)) (h'.copyout hq.1 hq.2)
  · refine agree_of_view (f := fun m => (if sz ≤ addr ∨ sz < u64 (addr + 8) then none
      else if (readable addr 8 m).1 then some (readable addr 8 m).2 else none, m))
      hdense hview ((h.fetchaddr hp.1 hp.2).post ?_) ((h'.fetchaddr hq.1 hq.2).post ?_)
    · rintro r t ⟨-, hv, hr⟩
      exact hr.imp_right (fun hr => by rw [hr, hv])
    · rintro r t ⟨hbrings, hv, hr⟩
      exact ⟨hbrings, hr.imp_right (fun hr => by rw [hr, hv])⟩

end Twins

def fullRam : Ram :=
  match vmfault lazyTask 4096 0 lazyRam with
  | .ok (_, t) => t
  | .error _ => lazyRam

theorem fullRam_space : Space startPages 4096 100 32768 fullRam ∧ Dense fullRam 4096 100 ∧
    fullRam.view 4096 100 = lazyRam.view 4096 100 := by
  have hrun : vmfault lazyTask 4096 0 lazyRam = .ok (16384, fullRam) := rfl
  rcases (lazyRam_space.user.vmfault (p := lazyTask) (E := fun _ => True) rfl rfl).ok hrun
    with ⟨hr, -⟩ | ⟨-, hlt, hnone, -, hfull⟩
  · simp at hr
  refine ⟨hfull.space lazyRam_space.special, ?_, view_fault (k := 0) hlt (by decide) hnone hfull.cell⟩
  intro k hk
  have hk0 : k = 0 := by
    simp only [pgsize] at hk
    omega
  rw [hk0, hfull.cell, show slotOf (0 * pgsize) = slotOf (pgrounddown 0) from rfl,
    Function.update_self]
  simp

theorem lazy_transparent_copyin : Agree 4096 4096 100 lazyRam fullRam (copyin lazyTask 4096 10 5000)
      (copyin lazyTask 4096 10 5000) ∧
    Agree 4096 4096 100 lazyRam fullRam (copyinstr 4096 50 0) (copyinstr 4096 50 0) ∧
    Agree 4096 4096 100 lazyRam fullRam (userLoad lazyTask 99) (userLoad lazyTask 99) := by
  obtain ⟨hspace, hdense, hview⟩ := fullRam_space
  have hall := lazy_transparent (p := lazyTask) (q := lazyTask) lazyRam_space hspace hdense hview
    ⟨rfl, rfl⟩ ⟨rfl, rfl⟩
  exact ⟨hall.1 10 5000, (hall.2.2.2.1 50 0).1.mpr (fun i hi => absurd hi (Nat.not_lt_zero i)),
    (hall.2.2.2.2 99).1.mpr (fun _ => by decide)⟩

/-- A string on a page that is missing is not found, and neither is a byte on the last
page beyond the size. -/
theorem lazy_string_lost : ∃ s s' p, Space startPages p.pagetable p.sz p.trapframe s ∧
    Space startPages p.pagetable p.sz p.trapframe s' ∧ Dense s' p.pagetable p.sz ∧
    s'.view p.pagetable p.sz = s.view p.pagetable p.sz ∧
    copyinstr p.pagetable 0 16 s = .ok ((false, []), s) ∧
    copyinstr p.pagetable 0 16 s' = .ok ((true, [0]), s') ∧
    userLoad p 200 s = .ok (none, s) ∧ userLoad p 200 s' = .ok (some 0, s') := by
  obtain ⟨hspace, hdense, hview⟩ := fullRam_space
  exact ⟨lazyRam, fullRam, lazyTask, lazyRam_space, hspace, hdense, hview, rfl, rfl, rfl, rfl⟩

end Xv6.Vm
