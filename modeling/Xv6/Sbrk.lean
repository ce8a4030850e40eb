import Xv6.LazyCopies
import Xv6.Machine

/-! What a process finds in its memory while it stores and calls `sbrk`. Sizes are
counted in bytes and pages are handed out whole, so that what an unaligned shrink
leaves on the last page is there again after the next growth. -/

namespace Xv6.Vm

open Fallible Function Option

def sysSbrk (p : Task) (n : BitVec 32) (eager : Bool) : VmM (Option Nat × Task) := do
  match ← sbrk p n.toInt eager with
  | none => pure (none, p)
  | some sz => pure (some p.sz, { p with sz := sz })

structure Process where
  task : Task
  ram : Ram

inductive Act
  | load (va : Nat)
  | store (va : Nat) (b : Byte)
  | sbrk (n : BitVec 32) (eager : Bool)

/-- An access that fails kills the process. -/
def Process.step (s : Process) : Act → Option Process
  | .load va =>
    match userLoad s.task va s.ram with
    | .ok (some _, t) => some ⟨s.task, t⟩
    | _ => none
  | .store va b =>
    match userStore s.task va b s.ram with
    | .ok (true, t) => some ⟨s.task, t⟩
    | _ => none
  | .sbrk n eager =>
    match sysSbrk s.task n eager s.ram with
    | .ok ((_, p), t) => some ⟨p, t⟩
    | .error _ => none

def processes : Machine Process Act := ⟨Process.step⟩

/-- A shrink below zero wraps around, and leaves the size alone. -/
def resized (sz : Nat) (n : Int) : Nat := if 0 ≤ sz + n then (sz + n).toNat else sz

def resizedView (m : View) (sz sz' : Nat) : View := fun k =>
  if sz' ≤ k * pgsize then none else if k * pgsize < sz then m k else some faultCell

/-- The rest of the last page is zero. -/
def Clear (m : View) (sz : Nat) : Prop :=
  ∀ va, sz ≤ va → va / pgsize * pgsize < sz → viewLoad m va = some 0

def Process.memory (s : Process) (va : Nat) : Option Byte :=
  viewLoad (s.ram.view s.task.pagetable s.task.sz) va

/-- The load gives `b`, unless there is no memory left for a missing page. -/
def Process.Reads (s : Process) (va : Nat) (b : Option Byte) : Prop :=
  Ends (userLoad s.task va) s.ram
    (fun r t => r = b ∨ r = none ∧ s.ram.failures < t.failures) (fun _ => False)

def Process.Valid (all : Nat → Prop) (s : Process) : Prop :=
  Space all s.task.pagetable s.task.sz s.task.trapframe s.ram

/-- What the process should find in its memory: new bytes are zero, and the others
what has been stored there. -/
def expected (m : Nat → Option Byte) (s : Process) : Act → Nat → Option Byte
  | .load _, va => m va
  | .store a b, va => if va = a then (m va).map (fun _ => b) else m va
  | .sbrk _ _, va => if va < s.task.sz then m va else some 0

def Tidy (s : Process) : Act → Prop
  | .load _ => True
  | .store va _ => va < s.task.sz
  | .sbrk n _ => n.toInt < 0 → 0 ≤ s.task.sz + n.toInt → (s.task.sz + n.toInt) % pgsize = 0

instance (s : Process) : (e : Act) → Decidable (Tidy s e)
  | .load _ => inferInstanceAs (Decidable True)
  | .store va _ => inferInstanceAs (Decidable (va < s.task.sz))
  | .sbrk n _ => inferInstanceAs (Decidable (n.toInt < 0 → 0 ≤ s.task.sz + n.toInt →
      (s.task.sz + n.toInt) % pgsize = 0))

section Sbrk

variable {all : Nat → Prop} {s t : Ram} {root sz sz' frame va : Nat} {m : View} {p : Task}
  {n : Int} {E : String → Prop}

theorem viewLoad_congr {m' : View} (h : m' (va / pgsize) = m (va / pgsize)) :
    viewLoad m' va = viewLoad m va := by
  rw [viewLoad, viewLoad, viewAccess, viewAccess, userPage, userPage, h]

theorem viewLoad_cell {c : Cell} (hc : m (va / pgsize) = some c) :
    viewLoad m va = if c.flags &&& pteU ≠ 0 ∧ c.flags &&& pteR ≠ 0 then
      some (c.byte (va - pgrounddown va)) else none := by
  rw [viewLoad, viewAccess, userPage, hc, Option.filter_filter, Option.filter_some]
  simp only [Bool.and_eq_true, decide_eq_true_eq, apply_ite (Option.map _), Option.map_some,
    Option.map_none]

theorem viewLoad_store {b : Byte} {m' : View} (h : viewStore m va b = (true, m')) (a : Nat) :
    viewLoad m' a = if a = va then (viewLoad m a).map (fun _ => b) else viewLoad m a := by
  rw [viewStore] at h
  cases hc : viewAccess m va pteW with
  | none => simp [hc] at h
  | some c =>
    rw [hc] at h
    obtain rfl := (Prod.mk.inj h).2
    by_cases hpage : a / pgsize = va / pgsize
    · have hcell : m (va / pgsize) = some c := by
        rw [viewAccess, userPage, filter_filter, filter_eq_some_iff] at hc
        exact hc.1
      have hsame : a = va ↔ a - pgrounddown a = va - pgrounddown va := by
        have hdown := pgrounddown_spec a
        have hdown' := pgrounddown_spec va
        simp only [pgrounddown, pgsize] at *
        omega
      rw [viewLoad_cell (by rw [hpage, update_self]), viewLoad_cell (hpage ▸ hcell)]
      grind [written]
    · rw [viewLoad_congr (update_of_ne hpage _ _), if_neg (fun he => hpage (congrArg (· / pgsize) he))]

theorem view_resized (ht : User all root sz' t) (hkeep : ∀ k, k * pgsize < sz → k * pgsize < sz' →
      t.cell root (slotOf (k * pgsize)) = s.cell root (slotOf (k * pgsize)))
    (hnew : ∀ k, sz ≤ k * pgsize → k * pgsize < sz' → t.cell root (slotOf (k * pgsize)) = none ∨
      t.cell root (slotOf (k * pgsize)) = some faultCell) :
    t.view root sz' = resizedView (s.view root sz) sz sz' := by
  have hsize := ht.size
  have hmax : maxva = trapframe + 2 * pgsize := by decide
  have hlow : maxva < 2 ^ 39 := by decide
  funext k
  rw [resizedView, Ram.view, Ram.view]
  by_cases hout : sz' ≤ k * pgsize
  · rw [if_pos hout, if_neg (not_lt.mpr hout)]
    split_ifs with hk
    · rw [ht.cell_above hout (mul_pgsize_mod k) (by omega), none_or]
    · rfl
  · have hk : k * pgsize < maxva := by omega
    rw [if_neg hout, if_pos hk, if_pos hk, if_pos (not_le.mp hout)]
    split_ifs with hold
    · rw [hkeep k hold (not_le.mp hout)]
    · rcases hnew k (not_lt.mp hold) (not_le.mp hout) with hc | hc
      · rw [hc, none_or]
      · rw [hc, some_or]

theorem viewLoad_resized (hlt : va / pgsize * pgsize < sz') (hclear : Clear m sz) :
    viewLoad (resizedView m sz sz') va = if va < sz then viewLoad m va else some 0 := by
  have hdown := Nat.div_mul_le_self va pgsize
  by_cases hpage : va / pgsize * pgsize < sz
  · have hsame : viewLoad (resizedView m sz sz') va = viewLoad m va := by
      refine viewLoad_congr ?_
      rw [resizedView, if_neg (by omega), if_pos hpage]
    rw [hsame]
    split_ifs with hva
    · rfl
    · exact hclear va (not_lt.mp hva) hpage
  · rw [if_neg (by omega), viewLoad, viewAccess, userPage, resizedView, if_neg (by omega),
      if_neg hpage]
    rfl

/-- What `sbrk` leaves: the old address space, or the one of the new size. -/
def Sized (all : Nat → Prop) (root sz frame : Nat) (s : Ram) (n : Int) (r : Option Nat)
    (t : Ram) : Prop :=
  (r = none ∧ Space all root sz frame t ∧ t.view root sz = s.view root sz) ∨
    (r = some (resized sz n) ∧ Space all root (resized sz n) frame t ∧
      t.view root (resized sz n) = resizedView (s.view root sz) sz (resized sz n))

theorem Sized.failed (h : Space all root sz frame s) (ht : Became all root s t sz (s.cell root)) :
    Sized all root sz frame s n none t :=
  .inl ⟨rfl, ht.space h.special, view_eq ht.cell⟩

theorem Sized.done {cells : Slot → Option Cell} (h : Space all root sz frame s)
    (hsz : resized sz n = sz') (ht : Became all root s t sz' cells)
    (hkeep : ∀ k, k * pgsize < sz → k * pgsize < sz' →
      cells (slotOf (k * pgsize)) = s.cell root (slotOf (k * pgsize)))
    (hnew : ∀ k, sz ≤ k * pgsize → k * pgsize < sz' →
      cells (slotOf (k * pgsize)) = none ∨ cells (slotOf (k * pgsize)) = some faultCell) :
    Sized all root sz frame s n (some sz') t := by
  subst hsz
  exact .inr ⟨rfl, ht.space h.special, view_resized ht.user (ht.cell ▸ hkeep) (ht.cell ▸ hnew)⟩

theorem Sized.same (h : Space all root sz frame s) (hsz : resized sz n = sz) :
    Sized all root sz frame s n (some sz) s :=
  Sized.done h hsz h.user.became (fun _ _ _ => rfl) (by omega)

theorem addInt_resized (h : User all root sz s) (hn : -2 ^ 31 ≤ n ∧ n < 2 ^ 31)
    (h0 : 0 ≤ sz + n) : addInt sz n = resized sz n := by
  have hsize := h.size
  rw [trapframe_val] at hsize
  rw [resized, if_pos h0, addInt, Int.emod_eq_of_lt h0 (by omega)]

theorem Space.growproc (h : Space all root sz frame s) (hp : p.pagetable = root)
    (hsz : p.sz = sz) (hn : -2 ^ 31 ≤ n ∧ n < 2 ^ 31) :
    Ends (growproc p n) s (fun r t => Sized all root sz frame s n r t) E := by
  have hsize := h.user.size
  have hmax : trapframe < 2 ^ 39 := by decide
  rw [Vm.growproc, hp, hsz]
  by_cases hpos : 0 < n
  · have hnew := addInt_resized h.user hn (by omega)
    have hval : resized sz n = (sz + n).toNat := if_pos (by omega)
    rw [if_pos hpos]
    split_ifs with hbig
    · exact Ends.pure (Sized.failed h h.user.became)
    · refine (h.user.uvmalloc (by decide) (not_lt.mp hbig)).bind ?_
      rintro r t (⟨hlt, -, -⟩ | ⟨hle, rfl, j, hj, htop, ht⟩ | ⟨rfl, -, ht⟩)
      · omega
      · rw [if_neg (by omega)]
        obtain ⟨hmod, hup, -, -⟩ := pgroundup_spec hsize
        refine Ends.pure (Sized.done h hnew.symm ht (fun k hk hk' => ?_) (fun k hk hk' => ?_))
        · have hbelow := (lt_pgroundup hsize (mul_pgsize_mod k)).mpr hk
          rw [overlay_apply hmod (mul_pgsize_mod k) (by omega) (by omega), if_neg (by omega)]
        · have habove := (lt_pgroundup hsize (mul_pgsize_mod k)).not.mpr (not_lt.mpr hk)
          rw [overlay_apply hmod (mul_pgsize_mod k) (by omega) (by omega), if_pos (by omega)]
          exact .inr rfl
      · rw [if_pos rfl]
        exact Ends.pure (Sized.failed h ht)
  rw [if_neg hpos]
  split_ifs with hneg
  · by_cases h0 : 0 ≤ sz + n
    · have hnew := addInt_resized h.user hn h0
      have hval : resized sz n = (sz + n).toNat := if_pos h0
      refine (h.user.uvmdealloc (by omega)).bind ?_
      rintro r t ⟨rfl, ht⟩
      refine Ends.pure (Sized.done h hnew.symm ht (fun k hk hk' => ?_) (by omega))
      obtain ⟨hmod, -, -, hlow⟩ := pgroundup_spec ht.user.size
      have hbelow := (lt_pgroundup ht.user.size (mul_pgsize_mod k)).mpr hk'
      obtain ⟨-, -, -, htop⟩ := pgroundup_spec hsize
      have hpages := Nat.div_mul_le_self (pgroundup sz - pgroundup (addInt sz n)) pgsize
      rw [overlay_apply hmod (mul_pgsize_mod k) (by omega) (by omega), if_neg (by omega)]
    · have hwrap : sz ≤ addInt sz n := by
        rw [addInt]
        omega
      rw [Vm.uvmdealloc, if_pos hwrap]
      exact Ends.bind_ok (a := sz) (t := s) rfl (Ends.pure (Sized.same h (if_neg h0)))
  · refine Ends.pure (Sized.same h ?_)
    rw [resized, if_pos (by omega)]
    omega

theorem Space.sbrk {eager : Bool} (h : Space all root sz frame s) (hp : p.pagetable = root)
    (hsz : p.sz = sz) (hn : -2 ^ 31 ≤ n ∧ n < 2 ^ 31) :
    Ends (sbrk p n eager) s (fun r t => Sized all root sz frame s n r t) E := by
  rw [Vm.sbrk]
  split_ifs with heager hwrap hbig
  · exact h.growproc hp hsz hn
  · exact Ends.pure (Sized.failed h h.user.became)
  · exact Ends.pure (Sized.failed h h.user.became)
  · have h0 : 0 ≤ n := not_lt.mp (fun hneg => heager (.inr hneg))
    have hnew := addInt_resized h.user hn (by omega)
    have hval : resized sz n = (sz + n).toNat := if_pos (by omega)
    rw [hsz] at hwrap hbig ⊢
    refine Ends.pure (Sized.done h hnew.symm (h.user.became.resize (not_lt.mp hbig)
      (fun k hk _ => by omega)) (fun _ _ _ => rfl) (fun k hk hk' => .inl ?_))
    exact h.user.cell_above hk (mul_pgsize_mod k) (by
      have hmax : trapframe < 2 ^ 39 := by decide
      omega)

end Sbrk

structure Kept (all : Nat → Prop) (s : Process) (m : Nat → Option Byte) : Prop where
  valid : s.Valid all
  clear : Clear (s.ram.view s.task.pagetable s.task.sz) s.task.sz
  memory : ∀ va < s.task.sz, s.memory va = m va

section Processes

variable {all : Nat → Prop} {s t : Process} {m : Nat → Option Byte} {va : Nat} {b : Byte}
  {n : BitVec 32} {eager : Bool} {e : Act}

theorem sysSbrk_spec (h : s.Valid all) (n : BitVec 32) (eager : Bool) :
    ∃ r p t, sysSbrk s.task n eager s.ram = .ok ((r, p), t) ∧ (⟨p, t⟩ : Process).Valid all ∧
      (r = none ∧ p = s.task ∧ (⟨p, t⟩ : Process).memory = s.memory ∨
      r = some s.task.sz ∧ p = { s.task with sz := resized s.task.sz n.toInt } ∧
        t.view p.pagetable p.sz =
          resizedView (s.ram.view s.task.pagetable s.task.sz) s.task.sz p.sz) := by
  have hn : -2 ^ 31 ≤ n.toInt ∧ n.toInt < 2 ^ 31 := by
    have hle := n.le_toInt
    have hlt := n.toInt_lt
    omega
  have hrun : Ends (sysSbrk s.task n eager) s.ram (fun r t => (⟨r.2, t⟩ : Process).Valid all ∧
      (r.1 = none ∧ r.2 = s.task ∧ (⟨r.2, t⟩ : Process).memory = s.memory ∨
      r.1 = some s.task.sz ∧ r.2 = { s.task with sz := resized s.task.sz n.toInt } ∧
        t.view r.2.pagetable r.2.sz = resizedView (s.ram.view s.task.pagetable s.task.sz)
          s.task.sz r.2.sz)) (fun _ => False) := by
    refine (Space.sbrk h rfl rfl hn).bind ?_
    rintro r t (⟨rfl, hspace, hview⟩ | ⟨rfl, hspace, hview⟩)
    · refine Ends.pure ⟨hspace, .inl ⟨rfl, rfl, ?_⟩⟩
      funext va
      rw [Process.memory, Process.memory, hview]
    · exact Ends.pure ⟨hspace, .inr ⟨rfl, rfl, hview⟩⟩
  obtain ⟨⟨r, p⟩, t, hok, hrest⟩ := hrun.returns
  exact ⟨r, p, t, hok, hrest⟩

theorem Kept.load (h : Kept all s m) (hstep : processes.step s (.load va) = some t) :
    Kept all t m := by
  simp only [processes, Process.step] at hstep
  split at hstep
  · rename_i b u hrun
    obtain rfl := some.inj hstep
    obtain ⟨⟨hbecame, -, hview⟩, -⟩ :=
      (Space.userLoad (E := fun _ => False) h.valid rfl rfl).ok hrun
    refine ⟨hbecame.space h.valid.special, hview ▸ h.clear, fun va hva => ?_⟩
    rw [Process.memory, hview]
    exact h.memory va hva
  · simp at hstep

theorem Kept.store (h : Kept all s m) (hva : va < s.task.sz)
    (hstep : processes.step s (.store va b) = some t) :
    Kept all t (expected m s (.store va b)) := by
  simp only [processes, Process.step] at hstep
  split at hstep
  · rename_i u hrun
    obtain rfl := some.inj hstep
    obtain ⟨hbecame, -, ⟨hfalse, -⟩ | hview⟩ :=
      (Space.userStore (E := fun _ => False) h.valid rfl rfl (fun _ => hva)).ok hrun
    · simp at hfalse
    have hload := viewLoad_store hview.symm
    refine ⟨hbecame.space h.valid.special, fun a hle hlt => ?_, fun a ha => ?_⟩
    · rw [hload, if_neg (hva.trans_le hle).ne']
      exact h.clear a hle hlt
    · rw [Process.memory, hload, expected, ← h.memory a ha]
      rfl
  · simp at hstep

theorem Kept.sbrk (h : Kept all s m) (htidy : Tidy s (.sbrk n eager))
    (hstep : processes.step s (.sbrk n eager) = some t) :
    Kept all t (expected m s (.sbrk n eager)) := by
  obtain ⟨r, p, u, hok, hvalid, hr⟩ := sysSbrk_spec h.valid n eager
  simp only [processes, Process.step, hok] at hstep
  obtain rfl := some.inj hstep
  rcases hr with ⟨-, rfl, hmem⟩ | ⟨-, rfl, hview⟩
  · refine ⟨hvalid, fun va hle hlt => ?_, fun va hva => ?_⟩
    · exact (congrFun hmem va).trans (h.clear va hle hlt)
    · rw [hmem, expected, if_pos hva]
      exact h.memory va hva
  · refine ⟨hvalid, fun va hle hlt => ?_, fun va hva => ?_⟩
    · have hlow : s.task.sz ≤ resized s.task.sz n.toInt := by
        by_contra hless
        rw [Tidy] at htidy
        have hle' : resized s.task.sz n.toInt ≤ va := hle
        have hlt' : va / pgsize * pgsize < resized s.task.sz n.toInt := hlt
        unfold resized at *
        simp only [pgsize] at *
        split_ifs at * with h0
        · omega
        · omega
      rw [hview, viewLoad_resized hlt h.clear, if_neg]
      exact not_lt.mpr (hlow.trans hle)
    · rw [Process.memory, hview, viewLoad_resized _ h.clear, expected]
      split_ifs with hold
      · exact h.memory va hold
      · rfl
      · exact lt_of_le_of_lt (Nat.div_mul_le_self va pgsize) hva

theorem Kept.step (h : Kept all s m) (htidy : Tidy s e) (hstep : processes.step s e = some t) :
    Kept all t (expected m s e) := by
  cases e with
  | load va => exact h.load hstep
  | store va b => exact h.store htidy hstep
  | sbrk n eager => exact h.sbrk htidy hstep

theorem Kept.reads (h : Kept all s m) (hva : va < s.task.sz) : s.Reads va (m va) := by
  refine (h.valid.userLoad rfl rfl).post ?_
  rintro r t ⟨-, hfail | hr⟩
  · exact .inr hfail
  · exact .inl ((hr (fun _ => hva)).trans (h.memory va hva))

theorem sbrk_memory {es : List Act} (h : s.Valid all)
    (hclear : Clear (s.ram.view s.task.pagetable s.task.sz) s.task.sz)
    (htidy : processes.Along Tidy s es) (hrun : processes.exec s es = some t) :
    (∀ va < t.task.sz, t.Reads va (processes.watch expected s.memory s es va)) ∧
    ∀ n eager, ∃ r p u, sysSbrk t.task n eager t.ram = .ok ((r, p), u) ∧
      (r = none ∧ p = t.task ∧ (⟨p, u⟩ : Process).memory = t.memory ∨
      r = some t.task.sz ∧ p = { t.task with sz := resized t.task.sz n.toInt }) := by
  have hstart : Kept all s s.memory := ⟨h, hclear, fun _ _ => rfl⟩
  have hkept := processes.watch_inv expected (I := Kept all)
    (fun _ _ _ _ hstep hT hK => hK.step hT hstep) hrun htidy hstart
  refine ⟨fun va hva => hkept.reads hva, fun n eager => ?_⟩
  obtain ⟨r, p, u, hok, -, hr⟩ := sysSbrk_spec hkept.valid n eager
  exact ⟨r, p, u, hok, hr.imp_right (fun hr => ⟨hr.1, hr.2.1⟩)⟩

end Processes

def fresh : Process := ⟨⟨4096, 0, 32768⟩, lazyRam⟩

def regrown : List Act := [.sbrk 5000 true, .store 4100 7, .sbrk (-904) true, .sbrk 904 false]

theorem sbrk_memory_regrown : ∃ t, processes.exec fresh regrown = some t ∧ t.task.sz = 5000 ∧
    t.Reads 4100 (some 0) := by
  have hsize : (processes.exec fresh regrown).map (·.task.sz) = some 5000 := by decide +kernel
  obtain ⟨t, hrun, hsz⟩ := map_eq_some_iff.mp hsize
  have hzero : processes.watch expected fresh.memory fresh regrown 4100 = some 0 := by
    decide +kernel
  have hvalid : fresh.Valid startPages := lazyRam_fresh.1
  have hall := sbrk_memory hvalid (fun va _ hlt => absurd hlt (Nat.not_lt_zero _))
    (by decide +kernel) hrun
  exact ⟨t, hrun, hsz, hzero ▸ hall.1 4100 (by omega)⟩

/-- What a shrink inside a page leaves there is back after the next growth. -/
theorem sbrk_old_byte :
    (processes.exec fresh [.sbrk 100 true, .store 50 7, .sbrk (-60) true]).map (·.task.sz) =
      some 40 ∧
    (processes.exec fresh [.sbrk 100 true, .store 50 7, .sbrk (-60) true, .sbrk 60 true]).map
      (fun t => (t.task.sz, (userLoad t.task 50 t.ram).toOption.map Prod.fst)) =
      some (100, some (some 7)) := by
  decide +kernel

end Xv6.Vm
