import Xv6.Sbrk
import Xv6.LazyCopies

/-! `kfork` as far as memory goes: the child gets a copy of its own, and nothing is
left of it when memory runs out. -/

namespace Xv6.Vm

open Fallible Function Option

def copyFill (pa mem : Nat) : VmM Unit := do
  let s ← get
  setPage mem (s.page pa)

def copyLoop (old new sz : Nat) : Nat → Nat → VmM Bool
  | 0, i => if i < sz then throw "uvmcopy: endless" else pure true
  | fuel + 1, i =>
    if i < sz then do
      match ← walk old i false with
      | none => copyLoop old new sz fuel (u64 (i + pgsize))
      | some slot =>
        let pte ← readPte slot
        if pte &&& pteV = 0 then copyLoop old new sz fuel (u64 (i + pgsize))
        else
          match ← mapNew new i (pteFlags pte) (copyFill (pte2pa pte)) with
          | none =>
            uvmunmap new 0 (i / pgsize) true
            pure false
          | some _ => copyLoop old new sz fuel (u64 (i + pgsize))
    else pure true

def uvmcopy (old new sz : Nat) : VmM Bool := copyLoop old new sz (sz / pgsize + 1) 0

def procFreepagetable (pagetable sz : Nat) : VmM Unit := do
  uvmunmap pagetable trampoline 1 false
  uvmunmap pagetable trapframe 1 false
  uvmfree pagetable sz

def freeproc (p : Task) : VmM Unit := do
  kfree p.trapframe
  procFreepagetable p.pagetable p.sz

def allocproc : VmM (Option Task) := do
  match ← kalloc with
  | none => pure none
  | some frame =>
    match ← procPagetable frame with
    | none =>
      kfree frame
      pure none
    | some pagetable => pure (some ⟨pagetable, 0, frame⟩)

def kfork (p : Task) : VmM (Option Task) := do
  match ← allocproc with
  | none => pure none
  | some np =>
    if ← uvmcopy p.pagetable np.pagetable p.sz then pure (some { np with sz := p.sz })
    else
      freeproc np
      pure none

/-- The pages of an address space: its tables and its user pages. -/
def Ram.occupied (s : Ram) (root a : Nat) : Prop :=
  (∃ p, s.node root p = some a) ∨ Mine (s.map root) a

/-- The pages of a process: those of its address space and its trapframe. -/
def Ram.holds (s : Ram) (x : Option Task) (a : Nat) : Prop :=
  ∃ p ∈ x, s.occupied p.pagetable a ∨ p.trapframe = a

/-- The pages `X` are exchanged for `Y`, and the others in use are left alone. -/
structure Turns (all : Nat → Prop) (s t : Ram) (X Y : Nat → Prop) : Prop where
  pool : Pool all t
  text : t.trampText = s.trampText
  mine : ∀ a, Y a → t.busy all a
  rest : ∀ a, t.busy all a ∧ ¬ Y a ↔ s.busy all a ∧ ¬ X a
  kept : ∀ a, s.busy all a → ¬ X a → t.page a = s.page a

section Pages

variable {all X Y Z : Nat → Prop} {s t u : Ram} {root sz frame a : Nat}
  {cells : Slot → Option Cell} {E : String → Prop}

theorem Turns.trans (h : Turns all s t X Y) (h' : Turns all t u Y Z) : Turns all s u X Z := by
  refine ⟨h'.pool, h'.text.trans h.text, h'.mine, fun a => (h'.rest a).trans (h.rest a),
    fun a ha hX => ?_⟩
  obtain ⟨ht, hY⟩ := (h.rest a).mpr ⟨ha, hX⟩
  exact (h'.kept a ht hY).trans (h.kept a ha hX)

theorem Ram.rest_iff : s.rest all root a ↔ s.busy all a ∧ ¬ s.occupied root a := by
  rw [Ram.rest, Ram.others, Ram.occupied, not_or, not_exists, and_assoc]

theorem User.occupied_busy (h : User all root sz s) (ha : s.occupied root a) : s.busy all a := by
  rcases ha with ⟨p, hp⟩ | ⟨v, pte, hv, hpte, rfl⟩
  · exact h.table.busy p a hp
  · exact (h.own v pte hv hpte).1

theorem Became.turns (h : Became all root s t sz cells) :
    Turns all s t (s.occupied root) (t.occupied root) := by
  refine ⟨h.user.table.pool, h.within.text, fun a => h.user.occupied_busy, fun a => ?_,
    fun a ha hX => ?_⟩
  · rw [← Ram.rest_iff, ← Ram.rest_iff, h.within.rest]
  · exact h.within.kept a (Ram.rest_iff.mpr ⟨ha, hX⟩) (Ram.rest_iff.mpr ⟨ha, hX⟩)

theorem Left.turns {own : Nat → Prop} (h : Left all own s t)
    (hown : ∀ a, own a ↔ s.busy all a ∧ ¬ X a) : Turns all s t X (fun _ => False) := by
  refine ⟨h.pool, h.text, fun _ => False.elim, fun a => ?_, fun a ha hX => ?_⟩
  · rw [h.busy, and_iff_left not_false, hown]
  · exact h.page a ha ((hown a).mpr ⟨ha, hX⟩)

theorem kfree_turns (hpool : Pool all s) (ha : s.busy all a) :
    Ends (kfree a) s (fun _ t => Turns all s t (a = ·) (fun _ => False)) E := by
  obtain ⟨halign, hlow, hhigh⟩ := hpool.page a ha.1
  refine Ends.of_ok (kfree_run halign hlow hhigh) ⟨hpool.free ha rfl rfl rfl, rfl,
    fun _ => False.elim, fun b => ?_, fun b _ hb => update_of_ne (Ne.symm hb) _ _⟩
  rw [Ram.busy, Ram.busy, List.mem_cons, eq_comm]
  tauto

theorem kalloc_turns (hpool : Pool all s) :
    Ends kalloc s (fun r t => Turns all s t (fun _ => False) (fun a => r = some a)) E := by
  refine (kalloc_spec s).post ?_
  rintro r t (⟨rfl, rfl⟩ | ⟨a, rest, rfl, hl, rfl⟩)
  · exact ⟨hpool.congr rfl rfl rfl, rfl, by simp, fun b => by simp [Ram.busy], fun _ _ _ => rfl⟩
  · have hbusy := fun b => hpool.busy_alloc (b := b) (t := { s with freelist := rest }) hl rfl
    have hne : ∀ b, s.busy all b → b ≠ a := fun b hb he => hb.2 (hl ▸ he ▸ List.mem_cons_self)
    refine ⟨hpool.alloc hl rfl rfl rfl, rfl, fun b hb => (hbusy b).mpr (.inl (some.inj hb).symm),
      fun b => ?_, fun b hb _ => update_of_ne (hne b hb) _ _⟩
    have hb := hne b
    have hbusy := hbusy b
    simp only [Ram.busy, some.injEq, not_false_eq_true, and_true] at *
    tauto

theorem Turns.along {W : Nat → Prop} (h : Turns all s t X Y)
    (hW : ∀ a, W a → s.busy all a ∧ ¬ X a) :
    Turns all s t (fun a => X a ∨ W a) (fun a => Y a ∨ W a) := by
  refine ⟨h.pool, h.text, fun a ha => ha.elim (h.mine a) fun ha => ((h.rest a).mpr (hW a ha)).1,
    fun a => ?_, fun a ha hX => h.kept a ha fun hXa => hX (.inl hXa)⟩
  rw [not_or, not_or, ← and_assoc, ← and_assoc, h.rest]

theorem User.of_map (h : User all root sz s) (htable : Table all root t)
    (hmap : ∀ v, isUser v → t.map root v = s.map root v)
    (hown : ∀ v pte, isUser v → s.map root v = some pte → t.others all root (pte2pa pte)) :
    User all root sz t := by
  refine ⟨htable, h.size, fun v pte hv hpte => ?_, fun v pte hv hpte => ?_,
    fun v w pte pte' hv hw hpte hpte' => ?_, fun v pte hv hpte => ?_⟩
  · exact h.low v pte hv (hmap v hv ▸ hpte)
  · exact hown v pte hv (hmap v hv ▸ hpte)
  · exact h.inj v w pte pte' hv hw (hmap v hv ▸ hpte) (hmap w hw ▸ hpte')
  · exact h.form v pte hv (hmap v hv ▸ hpte)

/-- What happens to other pages leaves an address space as it is. -/
theorem User.beside (h : User all root sz s) (ht : Turns all s t X Y)
    (hX : ∀ a, s.occupied root a → ¬ X a) : User all root sz t ∧ t.map root = s.map root ∧
      t.cell root = s.cell root ∧ t.occupied root = s.occupied root := by
  have hbusy : ∀ a, s.occupied root a → t.busy all a := fun a ha =>
    ((ht.rest a).mpr ⟨h.occupied_busy ha, hX a ha⟩).1
  have hpage : ∀ a, s.occupied root a → t.page a = s.page a := fun a ha =>
    ht.kept a (h.occupied_busy ha) (hX a ha)
  obtain ⟨htable, -, hmap, hnode⟩ := h.table.same
    (fun a => t.busy all a ∧ ∀ p, s.node root p ≠ some a) ht.pool
    (fun a => or_iff_not_imp_right.mpr fun ha => hpage a (.inl (not_not.mp ha)))
    (fun p a hp => hbusy a (.inl ⟨p, hp⟩)) (fun a ha => (and_iff_left ha).symm)
    (fun p a hp ha => ha.2 p hp)
  refine ⟨h.of_map htable (fun v _ => by rw [hmap]) fun v pte hv hpte => ?_, hmap,
    funext fun v => ?_, funext fun a => ?_⟩
  · refine ⟨hbusy _ (.inr ⟨v, pte, hv, hpte, rfl⟩), ?_⟩
    rw [hnode]
    exact (h.own v pte hv hpte).2
  · unfold Ram.cell
    rw [hmap]
    split_ifs with hv
    · refine Option.map_congr fun pte hpte => ?_
      rw [hpage _ (.inr ⟨v, pte, hv, hpte, rfl⟩)]
    · rfl
  · rw [Ram.occupied, Ram.occupied, hnode, hmap]

theorem Space.beside (h : Space all root sz frame s) (ht : Turns all s t X Y)
    (hX : ∀ a, s.occupied root a → ¬ X a) : Space all root sz frame t ∧
      t.cell root = s.cell root ∧ t.occupied root = s.occupied root := by
  obtain ⟨huser, hmap, hsame⟩ := h.user.beside ht hX
  exact ⟨⟨huser, by rw [hmap, ht.text, h.special.tramp], by rw [hmap, h.special.frame]⟩, hsame⟩

end Pages

section Copy

variable {all : Nat → Prop} {s t u : Ram} {root old new sz va k n : Nat} {pte : Pte}
  {v : Slot} {E : String → Prop}

theorem leaf_bind {α : Type} {m : VmM α} {f : Pte → VmM α} (hva : va < maxva) :
    (do
      match ← walk root va false with
      | none => m
      | some slot =>
        let pte ← readPte slot
        if pte &&& pteV = 0 then m else f pte : VmM α) s =
      (match s.map root (slotOf va) with
      | none => m
      | some pte => f pte) s := by
  rw [bind_ok (walk_false hva), Ram.map]
  cases s.node root (slotOf va).path with
  | none => rfl
  | some a =>
    have hread := bind_ok (m := readPte (a, px 0 va)) (a := (s.page a).pte (px 0 va)) (t := s)
      (f := fun pte => if pte &&& pteV = 0 then m else f pte) rfl
    refine hread.trans ?_
    rw [bind_some, show (slotOf va).2.2 = px 0 va from rfl, Ram.entry, present]
    by_cases hv : (s.page a).pte (px 0 va) &&& pteV = 0
    · rw [if_pos hv, if_neg (not_not.mpr hv)]
    · rw [if_neg hv, if_pos hv]

theorem or_pteV (h : pte &&& pteV ≠ 0) : pteFlags pte ||| pteV = pteFlags pte := by
  have hbit : pte.getLsbD 0 = true := by
    by_contra hf
    have hzero : pte[0] = false := by simpa using hf
    rw [pteV, BitVec.ofNat_eq_ofNat, BitVec.and_one_eq_setWidth_ofBool_getLsbD] at h
    simp [hzero] at h
  refine BitVec.eq_of_getLsbD_eq fun i _ => ?_
  by_cases hi : i = 0
  · simp [hi, pteFlags, hbit]
  · simp [pteV, hi]

theorem pteFlags_lt (pte : Pte) : (pteFlags pte).toNat < 2 ^ 10 := by
  rw [pteFlags, BitVec.toNat_and]
  exact Nat.and_lt_two_pow _ (by decide)

theorem copyFill_run {pa : Nat} (mem : Nat) (h : u.page pa = s.page pa) :
    copyFill pa mem u = .ok ((), { u with page := update u.page mem (s.page pa) }) := by
  rw [← h]
  rfl

theorem overlay_whole (ho : User all old sz u) (hk : k * pgsize < 2 ^ 39) (hsz : sz ≤ k * pgsize) :
    overlay (fun b => u.cell old (slotOf b)) k 0 (fun _ => none) = u.cell old := by
  funext v
  by_cases hv : ∃ j < k, v = slotOf (0 + j * pgsize)
  · obtain ⟨j, hj, rfl⟩ := hv
    rw [overlay_at (by decide) (by omega) hj]
  · rw [overlay_of_ne fun j hj he => hv ⟨j, hj, he⟩, eq_comm, Ram.cell]
    split_ifs with hu
    · refine map_eq_none_iff.mpr (eq_none_iff_forall_ne_some.mpr fun pte hpte => hv ?_)
      obtain ⟨j, hj, rfl⟩ := ho.low v pte hu hpte
      exact ⟨j, Nat.lt_of_mul_lt_mul_right (hj.trans_le hsz), by rw [Nat.zero_add]⟩
    · rfl

theorem User.copyLoop (ho : User all old sz u) (hapart : ∀ a, u.occupied old a → ¬ u.occupied new a)
    (h : Became all new u s sz (overlay (fun b => u.cell old (slotOf b)) k 0 (fun _ => none)))
    (hk : k * pgsize < sz + pgsize) (hfuel : sz ≤ (k + n) * pgsize) :
    Ends (copyLoop old new sz n (k * pgsize)) s (fun r t =>
      Became all new u t sz (if r then u.cell old else fun _ => none)) E := by
  have hsize := ho.size
  have hmax : trapframe + 2 * pgsize < 2 ^ 39 := by decide
  induction n generalizing k s with
  | zero =>
    rw [Nat.add_zero] at hfuel
    rw [Vm.copyLoop, if_neg (by omega)]
    rw [overlay_whole ho (by omega) hfuel] at h
    exact Ends.pure h
  | succ n ih =>
    rw [Vm.copyLoop]
    split_ifs with hlt
    · have hnext : u64 (k * pgsize + pgsize) = (k + 1) * pgsize := by
        rw [Nat.add_mul, one_mul]
        exact Nat.mod_eq_of_lt (by omega)
      have huser : isUser (slotOf (k * pgsize)) := isUser_slotOf (mul_pgsize_mod k) (by omega)
      have hempty : s.cell new (slotOf (k * pgsize)) = none := by
        rw [h.cell, overlay_apply (by decide) (mul_pgsize_mod k) (by omega) (by omega),
          if_neg (by omega)]
      obtain ⟨-, hmap, hcell, -⟩ := ho.beside h.turns hapart
      have hloop : ∀ t, Became all new u t sz (update (s.cell new) (slotOf (k * pgsize))
          (u.cell old (slotOf (k * pgsize)))) →
          Ends (Vm.copyLoop old new sz n (u64 (k * pgsize + pgsize))) t (fun r t =>
            Became all new u t sz (if r then u.cell old else fun _ => none)) E := by
        intro t ht
        rw [hnext]
        refine ih ?_ ?_ ?_
        · rwa [h.cell, ← Nat.zero_add (k * pgsize), ← overlay_succ] at ht
        · rw [Nat.add_mul, one_mul]
          omega
        · rwa [Nat.add_right_comm, Nat.add_assoc k]
      have hva : k * pgsize < maxva := by
        rw [maxva_eq, trampoline_eq]
        omega
      refine Ends.congr (leaf_bind hva) ?_
      cases hpte : s.map old (slotOf (k * pgsize)) with
      | none =>
        have hnone : u.cell old (slotOf (k * pgsize)) = none := by
          rw [← hcell, Ram.cell_eq_none huser, hpte]
        refine hloop s ⟨h.user, h.within, ?_⟩
        rw [hnone, ← hempty, update_eq_self]
      | some pte =>
        have hown : u.occupied old (pte2pa pte) := .inr ⟨_, pte, huser, hmap ▸ hpte, rfl⟩
        have hpa := Ram.rest_iff.mpr ((h.turns.rest _).mpr
          ⟨ho.occupied_busy hown, hapart _ hown⟩)
        obtain ⟨-, -, -, -, hv⟩ := walk_mapped hva hpte
        refine (h.user.mapNew (mul_pgsize_mod k) le_rfl (fun _ _ _ => ⟨hlt, hsize⟩)
          (fun _ _ _ => hempty) (pteFlags_lt pte)
          (fun mem w _ hkeep => copyFill_run mem (hkeep _ hpa.1))).bind ?_
        rintro r t (⟨rfl, -, ht⟩ | ⟨mem, rfl, -, -, -, ht⟩)
        · rw [Nat.mul_div_cancel k (by decide)]
          refine (ht.user.unmap (by decide) (by omega)).bind fun _ w hw => Ends.pure ?_
          have huw := h.trans (ht.trans hw)
          rwa [ht.cell, h.cell, overlay_undo (by decide) (by omega) (fun _ _ => rfl)] at huw
        · rw [or_pteV hv] at ht
          refine hloop t ?_
          rw [← hcell, User.cell_of_map huser hpte]
          exact h.trans ht
    · rw [overlay_whole ho (by omega) (by omega)] at h
      exact Ends.pure h

theorem User.uvmcopy (ho : User all old sz u) (hapart : ∀ a, u.occupied old a → ¬ u.occupied new a)
    (h : Became all new u u sz (fun _ => none)) : Ends (uvmcopy old new sz) u (fun r t =>
      Became all new u t sz (if r then u.cell old else fun _ => none)) E := by
  have hloop := ho.copyLoop (E := E) (k := 0) (n := sz / pgsize + 1) hapart h
    (by simp only [pgsize]; omega) (by simp only [pgsize]; omega)
  rwa [zero_mul] at hloop

end Copy

section Processes

variable {all : Nat → Prop} {s t u : Ram} {root sz frame a : Nat} {p : Task} {E : String → Prop}

@[simp] theorem Ram.holds_none (s : Ram) : s.holds none = fun _ => False := by
  funext a
  simp [Ram.holds]

@[simp] theorem Ram.holds_some (s : Ram) (p : Task) :
    s.holds (some p) = fun a => s.occupied p.pagetable a ∨ p.trapframe = a := by
  funext a
  simp [Ram.holds]

theorem User.procFreepagetable (h : User all root sz s) : Ends (procFreepagetable root sz) s
    (fun _ t => Turns all s t (s.occupied root) (fun _ => False)) E := by
  rw [Vm.procFreepagetable]
  refine (h.table.uvmunmap (n := 1) (by decide) (by decide) (fun hf => by simp at hf)).bind ?_
  intro _ t ht
  refine (ht.table.uvmunmap (n := 1) (by decide) (by decide) (fun hf => by simp at hf)).bind ?_
  intro _ u hu
  have hafter : After all root s u (s.others all root)
      (update (update (s.map root) (slotOf trampoline) none) (slotOf trapframe) none) := by
    refine ht.trans (hu.congr (fun a => ?_) ?_) (fun a ha _ => ⟨ha, by simp⟩)
    · rw [ht.others]
      simp
    · rw [ht.mapped]
      rfl
  have hmap : ∀ v, isUser v → u.map root v = s.map root v := by
    intro v hv
    rw [hafter.mapped, update_of_ne hv.2, update_of_ne hv.1]
  have huser := h.of_map hafter.table hmap fun v pte hv hpte =>
    (hafter.others _).mpr (h.own v pte hv hpte)
  have hmine : ∀ a, Mine (u.map root) a ↔ Mine (s.map root) a := fun a =>
    exists_congr fun v => exists_congr fun pte => and_congr_right fun hv => by rw [hmap v hv]
  have hturn : Turns all s u (s.occupied root) (u.occupied root) := by
    refine ⟨hafter.table.pool, hafter.text, fun a => huser.occupied_busy, fun a => ?_,
      fun a ha hX => ?_⟩
    · rw [← Ram.rest_iff, ← Ram.rest_iff, Ram.rest, Ram.rest, hafter.others, hmine]
    · have hrest := Ram.rest_iff.mpr ⟨ha, hX⟩
      exact hafter.kept a hrest.1 hrest.1
  refine (huser.uvmfree fun v hv => ?_).post fun _ w hw =>
    hturn.trans (hw.turns fun a => Ram.rest_iff)
  rw [hafter.mapped]
  rcases (isUser_iff v).mp hv with rfl | rfl
  · rw [update_of_ne (by decide), update_self]
  · rw [update_self]

/-- A process whose trapframe is none of its other pages. -/
def Alive (all : Nat → Prop) (s : Ram) (p : Task) : Prop :=
  Space all p.pagetable p.sz p.trapframe s ∧ s.rest all p.pagetable p.trapframe

theorem Alive.freeproc (h : Alive all s p) : Ends (freeproc p) s
    (fun _ t => Turns all s t (s.holds (some p)) (t.holds none)) E := by
  have hframe := Ram.rest_iff.mp h.2
  rw [Vm.freeproc]
  refine (kfree_turns h.1.user.table.pool hframe.1).bind fun _ t ht => ?_
  have hne : ∀ a, s.occupied p.pagetable a → ¬ p.trapframe = a := fun a ha he => hframe.2 (he ▸ ha)
  obtain ⟨hspace, -, hocc⟩ := h.1.beside ht hne
  refine hspace.user.procFreepagetable.post fun _ u hu => ?_
  have hfirst := ht.along fun a ha => ⟨h.1.user.occupied_busy ha, hne a ha⟩
  simp only [false_or] at hfirst
  rw [hocc] at hu
  simpa [or_comm] using hfirst.trans hu

theorem allocproc_spec (hpool : Pool all s) : Ends allocproc s (fun x t =>
    Turns all s t (fun _ => False) (t.holds x) ∧
      ∀ p ∈ x, Alive all t p ∧ p.sz = 0 ∧ ∀ v, t.cell p.pagetable v = none) E := by
  rw [allocproc]
  refine (kalloc_turns hpool).bind ?_
  rintro (_ | frame) t ht
  · exact Ends.pure ⟨by simpa using ht, by simp⟩
  simp only [some.injEq] at ht
  have hframe : ∀ a, frame = a → t.busy all a ∧ ¬ False := fun a ha => ⟨ht.mine a ha, not_false⟩
  refine (procPagetable_spec ht.pool).bind ?_
  rintro r u (⟨rfl, -, hu⟩ | ⟨root, rfl, -, -, hspace, hcell, hrest, hpage, htext, -⟩)
  · have hnext := (hu.turns (X := fun _ => False) (by simp)).along hframe
    simp only [false_or] at hnext
    refine (kfree_turns hu.pool (hnext.mine frame rfl)).bind fun _ w hw => ?_
    exact Ends.pure ⟨by simpa using (ht.trans hnext).trans hw, by simp⟩
  · have hnext : Turns all t u (fun _ => False) (u.occupied root) := by
      refine ⟨hspace.user.table.pool, htext, fun a => hspace.user.occupied_busy, fun a => ?_,
        fun a ha _ => hpage a ha⟩
      rw [← Ram.rest_iff, hrest, and_iff_left not_false]
    have hall := hnext.along hframe
    simp only [false_or] at hall
    refine Ends.pure ⟨by simpa using ht.trans hall, ?_⟩
    rintro p hp
    obtain rfl := some.inj hp
    exact ⟨⟨hspace, (hrest frame).mpr (hframe frame rfl).1⟩, rfl, hcell⟩

theorem Alive.kfork (h : Alive all s p) : Ends (kfork p) s (fun x t =>
    Turns all s t (fun _ => False) (t.holds x) ∧ ∀ q ∈ x, Alive all t q ∧ q.sz = p.sz ∧
      t.cell q.pagetable = s.cell p.pagetable) E := by
  rw [Vm.kfork]
  refine (allocproc_spec h.1.user.table.pool).bind ?_
  rintro (_ | np) t ⟨ht, hnp⟩
  · exact Ends.pure ⟨ht, by simp⟩
  obtain ⟨⟨hspace, hframe⟩, hzero, hcell⟩ := hnp np rfl
  obtain ⟨hparent, hsame, hocc⟩ := h.1.beside ht (fun _ _ => not_false)
  have hapart : ∀ a, t.occupied p.pagetable a → ¬ t.occupied np.pagetable a := by
    intro a ha hb
    rw [hocc] at ha
    refine ((ht.rest a).mpr ⟨h.1.user.occupied_busy ha, not_false⟩).2 ?_
    rw [Ram.holds_some]
    exact .inl hb
  have hnew : Became all np.pagetable t t p.sz (fun _ => none) := by
    have hbecame := hspace.user.became
    rw [funext hcell] at hbecame
    exact hbecame.resize hparent.user.size (fun _ _ hne => absurd rfl hne)
  refine (hparent.user.uvmcopy hapart hnew).bind fun r u hu => ?_
  have hmove := hu.turns.along (W := (np.trapframe = ·)) fun a ha => ha ▸ Ram.rest_iff.mp hframe
  have hframe' := (hu.within.rest np.trapframe).mpr hframe
  rw [Ram.holds_some] at ht
  cases r with
  | true =>
    refine Ends.pure ⟨by simpa using ht.trans hmove, ?_⟩
    intro q hq
    obtain rfl := some.inj hq
    exact ⟨⟨hu.space hspace.special, hframe'⟩, rfl, hu.cell.trans hsame⟩
  | false =>
    have hback : Alive all u np := by
      refine ⟨?_, hframe'⟩
      rw [hzero]
      exact (hu.resize (Nat.zero_le _) (fun _ _ hne => absurd rfl hne)).space hspace.special
    refine hback.freeproc.bind fun _ w hw => Ends.pure ⟨?_, by simp⟩
    rw [Ram.holds_some] at hw
    exact (ht.trans hmove).trans hw

/-- The child has a copy in pages of its own; a failed fork leaves no page behind. -/
theorem fork_memory (h : Alive all s p) : ∃ x t, kfork p s = .ok (x, t) ∧ Alive all t p ∧
    t.view p.pagetable p.sz = s.view p.pagetable p.sz ∧
    (∀ a, s.busy all a → t.busy all a ∧ t.page a = s.page a) ∧
    (x = none → ∀ a, t.busy all a ↔ s.busy all a) ∧
    ∀ q, x = some q → Alive all t q ∧ q.sz = p.sz ∧
      t.view q.pagetable q.sz = s.view p.pagetable p.sz ∧
      t.cell q.pagetable = s.cell p.pagetable ∧
      (∀ a, t.holds (some q) a → ¬ s.busy all a) ∧
      ∀ a, t.busy all a ↔ s.busy all a ∨ t.holds (some q) a := by
  obtain ⟨x, t, hok, ht, hx⟩ := h.kfork.returns
  have hkept : ∀ a, s.busy all a → t.busy all a ∧ ¬ t.holds x a := fun a ha =>
    (ht.rest a).mpr ⟨ha, not_false⟩
  obtain ⟨hspace, hcell, hocc⟩ := h.1.beside ht fun _ _ => not_false
  have hframe := Ram.rest_iff.mp h.2
  refine ⟨x, t, hok, ⟨hspace, Ram.rest_iff.mpr ⟨(hkept _ hframe.1).1, hocc ▸ hframe.2⟩⟩,
    view_eq hcell, fun a ha => ⟨(hkept a ha).1, ht.kept a ha not_false⟩, ?_, ?_⟩
  · rintro rfl a
    simpa using ht.rest a
  · rintro q rfl
    obtain ⟨hq, hsz, hsame⟩ := hx q rfl
    refine ⟨hq, hsz, ?_, hsame, fun a ha hs => (hkept a hs).2 ha, fun a => ⟨fun ha => ?_, ?_⟩⟩
    · funext k
      rw [Ram.view, Ram.view, hsame, hsz]
    · refine or_iff_not_imp_right.mpr fun hno => ((ht.rest a).mp ⟨ha, hno⟩).1
    · rintro (ha | ha)
      · exact (hkept a ha).1
      · exact ht.mine a ha

end Processes

theorem fullRam_alive : Alive startPages fullRam lazyTask := by
  have hrun : procPagetable 32768 startRam = .ok (some 4096, lazyRam) := rfl
  rcases (procPagetable_spec (E := fun _ => True) startRam_pool).ok hrun with
    ⟨hr, -⟩ | ⟨root, hr, -, -, -, -, hrest, -⟩
  · simp at hr
  obtain rfl := some.inj hr
  have hfault : vmfault lazyTask 4096 0 lazyRam = .ok (16384, fullRam) := rfl
  rcases (lazyRam_space.user.vmfault (p := lazyTask) (E := fun _ => True) rfl rfl).ok hfault
    with ⟨hr, -⟩ | ⟨-, -, -, -, hfull⟩
  · simp at hr
  exact ⟨fullRam_space.1,
    (hfull.within.rest 32768).mpr ((hrest 32768).mpr ⟨List.mem_cons_self, by decide⟩)⟩

/-- The parent has a page in memory, and the child gets one of its own. -/
theorem fork_memory_onePage : ∃ q t, kfork lazyTask fullRam = .ok (some q, t) ∧ q.sz = 100 ∧
    t.view q.pagetable q.sz = fullRam.view 4096 100 ∧ t.cell q.pagetable (slotOf 0) ≠ none := by
  obtain ⟨x, t, hok, -, -, -, -, hx⟩ := fork_memory fullRam_alive
  have hsome : (kfork lazyTask fullRam).toOption.map (·.1.isSome) = some true := by decide +kernel
  rw [hok] at hsome
  cases x with
  | none => simp [Except.toOption] at hsome
  | some q =>
    obtain ⟨-, hsz, hview, hcell, -⟩ := hx q rfl
    refine ⟨q, t, hok, hsz, hview, ?_⟩
    rw [hcell]
    exact fullRam_space.2.1 0 (by decide)

end Xv6.Vm
