import Xv6.PageMap
import Xv6.Uvm

/-! An address space: a page table with the trampoline and the trapframe at its top
and user pages below its size, each of them a page of its own. -/

namespace Xv6.Vm

open Fallible Radix Function Option

section Fresh

variable {all own : Nat → Prop} {map : Slot → Option Pte} {s t : Ram} {root mem va : Nat}
  {perm : Pte} {v : Page} {write : Nat → VmM Unit} {E : String → Prop}

theorem After.filled (h : After all root s t own map) (hmem : own mem)
    (hnew : ¬ s.others all root mem) :
    After all root s { t with page := update t.page mem v } own map := by
  have hothers := (h.others mem).mpr hmem
  obtain ⟨htable, hown, hmap, hnodes⟩ := h.table.same own
    (t := { t with page := update t.page mem v }) (h.table.pool.congr rfl rfl rfl)
    (fun a => by
      by_cases ha : a = mem
      · exact .inr (fun ⟨p, hp⟩ => hothers.2 p (ha ▸ hp))
      · exact .inl (update_of_ne ha _ _))
    h.table.busy
    (fun a ha => by
      rw [← h.others a]
      exact (and_iff_left ha).symm)
    (fun p a hp ha => ((h.others a).mpr ha).2 p hp)
  refine ⟨htable, hown, hmap.trans h.mapped, fun p a hp => hnodes ▸ h.nodes p a hp, ?_, h.text,
    h.failures⟩
  intro a ha hown
  have hne : a ≠ mem := fun he => hnew (he ▸ ha)
  exact (update_of_ne hne _ _).trans (h.kept a ha hown)

theorem Table.mapNew (h : Table all root s) (hva : va % pgsize = 0)
    (hroom : ∀ mem, all mem → ¬ s.busy all mem → va + pgsize ≤ maxva)
    (hfree : ∀ mem, all mem → ¬ s.busy all mem → s.map root (slotOf va) = none)
    (hwrite : ∀ mem u, ¬ s.busy all mem → (∀ b, s.others all root b → u.page b = s.page b) →
      write mem u = .ok ((), { u with page := update u.page mem v })) :
    Ends (mapNew root va perm write) s (fun r t =>
      (r = none ∧ s.failures < t.failures ∧ After all root s t (s.others all root) (s.map root)) ∨
      ∃ mem, r = some mem ∧ all mem ∧ ¬ s.busy all mem ∧ t.page mem = v ∧
        After all root s t (fun b => b = mem ∨ s.others all root b)
          (update (s.map root) (slotOf va) (some (pa2pte mem ||| perm ||| pteV)))) E := by
  rw [Vm.mapNew]
  refine h.kalloc.bind ?_
  rintro r t (⟨rfl, ht, hlt⟩ | ⟨mem, rfl, hall, hidle, ht⟩)
  · exact Ends.pure (.inl ⟨rfl, hlt, ht⟩)
  have hnew : ¬ s.others all root mem := fun hm => hidle hm.1
  have hu := ht.filled (v := v) (.inl rfl) hnew
  refine Ends.bind_ok (hwrite mem t hidle (fun b hb => ht.kept b hb (.inr hb))) ?_
  have hpage : ({ t with page := update t.page mem v } : Ram).page mem = v :=
    update_self _ _ _
  generalize { t with page := update t.page mem v } = u at hu hpage
  have humem : u.others all root mem := (hu.others mem).mpr (.inl rfl)
  refine (hu.table.mapOne hva (hroom mem hall hidle) (by
    rw [hu.mapped, hfree mem hall hidle])).bind ?_
  rintro r w (⟨rfl, hw⟩ | ⟨rfl, hlt, hw⟩)
  · refine Ends.pure (.inr ⟨mem, rfl, hall, hidle, ?_, ?_⟩)
    · rw [hw.kept mem humem humem, hpage]
    · refine hu.trans (hw.congr (fun b => (hu.others b).symm) ?_) (fun _ _ hb => hb)
      rw [hu.mapped]
  · refine (hw.table.kfree ((hw.others mem).mpr humem)).bind ?_
    intro _ x hx
    refine Ends.pure (.inl ⟨rfl, lt_of_le_of_lt hu.failures (lt_of_lt_of_le hlt hx.failures), ?_⟩)
    have hsw : After all root s w (fun b => b = mem ∨ s.others all root b) (s.map root) :=
      hu.trans (hw.congr (fun b => (hu.others b).symm) hu.mapped.symm) (fun _ _ hb => hb)
    refine hsw.trans (hx.congr (fun b => ?_) hsw.mapped.symm) (fun b hb _ => .inr hb)
    rw [hsw.others b]
    constructor
    · exact fun hb => ⟨fun he => hnew (he ▸ hb), .inr hb⟩
    · exact fun hb => hb.2.resolve_left hb.1

end Fresh

def isUser (v : Slot) : Prop := v ≠ slotOf trampoline ∧ v ≠ slotOf trapframe

instance (v : Slot) : Decidable (isUser v) := inferInstanceAs (Decidable (_ ∧ _))

def Mine (m : Slot → Option Pte) (a : Nat) : Prop :=
  ∃ v pte, isUser v ∧ m v = some pte ∧ pte2pa pte = a

def Ram.rest (all : Nat → Prop) (root : Nat) (s : Ram) (a : Nat) : Prop :=
  s.others all root a ∧ ¬ Mine (s.map root) a

structure Cell where
  flags : Pte
  byte : Nat → Byte

def Ram.cell (s : Ram) (root : Nat) (v : Slot) : Option Cell :=
  if isUser v then (s.map root v).map (fun pte => ⟨pteFlags pte, (s.page (pte2pa pte)).byte⟩)
  else none

structure User (all : Nat → Prop) (root sz : Nat) (s : Ram) : Prop where
  table : Table all root s
  size : sz ≤ trapframe
  low : ∀ v pte, isUser v → s.map root v = some pte → ∃ k, k * pgsize < sz ∧ v = slotOf (k * pgsize)
  own : ∀ v pte, isUser v → s.map root v = some pte → s.others all root (pte2pa pte)
  inj : ∀ v w pte pte', isUser v → isUser w → s.map root v = some pte →
    s.map root w = some pte' → pte2pa pte = pte2pa pte' → v = w
  form : ∀ v pte, isUser v → s.map root v = some pte → pte = pa2pte (pte2pa pte) ||| pteFlags pte

/-- After an operation on an address space, `own` are the other pages in use. Those
that had been in use before have kept their contents. -/
structure Within (all : Nat → Prop) (root : Nat) (s t : Ram) (own : Nat → Prop) : Prop where
  rest : ∀ a, t.rest all root a ↔ own a
  kept : ∀ a, s.rest all root a → own a → t.page a = s.page a
  special : ∀ v, ¬ isUser v → t.map root v = s.map root v
  text : t.trampText = s.trampText
  failures : s.failures ≤ t.failures

/-- Afterwards the address space has the size and the pages given, and nothing else
has changed. -/
structure Became (all : Nat → Prop) (root : Nat) (s t : Ram) (sz : Nat)
    (cells : Slot → Option Cell) : Prop where
  user : User all root sz t
  within : Within all root s t (s.rest all root)
  cell : t.cell root = cells

section Users

variable {all own own' : Nat → Prop} {s t u : Ram} {root mem sz sz' va k n : Nat}
  {perm pte : Pte} {v : Slot} {E : String → Prop}

theorem trampoline_eq : trampoline = trapframe + pgsize := by decide

theorem maxva_eq : maxva = trampoline + pgsize := by decide

theorem trapframe_val : trapframe = 274877898752 := by decide

theorem isUser_slotOf (hva : va % pgsize = 0) (hlt : va < trapframe) : isUser (slotOf va) := by
  rw [trapframe_val] at hlt
  constructor
  · intro he
    have hva' := slotOf_inj hva (by decide) (by omega) (by decide) he
    rw [trampoline_eq, trapframe_val] at hva'
    omega
  · intro he
    have hva' := slotOf_inj hva (by decide) (by omega) (by decide) he
    rw [trapframe_val] at hva'
    omega

theorem page_room (hva : va % pgsize = 0) (hlt : va < trapframe) : va + pgsize ≤ trapframe := by
  rw [trapframe_val] at hlt ⊢
  simp only [pgsize] at hva ⊢
  omega

theorem pgroundup_spec (h : sz ≤ trapframe) : pgroundup sz % pgsize = 0 ∧ sz ≤ pgroundup sz ∧
    pgroundup sz < sz + pgsize ∧ pgroundup sz ≤ trapframe := by
  rw [trapframe_val] at h ⊢
  simp only [pgroundup, pgsize, u64]
  omega

theorem lt_pgroundup (h : sz ≤ trapframe) (hva : va % pgsize = 0) :
    va < pgroundup sz ↔ va < sz := by
  rw [trapframe_val] at h
  simp only [pgroundup, pgsize, u64] at hva ⊢
  omega

theorem mul_pgsize_mod (k : Nat) : k * pgsize % pgsize = 0 := Nat.mul_mod_left k pgsize

theorem User.own_ne (h : User all root sz s) (hv : isUser v) (hpte : s.map root v = some pte)
    (hidle : ¬ s.busy all mem) : pte2pa pte ≠ mem :=
  fun he => hidle (he ▸ (h.own v pte hv hpte).1)

theorem Within.refl (all : Nat → Prop) (root : Nat) (s : Ram) :
    Within all root s s (s.rest all root) :=
  ⟨fun _ => Iff.rfl, fun _ _ _ => rfl, fun _ _ => rfl, rfl, le_rfl⟩

theorem Within.trans (h : Within all root s t own) (h' : Within all root t u own')
    (hown : ∀ a, s.rest all root a → own' a → own a) : Within all root s u own' := by
  refine ⟨h'.rest, fun a ha ha' => ?_, fun v hv => (h'.special v hv).trans (h.special v hv),
    h'.text.trans h.text, h.failures.trans h'.failures⟩
  have hmid := hown a ha ha'
  rw [h'.kept a ((h.rest a).mpr hmid) ha', h.kept a ha hmid]

theorem Within.congr (h : Within all root s t own) (hown : ∀ a, own' a ↔ own a) :
    Within all root s t own' :=
  ⟨fun a => (h.rest a).trans (hown a).symm, fun a ha ha' => h.kept a ha ((hown a).mp ha'),
    h.special, h.text, h.failures⟩

theorem Within.then (h : Within all root s t (s.rest all root))
    (h' : Within all root t u (t.rest all root)) : Within all root s u (s.rest all root) :=
  h.trans (h'.congr (fun a => (h.rest a).symm)) (fun _ ha _ => ha)

theorem User.became (h : User all root sz s) : Became all root s s sz (s.cell root) :=
  ⟨h, Within.refl all root s, rfl⟩

theorem Became.trans {cells cells' : Slot → Option Cell} (h : Became all root s t sz cells)
    (h' : Became all root t u sz' cells') : Became all root s u sz' cells' :=
  ⟨h'.user, h.within.then h'.within, h'.cell⟩

theorem Ram.cell_eq_none (hv : isUser v) : s.cell root v = none ↔ s.map root v = none := by
  rw [Ram.cell, if_pos hv, map_eq_none_iff]

theorem User.resize (h : User all root sz s) (hsz : sz' ≤ trapframe)
    (hlow : ∀ k, k * pgsize < sz → s.cell root (slotOf (k * pgsize)) ≠ none → k * pgsize < sz') :
    User all root sz' s := by
  refine ⟨h.table, hsz, fun v pte hv hpte => ?_, h.own, h.inj, h.form⟩
  obtain ⟨k, hk, rfl⟩ := h.low v pte hv hpte
  refine ⟨k, hlow k hk (fun hnone => ?_), rfl⟩
  rw [Ram.cell_eq_none hv, hpte] at hnone
  simp at hnone

theorem User.after {map : Slot → Option Pte} (ht : After all root s t own map)
    (hsz : sz ≤ trapframe)
    (hlow : ∀ v pte, isUser v → map v = some pte → ∃ k, k * pgsize < sz ∧ v = slotOf (k * pgsize))
    (hown : ∀ v pte, isUser v → map v = some pte → own (pte2pa pte))
    (hinj : ∀ v w pte pte', isUser v → isUser w → map v = some pte → map w = some pte' →
      pte2pa pte = pte2pa pte' → v = w)
    (hform : ∀ v pte, isUser v → map v = some pte → pte = pa2pte (pte2pa pte) ||| pteFlags pte)
    (hrest : ∀ a, own a ∧ ¬ Mine map a ↔ s.rest all root a)
    (hspecial : ∀ v, ¬ isUser v → map v = s.map root v) :
    User all root sz t ∧ Within all root s t (s.rest all root) := by
  refine ⟨⟨ht.table, hsz, ?_, ?_, ?_, ?_⟩, ⟨fun a => ?_, fun a ha _ => ?_, ?_, ht.text,
    ht.failures⟩⟩
  · rw [ht.mapped]
    exact hlow
  · rw [ht.mapped]
    exact fun v pte hv hpte => (ht.others _).mpr (hown v pte hv hpte)
  · rw [ht.mapped]
    exact hinj
  · rw [ht.mapped]
    exact hform
  · rw [Ram.rest, ht.others, ht.mapped]
    exact hrest a
  · exact ht.kept a ha.1 ((hrest a).mpr ha).1
  · rw [ht.mapped]
    exact hspecial

theorem User.cell_kept {map : Slot → Option Pte} (h : User all root sz s)
    (ht : After all root s t own map) (hsame : map v = s.map root v)
    (hown : ∀ pte, isUser v → map v = some pte → own (pte2pa pte)) :
    t.cell root v = s.cell root v := by
  unfold Ram.cell
  rw [ht.mapped, hsame]
  split_ifs with hv
  · cases hpte : s.map root v with
    | none => rfl
    | some pte =>
      rw [map_some, map_some, ht.kept _ (h.own v pte hv hpte) (hown pte hv (hsame.trans hpte))]
  · rfl

theorem User.grown (h : User all root sz s)
    (ht : After all root s t (s.others all root) (s.map root)) :
    Became all root s t sz (s.cell root) := by
  obtain ⟨huser, hwithin⟩ := User.after ht h.size h.low h.own h.inj h.form (fun _ => Iff.rfl)
    (fun _ _ => rfl)
  exact ⟨huser, hwithin, funext (fun v => h.cell_kept ht rfl (fun pte => h.own v pte))⟩

theorem User.enter (h : User all root sz s) (hall : all mem) (hidle : ¬ s.busy all mem)
    (hva : va % pgsize = 0) (hlt : va < sz') (hsz : sz ≤ sz') (hsz' : sz' ≤ trapframe)
    (hfree : s.map root (slotOf va) = none) (hperm : perm.toNat < 2 ^ 10)
    (ht : After all root s t (fun b => b = mem ∨ s.others all root b)
      (update (s.map root) (slotOf va) (some (pa2pte mem ||| perm ||| pteV)))) :
    Became all root s t sz' (update (s.cell root) (slotOf va)
      (some ⟨perm ||| pteV, (t.page mem).byte⟩)) := by
  have hvuser : isUser (slotOf va) := isUser_slotOf hva (by omega)
  obtain ⟨halign, -, hhigh⟩ := h.table.pool.page mem hall
  have hpa : pte2pa (pa2pte mem ||| perm ||| pteV) = mem := by
    rw [BitVec.or_assoc]
    exact pte2pa_or halign (lt_of_lt_of_le hhigh h.table.pool.high) (or_valid_lt hperm)
  have hflags : pteFlags (pa2pte mem ||| perm ||| pteV) = perm ||| pteV := by
    rw [BitVec.or_assoc]
    exact pteFlags_or (or_valid_lt hperm)
  have hold : ∀ w pte, isUser w → s.map root w = some pte → pte2pa pte ≠ mem :=
    fun w pte hw hpte => h.own_ne hw hpte hidle
  -- an entry of the new map is the new one or one of the old map
  have hcases : ∀ w pte, update (s.map root) (slotOf va)
      (some (pa2pte mem ||| perm ||| pteV)) w = some pte →
      w = slotOf va ∧ pte = pa2pte mem ||| perm ||| pteV ∨
      w ≠ slotOf va ∧ s.map root w = some pte := by
    intro w pte hpte
    by_cases hw : w = slotOf va
    · rw [hw, update_self] at hpte
      exact .inl ⟨hw, (some.inj hpte).symm⟩
    · rw [update_of_ne hw] at hpte
      exact .inr ⟨hw, hpte⟩
  have hmine : ∀ a, Mine (update (s.map root) (slotOf va)
      (some (pa2pte mem ||| perm ||| pteV))) a ↔ a = mem ∨ Mine (s.map root) a := by
    intro a
    constructor
    · rintro ⟨w, pte, hw, hpte, rfl⟩
      rcases hcases w pte hpte with ⟨-, rfl⟩ | ⟨-, hpte⟩
      · exact .inl hpa
      · exact .inr ⟨w, pte, hw, hpte, rfl⟩
    · rintro (rfl | ⟨w, pte, hw, hpte, rfl⟩)
      · exact ⟨slotOf va, _, hvuser, update_self _ _ _, hpa⟩
      · refine ⟨w, pte, hw, ?_, rfl⟩
        rw [update_of_ne (fun he => by simp [he, hfree] at hpte), hpte]
  have hafter : User all root sz' t ∧ Within all root s t (s.rest all root) := by
    refine User.after ht hsz' ?_ ?_ ?_ ?_ ?_ ?_
    · intro w pte hw hpte
      rcases hcases w pte hpte with ⟨rfl, -⟩ | ⟨-, hpte⟩
      · refine ⟨va / pgsize, ?_, ?_⟩
        · rwa [Nat.div_mul_cancel (Nat.dvd_of_mod_eq_zero hva)]
        · rw [Nat.div_mul_cancel (Nat.dvd_of_mod_eq_zero hva)]
      · obtain ⟨k, hk, hw'⟩ := h.low w pte hw hpte
        exact ⟨k, by omega, hw'⟩
    · intro w pte hw hpte
      rcases hcases w pte hpte with ⟨-, rfl⟩ | ⟨-, hpte⟩
      · exact .inl hpa
      · exact .inr (h.own w pte hw hpte)
    · intro w x pte pte' hw hx hpte hpte' heq
      rcases hcases w pte hpte with ⟨rfl, rfl⟩ | ⟨-, hpte⟩
      · rcases hcases x pte' hpte' with ⟨rfl, -⟩ | ⟨-, hpte'⟩
        · rfl
        · exact absurd (heq.symm.trans hpa) (hold x pte' hx hpte')
      · rcases hcases x pte' hpte' with ⟨rfl, rfl⟩ | ⟨-, hpte'⟩
        · exact absurd (heq.trans hpa) (hold w pte hw hpte)
        · exact h.inj w x pte pte' hw hx hpte hpte' heq
    · intro w pte hw hpte
      rcases hcases w pte hpte with ⟨-, rfl⟩ | ⟨-, hpte⟩
      · rw [hpa, hflags, BitVec.or_assoc]
      · exact h.form w pte hw hpte
    · intro a
      have hne : s.rest all root a → a ≠ mem := fun ha he => hidle (he ▸ ha.1.1)
      rw [hmine, not_or]
      constructor
      · exact fun ha => ⟨ha.1.resolve_left ha.2.1, ha.2.2⟩
      · exact fun ha => ⟨.inr ha.1, hne ha, ha.2⟩
    · intro w hw
      exact update_of_ne (fun he : w = slotOf va => hw (he ▸ hvuser)) _ _
  refine ⟨hafter.1, hafter.2, funext (fun w => ?_)⟩
  by_cases hw : w = slotOf va
  · rw [hw, update_self, Ram.cell, if_pos hvuser, ht.mapped, update_self, map_some, hpa, hflags]
  · rw [update_of_ne hw]
    refine h.cell_kept ht (update_of_ne hw _ _) (fun pte hwu hpte => ?_)
    rw [update_of_ne hw] at hpte
    exact .inr (h.own w pte hwu hpte)

theorem User.unmap (h : User all root sz s) (hva : va % pgsize = 0)
    (hbound : va + n * pgsize ≤ trapframe) :
    Ends (uvmunmap root va n true) s (fun _ t => Became all root s t sz
      (overlay (fun _ => none) n va (s.cell root))) E := by
  have hmax : trapframe < 2 ^ 39 := by decide
  have hin : ∀ k < n, va + k * pgsize < trapframe := by
    intro k hk
    have hlt : k * pgsize < n * pgsize := Nat.mul_lt_mul_of_pos_right hk (by decide)
    omega
  have hslot : ∀ k < n, isUser (slotOf (va + k * pgsize)) := fun k hk =>
    isUser_slotOf (by simpa using hva) (hin k hk)
  have hfree : Freeable (s.others all root) (s.map root) va n := by
    constructor
    · intro k hk b hb
      obtain ⟨pte, hpte, rfl⟩ := map_eq_some_iff.mp hb
      exact h.own _ pte (hslot k hk) hpte
    · intro j hj k hk b hjb hkb
      obtain ⟨pte, hpte, rfl⟩ := map_eq_some_iff.mp hjb
      obtain ⟨pte', hpte', heq⟩ := map_eq_some_iff.mp hkb
      have hslots := h.inj _ _ pte pte' (hslot j hj) (hslot k hk) hpte hpte' heq.symm
      have hjk := slotOf_inj (by simpa using hva) (by simpa using hva)
        (by have := hin j hj; omega) (by have := hin k hk; omega) hslots
      have hmul : j * pgsize = k * pgsize := by omega
      exact Nat.eq_of_mul_eq_mul_right (by decide) hmul
  refine (h.table.uvmunmap hva (by rw [maxva_eq, trampoline_eq]; omega) (fun _ => hfree)).post ?_
  intro _ t ht
  -- what the new map holds is in the old one, outside the range
  have hcases : ∀ w, (∃ k < n, w = slotOf (va + k * pgsize)) ∧
        overlay (fun _ => none) n va (s.map root) w = none ∨
      (∀ k < n, w ≠ slotOf (va + k * pgsize)) ∧
        overlay (fun _ => none) n va (s.map root) w = s.map root w := by
    intro w
    by_cases hw : ∃ k < n, w = slotOf (va + k * pgsize)
    · obtain ⟨k, hk, rfl⟩ := hw
      exact .inl ⟨⟨k, hk, rfl⟩, overlay_at hva (by omega) hk⟩
    · have hout : ∀ k < n, w ≠ slotOf (va + k * pgsize) := fun k hk he => hw ⟨k, hk, he⟩
      exact .inr ⟨hout, overlay_of_ne hout⟩
  have hback : ∀ w pte, overlay (fun _ => none) n va (s.map root) w = some pte →
      s.map root w = some pte ∧ ∀ k < n, w ≠ slotOf (va + k * pgsize) := by
    intro w pte hpte
    rcases hcases w with ⟨-, hw⟩ | ⟨hout, hw⟩
    · rw [hw] at hpte
      simp at hpte
    · exact ⟨hw.symm.trans hpte, hout⟩
  have hleft : ∀ w pte, isUser w → overlay (fun _ => none) n va (s.map root) w = some pte →
      s.others all root (pte2pa pte) ∧
        ¬ (true = true ∧ framesOf (s.map root) va n (pte2pa pte)) := by
    intro w pte hw hpte
    obtain ⟨hold, hout⟩ := hback w pte hpte
    refine ⟨h.own w pte hw hold, ?_⟩
    rintro ⟨-, k, hk, hframe⟩
    obtain ⟨pte', hpte', heq⟩ := map_eq_some_iff.mp hframe
    exact hout k hk (h.inj _ _ pte pte' hw (hslot k hk) hold hpte' heq.symm)
  have hafter : User all root sz t ∧ Within all root s t (s.rest all root) := by
    refine User.after ht h.size ?_ hleft ?_ ?_ ?_ ?_
    · exact fun w pte hw hpte => h.low w pte hw (hback w pte hpte).1
    · exact fun w x pte pte' hw hx hpte hpte' => h.inj w x pte pte' hw hx (hback w pte hpte).1
        (hback x pte' hpte').1
    · exact fun w pte hw hpte => h.form w pte hw (hback w pte hpte).1
    · intro a
      constructor
      · rintro ⟨⟨ha, hframes⟩, hmine⟩
        refine ⟨ha, ?_⟩
        rintro ⟨w, pte, hw, hpte, rfl⟩
        rcases hcases w with ⟨⟨k, hk, rfl⟩, -⟩ | ⟨-, hsame⟩
        · exact hframes ⟨rfl, k, hk, by rw [hpte, map_some]⟩
        · exact hmine ⟨w, pte, hw, hsame.trans hpte, rfl⟩
      · rintro ⟨ha, hmine⟩
        refine ⟨⟨ha, ?_⟩, ?_⟩
        · rintro ⟨-, k, hk, hframe⟩
          obtain ⟨pte, hpte, rfl⟩ := map_eq_some_iff.mp hframe
          exact hmine ⟨_, pte, hslot k hk, hpte, rfl⟩
        · rintro ⟨w, pte, hw, hpte, rfl⟩
          exact hmine ⟨w, pte, hw, (hback w pte hpte).1, rfl⟩
    · intro w hw
      refine overlay_of_ne (fun k hk he => hw ?_)
      rw [he]
      exact hslot k hk
  refine ⟨hafter.1, hafter.2, funext (fun w => ?_)⟩
  rcases hcases w with ⟨⟨k, hk, rfl⟩, hw⟩ | ⟨hout, hw⟩
  · rw [overlay_at hva (by omega) hk, Ram.cell, if_pos (hslot k hk), ht.mapped, hw]
    rfl
  · rw [overlay_of_ne hout]
    exact h.cell_kept ht hw (fun pte hwu hpte => hleft w pte hwu hpte)

end Users

end Xv6.Vm
