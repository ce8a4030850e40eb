import Xv6.Radix
import Xv6.Vm

/-! A page table is a tree of three levels whose nodes are pages of their own. Its
meaning is the partial map from page addresses to entries that `walk` finds. -/

namespace Xv6.Vm

open Fallible Radix Function List Option

section Entries

variable {pa : Nat} {pte flags : Pte}

theorem getLsbD_of_lt {x : BitVec 64} {n k : Nat} (h : x.toNat < 2 ^ n) (hk : n ≤ k) :
    x.getLsbD k = false :=
  Nat.testBit_lt_two_pow (lt_of_lt_of_le h (Nat.pow_le_pow_right (by decide) hk))

theorem pte2pa_or (hpa : pa % pgsize = 0) (hlt : pa < 2 ^ 64) (hf : flags.toNat < 2 ^ 10) :
    pte2pa (pa2pte pa ||| flags) = pa := by
  have hbits : ((pa2pte pa ||| flags) >>> 10) <<< 12 = BitVec.ofNat 64 pa := by
    refine BitVec.eq_of_getLsbD_eq (fun k hk => ?_)
    simp only [pa2pte, BitVec.getLsbD_shiftLeft, BitVec.getLsbD_ushiftRight, BitVec.getLsbD_or]
    by_cases h12 : k < 12
    · have hz : pa.testBit k = false := by
        have hmod := Nat.testBit_mod_two_pow pa 12 k
        rw [show pa % 2 ^ 12 = 0 from hpa] at hmod
        simpa [h12] using hmod.symm
      simp [h12, BitVec.getLsbD_ofNat, hz]
    · have hflag : flags.getLsbD (10 + (k - 12)) = false := getLsbD_of_lt hf (by omega)
      rw [hflag, show 12 + (10 + (k - 12) - 10) = k by omega]
      simp [h12, hk, show 10 + (k - 12) < 64 by omega]
  rw [pte2pa, hbits, BitVec.toNat_ofNat, Nat.mod_eq_of_lt hlt]

theorem pteFlags_or (hf : flags.toNat < 2 ^ 10) : pteFlags (pa2pte pa ||| flags) = flags := by
  refine BitVec.eq_of_getLsbD_eq (fun k hk => ?_)
  have hmask : (0x3FF : Pte).getLsbD k = decide (k < 10) := by
    have hall : ∀ j < 64, (0x3FF : Pte).getLsbD j = decide (j < 10) := by decide
    exact hall k hk
  rw [pteFlags, BitVec.getLsbD_and, BitVec.getLsbD_or, hmask, pa2pte, BitVec.getLsbD_shiftLeft]
  by_cases h10 : k < 10
  · simp [h10]
  · simp [h10, getLsbD_of_lt hf (not_lt.mp h10)]

theorem valid_or (pte : Pte) : (pte ||| pteV) &&& pteV ≠ 0 := by
  intro h
  have hbit := congrArg (fun x : Pte => x.getLsbD 0) h
  simp [pteV] at hbit

theorem or_valid_lt (hf : flags.toNat < 2 ^ 10) : (flags ||| pteV).toNat < 2 ^ 10 := by
  rw [BitVec.toNat_or]
  exact Nat.or_lt_two_pow hf (by decide)

end Entries

abbrev Slot := Fin 512 × Fin 512 × Fin 512

def slotOf (va : Nat) : Slot := (px 2 va, px 1 va, px 0 va)

def Slot.path (v : Slot) : List (Fin 512) := [v.2.1, v.1]

theorem px_val (level va : Nat) : (px level va).val = va / 2 ^ (12 + 9 * level) % 512 := by
  rw [px, Fin.val_ofNat, Nat.shiftRight_eq_div_pow]

theorem slotOf_inj {va vb : Nat} (ha : va % pgsize = 0) (hb : vb % pgsize = 0)
    (hva : va < 2 ^ 39) (hvb : vb < 2 ^ 39) (h : slotOf va = slotOf vb) : va = vb := by
  have h2 := congrArg (fun v : Slot => v.1.val) h
  have h1 := congrArg (fun v : Slot => v.2.1.val) h
  have h0 := congrArg (fun v : Slot => v.2.2.val) h
  simp only [slotOf, px_val] at h0 h1 h2
  norm_num at h0 h1 h2
  simp only [pgsize] at ha hb
  omega

def present (pte : Pte) : Option Pte := if pte &&& pteV ≠ 0 then some pte else none

theorem present_zero : present 0 = none := by decide

def Ram.entry (s : Ram) (a : Nat) (i : Fin 512) : Option Pte := present ((s.page a).pte i)

def Ram.child (s : Ram) (a : Nat) (i : Fin 512) : Option Nat := (s.entry a i).map pte2pa

/-- The page of the node at a path, for the three levels of a table. -/
def Ram.node (s : Ram) (root : Nat) (p : List (Fin 512)) : Option Nat :=
  if p.length ≤ 2 then nodeAt s.child root p else none

def Ram.map (s : Ram) (root : Nat) (v : Slot) : Option Pte :=
  (s.node root v.path).bind (fun a => s.entry a v.2.2)

def Ram.busy (all : Nat → Prop) (s : Ram) (a : Nat) : Prop := all a ∧ a ∉ s.freelist

structure Pool (all : Nat → Prop) (s : Ram) : Prop where
  nodup : s.freelist.Nodup
  sub : ∀ a ∈ s.freelist, all a
  page : ∀ a, all a → a % pgsize = 0 ∧ s.kend ≤ a ∧ a < s.phystop
  low : 0 < s.kend
  high : s.phystop ≤ 2 ^ 64

structure Table (all : Nat → Prop) (root : Nat) (s : Ram) : Prop where
  pool : Pool all s
  tree : Radix.IsTree s.child root 2
  busy : ∀ p a, s.node root p = some a → s.busy all a
  inner : ∀ p a i pte, p.length < 2 → s.node root p = some a → s.entry a i = some pte →
    pteFlags pte = pteV

/-- The pages in use for something else than the nodes of the table. -/
def Ram.others (all : Nat → Prop) (root : Nat) (s : Ram) (a : Nat) : Prop :=
  s.busy all a ∧ ∀ p, s.node root p ≠ some a

/-- After an operation on a table, `own` are the pages in use for something else.
Those that had been in use before have kept their contents. -/
structure After (all : Nat → Prop) (root : Nat) (s t : Ram) (own : Nat → Prop)
    (map : Slot → Option Pte) : Prop where
  table : Table all root t
  others : ∀ a, t.others all root a ↔ own a
  mapped : t.map root = map
  nodes : ∀ p a, s.node root p = some a → t.node root p = some a
  kept : ∀ a, s.others all root a → own a → t.page a = s.page a
  text : t.trampText = s.trampText
  failures : s.failures ≤ t.failures

section Tables

variable {all own own' : Nat → Prop} {map map' : Slot → Option Pte} {s t u : Ram}
  {root a b : Nat} {i : Fin 512} {p q : List (Fin 512)} {va pa : Nat} {pte : Pte}
  {E : String → Prop}

theorem Ram.node_eq (hp : p.length ≤ 2) : s.node root p = nodeAt s.child root p := if_pos hp

theorem Ram.node_length (h : s.node root p = some a) : p.length ≤ 2 := by
  by_contra hp
  rw [Ram.node, if_neg hp] at h
  simp at h

theorem Slot.node_path (v : Slot) : s.node root v.path = nodeAt s.child root v.path :=
  Ram.node_eq (le_refl 2)

theorem Table.node_inj (h : Table all root s) (hp : s.node root p = some a)
    (hq : s.node root q = some a) : p = q := by
  have hpl := Ram.node_length hp
  have hql := Ram.node_length hq
  rw [Ram.node_eq hpl] at hp
  rw [Ram.node_eq hql] at hq
  exact h.tree p q a hpl hql hp hq

theorem Ram.entry_congr (h : t.page a = s.page a) : t.entry a = s.entry a := by
  funext i
  unfold Ram.entry
  rw [h]

theorem Ram.child_congr (h : t.page a = s.page a) : t.child a = s.child a := by
  funext i
  unfold Ram.child
  rw [Ram.entry_congr h]

theorem Ram.node_congr (h : ∀ p a, p.length < 2 → s.node root p = some a → t.page a = s.page a) :
    t.node root = s.node root := by
  funext q
  by_cases hq : q.length ≤ 2
  · rw [Ram.node_eq hq, Ram.node_eq hq]
    refine nodeAt_congr (fun p a hp ha => Ram.child_congr (h p a hp ?_)) hq
    rw [Ram.node_eq hp.le, ha]
  · rw [Ram.node, Ram.node, if_neg hq, if_neg hq]

theorem Ram.map_congr (h : ∀ p a, s.node root p = some a → t.page a = s.page a) :
    t.map root = s.map root := by
  funext v
  unfold Ram.map
  rw [Ram.node_congr (fun p a _ => h p a)]
  cases hp : s.node root v.path with
  | none => rfl
  | some a =>
    rw [bind_some, bind_some, Ram.entry_congr (h _ a hp)]

theorem Pool.relist (h : Pool all s) (hnd : t.freelist.Nodup) (hsub : ∀ a ∈ t.freelist, all a)
    (hk : t.kend = s.kend) (hp : t.phystop = s.phystop) : Pool all t where
  nodup := hnd
  sub := hsub
  page := by
    rw [hk, hp]
    exact h.page
  low := by
    rw [hk]
    exact h.low
  high := by
    rw [hp]
    exact h.high

theorem Pool.congr (h : Pool all s) (hf : t.freelist = s.freelist) (hk : t.kend = s.kend)
    (hp : t.phystop = s.phystop) : Pool all t :=
  h.relist (hf ▸ h.nodup) (hf ▸ h.sub) hk hp

theorem Pool.alloc (h : Pool all s) {rest : List Nat} (hl : s.freelist = a :: rest)
    (ht : t.freelist = rest) (hk : t.kend = s.kend) (hp : t.phystop = s.phystop) : Pool all t := by
  have hnd := h.nodup
  rw [hl] at hnd
  refine h.relist (ht ▸ (nodup_cons.mp hnd).2) (fun b hb => ?_) hk hp
  rw [ht] at hb
  exact h.sub b (hl ▸ mem_cons_of_mem a hb)

theorem Pool.busy_alloc (h : Pool all s) {rest : List Nat} (hl : s.freelist = a :: rest)
    (ht : t.freelist = rest) : t.busy all b ↔ b = a ∨ s.busy all b := by
  have hnd := h.nodup
  rw [hl] at hnd
  rw [Ram.busy, Ram.busy, ht, hl, mem_cons]
  by_cases hb : b = a
  · refine iff_of_true ⟨h.sub b ?_, hb ▸ (nodup_cons.mp hnd).1⟩ (.inl hb)
    rw [hl, hb]
    exact mem_cons_self
  · simp only [hb, false_or]

theorem Pool.free (h : Pool all s) (ha : s.busy all a) (ht : t.freelist = a :: s.freelist)
    (hk : t.kend = s.kend) (hp : t.phystop = s.phystop) : Pool all t := by
  refine h.relist (ht ▸ nodup_cons.mpr ⟨ha.2, h.nodup⟩) (fun b hb => ?_) hk hp
  rw [ht] at hb
  rcases mem_cons.mp hb with rfl | hb
  · exact ha.1
  · exact h.sub b hb

theorem Table.refl (h : Table all root s) : After all root s s (s.others all root) (s.map root) :=
  ⟨h, fun _ => Iff.rfl, rfl, fun _ _ hp => hp, fun _ _ _ => rfl, rfl, le_rfl⟩

theorem After.trans (h : After all root s t own map) (h' : After all root t u own' map')
    (hown : ∀ a, s.others all root a → own' a → own a) : After all root s u own' map' := by
  refine ⟨h'.table, h'.others, h'.mapped, fun p a hp => h'.nodes p a (h.nodes p a hp),
    fun a ha ha' => ?_, h'.text.trans h.text, h.failures.trans h'.failures⟩
  have hmid := hown a ha ha'
  rw [h'.kept a ((h.others a).mpr hmid) ha', h.kept a ha hmid]

theorem After.congr (h : After all root s t own map) (hown : ∀ a, own' a ↔ own a)
    (hmap : map' = map) : After all root s t own' map' :=
  ⟨h.table, fun a => (h.others a).trans (hown a).symm, h.mapped.trans hmap.symm,
    h.nodes, fun a ha ha' => h.kept a ha ((hown a).mp ha'), h.text, h.failures⟩

theorem kalloc_spec (s : Ram) : Ends kalloc s (fun r t =>
    (r = none ∧ t = { s with calls := s.calls + 1, failures := s.failures + 1 }) ∨
    ∃ a rest, r = some a ∧ s.freelist = a :: rest ∧ t = { s with
        calls := s.calls + 1
        freelist := rest
        page := update s.page a (junk 5 0x0505050505050505) }) E := by
  unfold kalloc
  refine Ends.get_bind ?_
  cases hl : s.freelist with
  | nil => exact Ends.set_bind (Ends.pure (.inl ⟨rfl, rfl⟩))
  | cons a rest =>
    cases hd : s.deny s.calls with
    | true => exact Ends.set_bind (Ends.pure (.inl ⟨rfl, rfl⟩))
    | false => exact Ends.set_bind (Ends.modify_bind (Ends.pure (.inr ⟨a, rest, rfl, rfl, rfl⟩)))

theorem kfree_run (ha : pa % pgsize = 0) (hlow : s.kend ≤ pa) (hhigh : pa < s.phystop) :
    kfree pa s = .ok ((), { s with
      page := update s.page pa (junk 1 0x0101010101010101)
      freelist := pa :: s.freelist }) := by
  unfold kfree
  rw [bind_ok (m := get) (a := s) (t := s) rfl, if_neg (by omega)]
  rfl

variable (own) in
theorem Table.same (h : Table all root s) (hpool : Pool all t)
    (hpage : ∀ a, t.page a = s.page a ∨ ¬ ∃ p, s.node root p = some a)
    (hbusy : ∀ p a, s.node root p = some a → t.busy all a)
    (hown : ∀ a, (∀ p, s.node root p ≠ some a) → (t.busy all a ↔ own a))
    (hnode : ∀ p a, s.node root p = some a → ¬ own a) :
    Table all root t ∧ (∀ a, t.others all root a ↔ own a) ∧ t.map root = s.map root ∧
      t.node root = s.node root := by
  have hsame : ∀ p a, s.node root p = some a → t.page a = s.page a := fun p a hp =>
    (hpage a).resolve_right (fun hno => hno ⟨p, hp⟩)
  have hnodes : t.node root = s.node root := Ram.node_congr (fun p a _ => hsame p a)
  refine ⟨⟨hpool, ?_, fun p a hp => hbusy p a (hnodes ▸ hp), fun p a i pte hp ha hpte => ?_⟩,
    fun a => ?_, Ram.map_congr hsame, hnodes⟩
  · refine h.tree.congr (fun q hq => ?_)
    rw [← Ram.node_eq hq, ← Ram.node_eq hq, hnodes]
  · rw [hnodes] at ha
    rw [Ram.entry_congr (hsame p a ha)] at hpte
    exact h.inner p a i pte hp ha hpte
  · unfold Ram.others
    rw [hnodes]
    by_cases hp : ∀ p, s.node root p ≠ some a
    · rw [hown a hp]
      exact and_iff_left hp
    · obtain ⟨p, hp'⟩ := not_forall.mp hp
      have hno : ¬ own a := hnode p a (not_not.mp hp')
      exact iff_of_false (fun hh => hp hh.2) hno

theorem Table.after (h : Table all root s) (hpool : Pool all t)
    (hpage : ∀ a, t.page a = s.page a ∨ ¬ ∃ p, s.node root p = some a)
    (hbusy : ∀ p a, s.node root p = some a → t.busy all a)
    (hown : ∀ a, (∀ p, s.node root p ≠ some a) → (t.busy all a ↔ own a))
    (hnode : ∀ p a, s.node root p = some a → ¬ own a)
    (hkept : ∀ a, s.others all root a → own a → t.page a = s.page a)
    (htext : t.trampText = s.trampText) (hfail : s.failures ≤ t.failures) :
    After all root s t own (s.map root) := by
  obtain ⟨htable, hothers, hmap, hnodes⟩ := h.same own hpool hpage hbusy hown hnode
  exact ⟨htable, hothers, hmap, fun p a hp => hnodes ▸ hp, hkept, htext, hfail⟩

theorem Table.not_node (h : Table all root s) (ha : ¬ s.busy all a) (p : List (Fin 512)) :
    s.node root p ≠ some a := fun hp => ha (h.busy p a hp)

theorem Table.denied (h : Table all root s) : After all root s
    { s with calls := s.calls + 1, failures := s.failures + 1 } (s.others all root)
    (s.map root) :=
  h.after (h.pool.congr rfl rfl rfl) (fun _ => .inl rfl) h.busy
    (fun _ hb => (and_iff_left hb).symm) (fun p _ hp hb => hb.2 p hp) (fun _ _ _ => rfl) rfl
    (Nat.le_succ _)

theorem Table.kalloc (h : Table all root s) : Ends kalloc s (fun r t =>
    (r = none ∧ After all root s t (s.others all root) (s.map root) ∧ s.failures < t.failures) ∨
    ∃ a, r = some a ∧ all a ∧ ¬ s.busy all a ∧
      After all root s t (fun b => b = a ∨ s.others all root b) (s.map root)) E := by
  refine (kalloc_spec s).post ?_
  rintro r t (⟨rfl, rfl⟩ | ⟨a, rest, rfl, hl, rfl⟩)
  · exact .inl ⟨rfl, h.denied, Nat.lt_succ_self _⟩
  · have hfree : a ∈ s.freelist := hl ▸ mem_cons_self
    have hidle : ¬ s.busy all a := fun hb => hb.2 hfree
    have hpage : ∀ b, b ≠ a → update s.page a (junk 5 0x0505050505050505) b = s.page b :=
      fun b hb => update_of_ne hb _ _
    have hbusy : ∀ b, (all b ∧ b ∉ rest) ↔ b = a ∨ s.busy all b := fun b =>
      h.pool.busy_alloc (t := { s with freelist := rest }) hl rfl
    refine .inr ⟨a, rfl, h.pool.sub a hfree, hidle, h.after (h.pool.alloc hl rfl rfl rfl) ?_ ?_ ?_
      ?_ ?_ rfl le_rfl⟩
    · intro b
      by_cases hb : b = a
      · exact .inr (fun ⟨p, hp⟩ => h.not_node hidle p (hb ▸ hp))
      · exact .inl (hpage b hb)
    · exact fun p b hp => (hbusy b).mpr (.inr (h.busy p b hp))
    · exact fun b hb => (hbusy b).trans (or_congr_right (and_iff_left hb).symm)
    · rintro p b hp (rfl | hb)
      · exact h.not_node hidle p hp
      · exact hb.2 p hp
    · rintro b hb -
      exact hpage b (fun hba => hidle (hba ▸ hb.1))

theorem Table.kfree (h : Table all root s) (ha : s.others all root a) : Ends (kfree a) s
    (fun _ t => After all root s t (fun b => b ≠ a ∧ s.others all root b) (s.map root)) E := by
  obtain ⟨halign, hlow, hhigh⟩ := h.pool.page a ha.1.1
  refine Ends.of_ok (kfree_run halign hlow hhigh) ?_
  have hbusy : ∀ b, (all b ∧ b ∉ a :: s.freelist) ↔ b ≠ a ∧ s.busy all b := by
    intro b
    rw [Ram.busy, mem_cons]
    tauto
  refine h.after (h.pool.free ha.1 rfl rfl rfl) ?_ ?_ ?_ ?_ ?_ rfl le_rfl
  · intro b
    by_cases hb : b = a
    · exact .inr (fun ⟨p, hp⟩ => ha.2 p (hb ▸ hp))
    · exact .inl (update_of_ne hb _ _)
  · exact fun p b hp => (hbusy b).mpr ⟨fun hb => ha.2 p (hb ▸ hp), h.busy p b hp⟩
  · exact fun b hb => (hbusy b).trans (and_congr_right (fun _ => (and_iff_left hb).symm))
  · exact fun p b hp hb => hb.2.2 p hp
  · exact fun b _ hb => update_of_ne hb.1 _ _

theorem setPte_run : setPte a i pte s = .ok ((), { s with
    page := update s.page a { s.page a with pte := update (s.page a).pte i pte } }) := rfl

theorem Table.setPte (h : Table all root s) (v : Slot) (ha : s.node root v.path = some a) :
    Ends (setPte a v.2.2 pte) s (fun _ t => After all root s t (s.others all root)
      (update (s.map root) v (present pte))) E := by
  refine Ends.of_ok setPte_run ?_
  generalize ht : ({ s with
    page := update s.page a { s.page a with pte := update (s.page a).pte v.2.2 pte } } : Ram) = t
  have hpage : ∀ b, b ≠ a → t.page b = s.page b := fun b hb => by
    rw [← ht]
    exact update_of_ne hb _ _
  have hself : (t.page a).pte = update (s.page a).pte v.2.2 pte := by
    rw [← ht]
    dsimp only
    rw [update_self]
  have hnodes : t.node root = s.node root := Ram.node_congr (fun p b hp hb =>
    hpage b (fun hba => by
      have hpath := h.node_inj (hba ▸ hb) ha
      rw [hpath] at hp
      exact absurd hp (lt_irrefl 2)))
  have hbusy : ∀ b, t.busy all b ↔ s.busy all b := fun b => by
    rw [← ht]
    rfl
  have hothers : ∀ b, t.others all root b ↔ s.others all root b := fun b => by
    rw [Ram.others, Ram.others, hbusy, hnodes]
  refine ⟨⟨?_, ?_, ?_, ?_⟩, hothers, ?_, fun p b hp => hnodes ▸ hp, ?_, ?_, ?_⟩
  · rw [← ht]
    exact h.pool.congr rfl rfl rfl
  · refine h.tree.congr (fun q hq => ?_)
    rw [← Ram.node_eq hq, ← Ram.node_eq hq, hnodes]
  · intro p b hp
    rw [hnodes] at hp
    exact (hbusy b).mpr (h.busy p b hp)
  · intro p b i pte hp hb hpte
    rw [hnodes] at hb
    have hba : b ≠ a := by
      rintro rfl
      rw [h.node_inj hb ha] at hp
      exact lt_irrefl 2 hp
    rw [Ram.entry_congr (hpage b hba)] at hpte
    exact h.inner p b i pte hp hb hpte
  · funext w
    rw [Ram.map, hnodes]
    by_cases hw : w = v
    · rw [hw, ha, bind_some, Ram.entry, hself, update_self, update_self]
    · rw [update_of_ne hw, Ram.map]
      cases hb : s.node root w.path with
      | none => rfl
      | some b =>
        rw [bind_some, bind_some]
        by_cases hba : b = a
        · have hpath : w.path = v.path := h.node_inj (hba ▸ hb) ha
          have hlast : w.2.2 ≠ v.2.2 := by
            intro hlast
            simp only [Slot.path, cons.injEq, and_true] at hpath
            exact hw (Prod.ext hpath.2 (Prod.ext hpath.1 hlast))
          rw [hba, Ram.entry, Ram.entry, hself, update_of_ne hlast]
        · rw [Ram.entry_congr (hpage b hba)]
  · exact fun b hb _ => hpage b (fun hba => hb.2 _ (hba ▸ ha))
  · rw [← ht]
  · rw [← ht]

def levels (va level : Nat) : List (Fin 512) := (List.range level).map (fun k => px (k + 1) va)

theorem levels_succ (va level : Nat) :
    levels va (level + 1) = levels va level ++ [px (level + 1) va] := by
  simp [levels, range_succ]

theorem levels_two (va : Nat) : levels va 2 = (slotOf va).path := rfl

theorem descend_false (va level a : Nat) (s : Ram) :
    descend va false level a s = .ok (nodeAt s.child a (levels va level), s) := by
  induction level generalizing a with
  | zero => rfl
  | succ level ih =>
    rw [levels_succ, nodeAt_append, descend, bind_ok (m := get) (a := s) (t := s) rfl]
    simp only [nodeAt, bind_some, Ram.child, Ram.entry, present]
    by_cases hv : (s.page a).pte (px (level + 1) va) &&& pteV ≠ 0
    · rw [if_pos hv, if_pos hv]
      exact ih _
    · rw [if_neg hv, if_neg hv]
      rfl

theorem walk_false (hva : va < maxva) : walk root va false s =
    .ok ((s.node root (slotOf va).path).map (fun a => (a, px 0 va)), s) := by
  rw [walk, if_neg (not_le.mpr hva), bind_ok (descend_false va 2 root s), levels_two,
    ← Slot.node_path]
  cases s.node root (slotOf va).path with
  | none => rfl
  | some a => rfl

theorem Table.link (h : Table all root s) (hq : s.node root q = some a) (hlen : q.length < 2)
    (hnone : s.entry a i = none) {rest : List Nat} (hl : s.freelist = b :: rest)
    (hpool : Pool all t) (hfree : t.freelist = rest) (hb : t.page b = zeroPage)
    (ha : (t.page a).pte = update (s.page a).pte i (pa2pte b ||| pteV))
    (hother : ∀ c, c ≠ a → c ≠ b → t.page c = s.page c) (htext : t.trampText = s.trampText)
    (hfail : s.failures ≤ t.failures) :
    After all root s t (s.others all root) (s.map root) ∧ t.node root (i :: q) = some b := by
  have hmem : b ∈ s.freelist := hl ▸ mem_cons_self
  have hidle : ¬ s.busy all b := fun hb => hb.2 hmem
  obtain ⟨halign, -, hhigh⟩ := h.pool.page b (h.pool.sub b hmem)
  have hpa : pte2pa (pa2pte b ||| pteV) = b :=
    pte2pa_or halign (lt_of_lt_of_le hhigh h.pool.high) (by decide)
  have hnew : t.entry a i = some (pa2pte b ||| pteV) := by
    rw [Ram.entry, ha, update_self, present, if_pos (valid_or _)]
  have hchilda : t.child a = update (s.child a) i (some b) := by
    funext j
    by_cases hj : j = i
    · rw [hj, update_self, Ram.child, hnew, map_some, hpa]
    · rw [update_of_ne hj, Ram.child, Ram.child, Ram.entry, Ram.entry, ha, update_of_ne hj]
  have hchildb : ∀ j, t.child b j = none := fun j => by
    rw [Ram.child, Ram.entry, hb]
    exact congrArg (Option.map pte2pa) present_zero
  have hchildi : s.child a i = none := by rw [Ram.child, hnone, map_none]
  have hfresh : ∀ q, q.length ≤ 2 → nodeAt s.child root q ≠ some b := fun q hq => by
    rw [← Ram.node_eq hq]
    exact h.not_node hidle q
  have hchild : ∀ c, c ≠ a → c ≠ b → t.child c = s.child c := fun c hca hcb =>
    Ram.child_congr (hother c hca hcb)
  have hqa := hq
  rw [Ram.node_eq hlen.le] at hqa
  have hnode : ∀ r, t.node root r = if r = i :: q then some b else s.node root r := by
    intro r
    by_cases hr : r.length ≤ 2
    · rw [Ram.node_eq hr, Ram.node_eq hr]
      exact nodeAt_link h.tree hqa hlen hchildi hfresh hchilda hchildb hchild hr
    · rw [Ram.node, Ram.node, if_neg hr, if_neg hr, if_neg]
      rintro rfl
      exact hr hlen
  have hold : s.node root (i :: q) = none := by
    rw [Ram.node_eq (p := i :: q) hlen, nodeAt, hqa, bind_some, hchildi]
  have hbusy : ∀ c, t.busy all c ↔ c = b ∨ s.busy all c := fun c => h.pool.busy_alloc hl hfree
  refine ⟨⟨⟨hpool, ?_, ?_, ?_⟩, ?_, ?_, ?_, ?_, htext, hfail⟩, by rw [hnode, if_pos rfl]⟩
  · exact h.tree.link hqa hlen hchildi hfresh hchilda hchildb hchild
  · intro r c hr
    rw [hnode] at hr
    rw [hbusy]
    split_ifs at hr with hri
    · exact .inl (some.inj hr).symm
    · exact .inr (h.busy r c hr)
  · intro r c j pte hr hc hpte
    rw [hnode] at hc
    split_ifs at hc with hri
    · rw [Ram.entry, ← some.inj hc, hb] at hpte
      exact absurd (present_zero.symm.trans hpte) (by simp)
    · have hcb : c ≠ b := fun hcb => h.not_node hidle r (hcb ▸ hc)
      by_cases hj : c = a ∧ j = i
      · rw [hj.1, hj.2, hnew] at hpte
        rw [← some.inj hpte]
        exact pteFlags_or (by decide)
      · refine h.inner r c j pte hr hc ?_
        rw [← hpte, Ram.entry, Ram.entry]
        by_cases hca : c = a
        · rw [hca, ha, update_of_ne (fun hji => hj ⟨hca, hji⟩)]
        · rw [hother c hca hcb]
  · intro c
    unfold Ram.others
    rw [hbusy]
    constructor
    · rintro ⟨hc, hno⟩
      have hcb : c ≠ b := fun hcb => hno (i :: q) (by rw [hnode, if_pos rfl, hcb])
      refine ⟨hc.resolve_left hcb, fun r hr => hno r ?_⟩
      rw [hnode, if_neg (fun hri => by simp [hri, hold] at hr), hr]
    · rintro ⟨hc, hno⟩
      refine ⟨.inr hc, fun r hr => ?_⟩
      rw [hnode] at hr
      split_ifs at hr with hri
      · exact hidle (some.inj hr ▸ hc)
      · exact hno r hr
  · funext v
    rw [Ram.map, Ram.map, hnode]
    split_ifs with hv
    · rw [hv, hold, bind_some, bind_none, Ram.entry, hb]
      exact present_zero
    · cases hc : s.node root v.path with
      | none => rfl
      | some c =>
        have hca : c ≠ a := by
          rintro rfl
          rw [← h.node_inj hc hq] at hlen
          exact lt_irrefl 2 hlen
        have hcb : c ≠ b := fun hcb => h.not_node hidle _ (hcb ▸ hc)
        rw [bind_some, bind_some, Ram.entry_congr (hother c hca hcb)]
  · intro r c hr
    rw [hnode, if_neg (fun hri => by simp [hri, hold] at hr), hr]
  · intro c hc _
    exact hother c (fun hca => hc.2 q (hca ▸ hq)) (fun hcb => hidle (hcb ▸ hc.1))

theorem Table.descend {level : Nat} (h : Table all root s) (hq : s.node root q = some a)
    (hlen : q.length + level = 2) : Ends (descend va true level a) s (fun r t =>
      After all root s t (s.others all root) (s.map root) ∧ (r = none → s.failures < t.failures) ∧
      ∀ c, r = some c → t.node root (levels va level ++ q) = some c) E := by
  induction level generalizing s q a with
  | zero =>
    refine Ends.pure ⟨h.refl, fun hr => by simp at hr, fun c hc => ?_⟩
    rw [← hc]
    exact hq
  | succ level ih =>
    have hshift : levels va (level + 1) ++ q = levels va level ++ px (level + 1) va :: q := by
      rw [levels_succ, append_assoc, singleton_append]
    rw [Vm.descend, hshift]
    refine Ends.get_bind ?_
    dsimp only
    by_cases hv : (s.page a).pte (px (level + 1) va) &&& pteV ≠ 0
    · rw [if_pos hv]
      refine ih h ?_ (by rw [length_cons]; omega)
      rw [Ram.node_eq (by rw [length_cons]; omega), nodeAt, ← Ram.node_eq (by omega), hq,
        bind_some, Ram.child, Ram.entry, present, if_pos hv, map_some]
    · rw [if_neg hv, if_pos rfl]
      refine (kalloc_spec s).bind ?_
      have hnone : s.entry a (px (level + 1) va) = none := by
        rw [Ram.entry, present, if_neg hv]
      rintro r t (⟨rfl, rfl⟩ | ⟨c, rest, rfl, hl, rfl⟩)
      · exact Ends.pure ⟨h.denied, fun _ => Nat.lt_succ_self _, fun _ hc => by simp at hc⟩
      · have hca : a ≠ c := fun hac => (h.busy q a hq).2 (hac ▸ hl ▸ mem_cons_self)
        refine Ends.modify_bind (Ends.bind_ok setPte_run ?_)
        generalize ht : ({ s with
          calls := s.calls + 1
          freelist := rest
          page := _ } : Ram) = t
        have hlink := h.link (b := c) (t := t) (i := px (level + 1) va) hq (by omega) hnone hl
          (by rw [← ht]; exact h.pool.alloc hl rfl rfl rfl) (by rw [← ht]) (by
            rw [← ht]
            dsimp only
            rw [update_of_ne hca.symm, update_self])
          (by
            rw [← ht]
            dsimp only
            rw [update_self, update_of_ne hca, update_of_ne hca])
          (by
            intro d hda hdc
            rw [← ht]
            dsimp only
            rw [update_of_ne hda, update_of_ne hdc, update_of_ne hdc])
          (by rw [← ht]) (by rw [← ht])
        refine (ih hlink.1.table hlink.2 (by rw [length_cons]; omega)).post ?_
        rintro r u ⟨hu, hnone, hsome⟩
        refine ⟨hlink.1.trans (hu.congr (fun b => (hlink.1.others b).symm) hlink.1.mapped.symm)
          (fun _ hb _ => hb), fun hr => lt_of_le_of_lt hlink.1.failures (hnone hr), hsome⟩

theorem Table.walk (h : Table all root s) (hva : va < maxva) :
    Ends (walk root va true) s (fun r t =>
      After all root s t (s.others all root) (s.map root) ∧ (r = none → s.failures < t.failures) ∧
      ∀ slot, r = some slot → t.node root (slotOf va).path = some slot.1 ∧ slot.2 = px 0 va) E := by
  rw [Vm.walk, if_neg (not_le.mpr hva)]
  refine (h.descend (q := []) (a := root) rfl rfl).bind ?_
  rintro r t ⟨ht, hnone, hsome⟩
  cases r with
  | none => exact Ends.pure ⟨ht, fun _ => hnone rfl, fun _ hr => by simp at hr⟩
  | some c =>
    refine Ends.pure ⟨ht, fun hr => by simp at hr, fun slot hslot => ?_⟩
    obtain rfl := some.inj hslot
    refine ⟨?_, rfl⟩
    have hnode := hsome c rfl
    rwa [append_nil, levels_two] at hnode

end Tables

end Xv6.Vm
