import Xv6.Growth

/-! `freewalk` frees the nodes of a page table from below. -/

namespace Xv6.Vm

open Fallible Radix Function List Option

def Under (s : Ram) (a k b : Nat) : Prop := ∃ p, p.length ≤ k ∧ nodeAt s.child a p = some b

def UnderFirst (s : Ram) (a k j b : Nat) : Prop :=
  ∃ (i : Fin 512) (p : List (Fin 512)), i.val < j ∧ p.length + 1 ≤ k ∧
    nodeAt s.child a (p ++ [i]) = some b

/-- A part of a page table whose lowest tables, `k` levels below its top, are empty. -/
structure Emptied (all : Nat → Prop) (a k : Nat) (s : Ram) : Prop where
  pool : Pool all s
  tree : Radix.IsTree s.child a k
  busy : ∀ b, Under s a k b → s.busy all b
  inner : ∀ p b i pte, p.length < k → nodeAt s.child a p = some b → s.entry b i = some pte →
    pteFlags pte = pteV
  bottom : ∀ p b i, p.length = k → nodeAt s.child a p = some b → s.entry b i = none

/-- The pages `gone` have been freed, and the others are as they were. -/
structure Freed (all gone : Nat → Prop) (s t : Ram) : Prop where
  pool : Pool all t
  busy : ∀ b, t.busy all b ↔ s.busy all b ∧ ¬ gone b
  page : ∀ b, ¬ gone b → t.page b = s.page b
  text : t.trampText = s.trampText
  failures : t.failures = s.failures

section Walks

variable {all : Nat → Prop} {s t u : Ram} {a b c j k : Nat} {i : Fin 512} {p : List (Fin 512)}
  {pte : Pte} {E : String → Prop}

theorem under_iff : Under s a k b ↔ b = a ∨ UnderFirst s a k 512 b := by
  constructor
  · rintro ⟨p, hp, hb⟩
    rcases eq_nil_or_concat p with rfl | ⟨q, i, rfl⟩
    · exact .inl (some.inj hb).symm
    · rw [concat_eq_append] at hp hb
      rw [length_append, length_singleton] at hp
      exact .inr ⟨i, q, i.isLt, hp, hb⟩
  · rintro (rfl | ⟨i, p, -, hp, hb⟩)
    · exact ⟨[], Nat.zero_le k, rfl⟩
    · exact ⟨p ++ [i], by simpa using hp, hb⟩

theorem nodeAt_concat (p : List (Fin 512)) :
    nodeAt s.child a (p ++ [i]) = (s.child a i).bind (fun c => nodeAt s.child c p) := by
  rw [nodeAt_append]
  rfl

theorem underFirst_succ (hi : i.val = j) : UnderFirst s a (k + 1) (j + 1) b ↔
    UnderFirst s a (k + 1) j b ∨ ∃ c, s.child a i = some c ∧ Under s c k b := by
  constructor
  · rintro ⟨i', p, hlt, hp, hb⟩
    by_cases hii : i' = i
    · rw [hii, nodeAt_concat, bind_eq_some_iff] at hb
      obtain ⟨c, hc, hb⟩ := hb
      exact .inr ⟨c, hc, p, by omega, hb⟩
    · have hne : i'.val ≠ i.val := fun he => hii (Fin.ext he)
      exact .inl ⟨i', p, by omega, hp, hb⟩
  · rintro (⟨i', p, hlt, hp, hb⟩ | ⟨c, hc, p, hp, hb⟩)
    · exact ⟨i', p, by omega, hp, hb⟩
    · refine ⟨i, p, by omega, by omega, ?_⟩
      rw [nodeAt_concat, hc, bind_some, hb]

theorem Emptied.child (h : Emptied all a (k + 1) s) (hc : s.child a i = some c)
    (hsame : ∀ b, Under s c k b → u.page b = s.page b) (hpool : Pool all u)
    (hbusy : ∀ b, Under s c k b → u.busy all b) :
    Emptied all c k u ∧ ∀ b, Under u c k b ↔ Under s c k b := by
  have hstep : nodeAt s.child a [i] = some c := hc
  have hpath : ∀ p, nodeAt s.child a (p ++ [i]) = nodeAt s.child c p := fun p =>
    nodeAt_below hstep p
  have hnode : ∀ p, p.length ≤ k → nodeAt u.child c p = nodeAt s.child c p := by
    intro p hp
    refine nodeAt_congr (d := k) (fun q b hq hb => ?_) hp
    exact Ram.child_congr (hsame b ⟨q, hq.le, hb⟩)
  have hunder : ∀ b, Under u c k b ↔ Under s c k b := by
    intro b
    refine exists_congr (fun p => and_congr_right (fun hp => ?_))
    rw [hnode p hp]
  refine ⟨⟨hpool, ?_, fun b hb => hbusy b ((hunder b).mp hb), ?_, ?_⟩, hunder⟩
  · have htree : Radix.IsTree s.child c k := Radix.IsTree.below (p := [i]) h.tree hstep
    exact htree.congr hnode
  · intro p b j pte hp hb hpte
    rw [hnode p hp.le] at hb
    rw [Ram.entry_congr (hsame b ⟨p, hp.le, hb⟩)] at hpte
    refine h.inner (p ++ [i]) b j pte ?_ (by rw [hpath, hb]) hpte
    rw [length_append, length_singleton]
    omega
  · intro p b j hp hb
    rw [hnode p hp.le] at hb
    rw [Ram.entry_congr (hsame b ⟨p, hp.le, hb⟩)]
    exact h.bottom (p ++ [i]) b j (by rw [length_append, length_singleton, hp]) (by rw [hpath, hb])

theorem Emptied.apart (h : Emptied all a (k + 1) s) (hi : i.val = j) (hc : s.child a i = some c)
    (hb : Under s c k b) : b ≠ a ∧ ¬ UnderFirst s a (k + 1) j b := by
  obtain ⟨p, hp, hpb⟩ := hb
  have hpath : nodeAt s.child a (p ++ [i]) = some b := by
    rw [nodeAt_concat, hc, bind_some, hpb]
  have hlen : (p ++ [i]).length ≤ k + 1 := by
    rw [length_append, length_singleton]
    omega
  constructor
  · rintro rfl
    have hnil := h.tree (p ++ [i]) [] b hlen (Nat.zero_le _) hpath rfl
    simp at hnil
  · rintro ⟨i', q, hlt, hq, hqb⟩
    have heq := h.tree (p ++ [i]) (q ++ [i']) b hlen (by simpa using hq) hpath hqb
    have hlast := (append_inj' heq rfl).2
    rw [singleton_inj] at hlast
    rw [← hlast, hi] at hlt
    exact lt_irrefl j hlt

/-- The nodes below the first `j` entries have been freed. -/
structure FreeingChildren (all : Nat → Prop) (s : Ram) (a k j : Nat) (u : Ram) : Prop where
  pool : Pool all u
  busy : ∀ b, u.busy all b ↔ s.busy all b ∧ ¬ UnderFirst s a k j b
  page : ∀ b, b ≠ a → ¬ UnderFirst s a k j b → u.page b = s.page b
  entries : ∀ i : Fin 512, j ≤ i.val → (u.page a).pte i = (s.page a).pte i
  text : u.trampText = s.trampText
  failures : u.failures = s.failures

theorem inner_flags (h : pteFlags pte = pteV) : pte &&& (pteR ||| pteW ||| pteX) = 0 := by
  have hmask : (0x3FF : Pte) &&& (pteR ||| pteW ||| pteX) = pteR ||| pteW ||| pteX := by decide
  rw [← hmask, ← BitVec.and_assoc]
  rw [pteFlags] at h
  rw [h]
  decide

theorem FreeingChildren.skip {free : Nat → VmM Unit} (hu : FreeingChildren all s a k j u)
    (hi : i.val = j) (hnone : s.entry a i = none) :
    Ends (freeChild free a i) u (fun _ t => FreeingChildren all s a k (j + 1) t) E := by
  have hsame : ∀ b, UnderFirst s a k (j + 1) b ↔ UnderFirst s a k j b := by
    intro b
    constructor
    · rintro ⟨i', p, hlt, hp, hb⟩
      have hne : i' ≠ i := by
        rintro rfl
        rw [nodeAt_concat, Ram.child, hnone] at hb
        simp at hb
      have hval : i'.val ≠ i.val := fun he => hne (Fin.ext he)
      exact ⟨i', p, by omega, hp, hb⟩
    · rintro ⟨i', p, hlt, hp, hb⟩
      exact ⟨i', p, by omega, hp, hb⟩
  have hinvalid : ¬ (s.page a).pte i &&& pteV ≠ 0 := by
    intro hv
    rw [Ram.entry, present, if_pos hv] at hnone
    simp at hnone
  rw [freeChild]
  refine Ends.get_bind ?_
  dsimp only
  rw [hu.entries i hi.ge, if_neg (fun hc => hinvalid hc.1), if_neg hinvalid]
  refine Ends.pure ⟨hu.pool, fun b => ?_, fun b hb hno => ?_, fun i' hi' => ?_, hu.text, hu.failures⟩
  · rw [hsame, hu.busy]
  · rw [hsame] at hno
    exact hu.page b hb hno
  · exact hu.entries i' (by omega)

theorem FreeingChildren.free {free : Nat → VmM Unit} (h : Emptied all a (k + 1) s)
    (hu : FreeingChildren all s a (k + 1) j u) (hi : i.val = j) (hc : s.entry a i = some pte)
    (hfree : Emptied all (pte2pa pte) k u → Ends (free (pte2pa pte)) u
      (fun _ t => Freed all (Under u (pte2pa pte) k) u t) E) :
    Ends (freeChild free a i) u (fun _ t => FreeingChildren all s a (k + 1) (j + 1) t) E := by
  have hchild : s.child a i = some (pte2pa pte) := by rw [Ram.child, hc, map_some]
  have hflags : pteFlags pte = pteV := h.inner [] a i pte (Nat.succ_pos k) rfl hc
  obtain ⟨hvalid, hpte⟩ : (s.page a).pte i &&& pteV ≠ 0 ∧ (s.page a).pte i = pte := by
    rw [Ram.entry, present] at hc
    by_cases hv : (s.page a).pte i &&& pteV ≠ 0
    · rw [if_pos hv] at hc
      exact ⟨hv, some.inj hc⟩
    · rw [if_neg hv] at hc
      simp at hc
  have hapart : ∀ b, Under s (pte2pa pte) k b → b ≠ a ∧ ¬ UnderFirst s a (k + 1) j b :=
    fun b hb => h.apart hi hchild hb
  have hin : ∀ b, Under s (pte2pa pte) k b → Under s a (k + 1) b := by
    intro b hb
    rw [under_iff]
    obtain ⟨p, hp, hpb⟩ := hb
    exact .inr ⟨i, p, i.isLt, by omega, by rw [nodeAt_concat, hchild, bind_some, hpb]⟩
  obtain ⟨hempty, hunder⟩ := h.child (u := u) hchild
    (fun b hb => hu.page b (hapart b hb).1 (hapart b hb).2) hu.pool
    (fun b hb => (hu.busy b).mpr ⟨h.busy b (hin b hb), (hapart b hb).2⟩)
  have ha : ¬ Under s (pte2pa pte) k a := fun hb => (hapart a hb).1 rfl
  have hsucc : ∀ b, UnderFirst s a (k + 1) (j + 1) b ↔
      UnderFirst s a (k + 1) j b ∨ Under s (pte2pa pte) k b := by
    intro b
    rw [underFirst_succ hi, hchild]
    simp
  rw [freeChild]
  refine Ends.get_bind ?_
  dsimp only
  rw [hu.entries i hi.ge, hpte, if_pos ⟨hpte ▸ hvalid, inner_flags hflags⟩]
  refine (hfree hempty).bind (fun _ w hw => Ends.of_ok setPte_run ?_)
  have hwpage : ∀ b, ¬ Under s (pte2pa pte) k b → w.page b = u.page b := fun b hb =>
    hw.page b (fun hb' => hb ((hunder b).mp hb'))
  refine ⟨hw.pool.congr rfl rfl rfl, fun b => ?_, fun b hb hno => ?_, fun i' hi' => ?_,
    hw.text.trans hu.text, hw.failures.trans hu.failures⟩
  · have hbusy := hw.busy b
    rw [hunder, hu.busy] at hbusy
    rw [hsucc, not_or, ← and_assoc]
    exact hbusy
  · rw [hsucc, not_or] at hno
    have hupd : (update w.page a { w.page a with
        pte := update (w.page a).pte i 0 } : Nat → Page) b = w.page b :=
      update_of_ne hb _ _
    exact hupd.trans ((hwpage b hno.2).trans (hu.page b hb hno.1))
  · have hne : i' ≠ i := by
      rintro rfl
      omega
    dsimp only
    rw [update_self]
    dsimp only
    rw [update_of_ne hne, hwpage a ha]
    exact hu.entries i' (by omega)

theorem FreeingChildren.finish (h : Emptied all a k s) (hu : FreeingChildren all s a k 512 u) :
    Ends (kfree a) u (fun _ t => Freed all (Under s a k) s t) E := by
  have hself : ¬ UnderFirst s a k 512 a := by
    rintro ⟨i, p, -, hp, hb⟩
    have hnil := h.tree (p ++ [i]) [] a (by simpa using hp) (Nat.zero_le k) hb rfl
    simp at hnil
  have hbusy : u.busy all a := (hu.busy a).mpr ⟨h.busy a ⟨[], Nat.zero_le k, rfl⟩, hself⟩
  obtain ⟨halign, hlow, hhigh⟩ := hu.pool.page a hbusy.1
  refine Ends.of_ok (kfree_run halign hlow hhigh) ?_
  refine ⟨hu.pool.free hbusy rfl rfl rfl, fun b => ?_, fun b hb => ?_, hu.text, hu.failures⟩
  · have hub := hu.busy b
    rw [under_iff, not_or, ← and_assoc, and_right_comm, ← hub]
    simp only [Ram.busy, mem_cons, not_or]
    tauto
  · rw [under_iff, not_or] at hb
    exact (update_of_ne hb.1 _ _).trans (hu.page b hb.1 hb.2)

theorem entryIndex_val {j : Nat} (hj : j < 512) : (entryIndex j).val = j := Nat.mod_eq_of_lt hj

theorem Emptied.freewalk (h : Emptied all a k s) :
    Ends (freewalk (k + 1) a) s (fun _ t => Freed all (Under s a k) s t) E := by
  have hstart : ∀ a k s, Pool all s → FreeingChildren all s a k 0 s := by
    intro a k s hpool
    have hno : ∀ b, ¬ UnderFirst s a k 0 b := fun b hb => by
      obtain ⟨i, p, hlt, -⟩ := hb
      exact absurd hlt (Nat.not_lt_zero _)
    exact ⟨hpool, fun b => (and_iff_left (hno b)).symm, fun _ _ _ => rfl, fun _ _ => rfl, rfl, rfl⟩
  induction k generalizing a s with
  | zero =>
    rw [Vm.freewalk]
    refine (Ends.loop (I := FreeingChildren all s a 0) (hstart a 0 s h.pool) ?_).bind
      (fun _ u hu => hu.finish h)
    intro j hj u hu
    exact hu.skip (entryIndex_val hj) (h.bottom [] a _ rfl rfl)
  | succ k ih =>
    rw [Vm.freewalk]
    refine (Ends.loop (I := FreeingChildren all s a (k + 1)) (hstart a (k + 1) s h.pool) ?_).bind
      (fun _ u hu => hu.finish h)
    intro j hj u hu
    cases hc : s.entry a (entryIndex j) with
    | none => exact hu.skip (entryIndex_val hj) hc
    | some pte => exact hu.free h (entryIndex_val hj) hc (fun hempty => ih hempty)

theorem Table.freewalk {root : Nat} (h : Table all root s) (hmap : ∀ v, s.map root v = none) :
    Ends (freewalk 3 root) s (fun _ t => Freed all (fun b => ∃ p, s.node root p = some b) s t)
      E := by
  have hunder : ∀ b, Under s root 2 b ↔ ∃ p, s.node root p = some b := by
    intro b
    constructor
    · rintro ⟨p, hp, hb⟩
      exact ⟨p, by rw [Ram.node_eq hp, hb]⟩
    · rintro ⟨p, hp⟩
      exact ⟨p, Ram.node_length hp, by rw [← Ram.node_eq (Ram.node_length hp), hp]⟩
  have hempty : Emptied all root 2 s := by
    refine ⟨h.pool, h.tree, fun b hb => ?_, fun p b i pte hp hb => ?_, fun p b i hp hb => ?_⟩
    · obtain ⟨p, hp⟩ := (hunder b).mp hb
      exact h.busy p b hp
    · exact h.inner p b i pte hp (by rw [Ram.node_eq hp.le, hb])
    · obtain ⟨j, k, rfl⟩ := length_eq_two.mp hp
      have hslot := hmap (k, j, i)
      rw [Ram.map, Slot.node_path] at hslot
      rwa [show Slot.path (k, j, i) = [j, k] from rfl, hb, bind_some] at hslot
  refine (hempty.freewalk).post (fun _ t ht => ?_)
  have hgone : Under s root 2 = fun b => ∃ p, s.node root p = some b :=
    funext (fun b => propext (hunder b))
  rwa [hgone] at ht

end Walks

end Xv6.Vm
