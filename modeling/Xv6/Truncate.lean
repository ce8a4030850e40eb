import Xv6.BlockOwnership

/-! `itrunc` gives back every block of an inode. The entries of the indirect
block are freed while the inode still has it, so the invariant is about the
inode without it. -/

namespace Xv6

open LittleEndian Fallible FsM Function Fs

def Fs.sync (s : Fs) (ip : Nat) : Fs :=
  { s with dinode := Function.update s.dinode ip (s.itable ip).copy }

section Truncating

variable {start : Nat} {s t : Fs} {ip k : Nat} {R : Set BlockNo} {b : BlockNo} {E : String → Prop}

theorem Editing.edit (h : Editing start s ip R) {f : Dinode → Dinode}
    (haddrs : (f (s.node ip)).addrs = (s.node ip).addrs) (htype : (f (s.node ip)).type ≠ 0) :
    Editing start (s.edit ip f) ip R ∧ (s.edit ip f).owner = s.owner := by
  have hnode := s.edit_node h.valid f
  have hap := Apart.edit s ip f
  have howner : (s.edit ip f).owner = s.owner := by
    funext p
    obtain ⟨i, k⟩ := p
    by_cases hi : i = ip
    · subst hi
      have ht : ((s.edit i f).node i).type ≠ 0 := by rwa [hnode]
      refine owner_of_addrs (iff_of_false ht h.type_ne) ?_ (fun _ _ => rfl) k
      rw [hnode, haddrs]
    · exact hap.owner hi k
  refine ⟨h.of_apart hap ?_ ?_ h.in_range, howner⟩
  · unfold Fs.Owned
    rw [howner]
    exact h.owned
  · rw [← node_of_valid (hap.valid.trans h.valid), hnode]
    exact htype

theorem Editing.sync_node (h : Editing start s ip R) (i : Nat) : (s.sync ip).node i = s.node i := by
  unfold node sync
  by_cases hi : i = ip
  · subst hi
    simp [h.valid]
  · simp [hi]

theorem Apart.sync (s : Fs) (ip : Nat) : Apart s (s.sync ip) ip :=
  ⟨rfl, rfl, rfl, fun _ _ => rfl, fun _ hj => update_of_ne hj _ _, rfl, rfl, fun _ _ _ _ _ => rfl⟩

theorem Editing.sync (h : Editing start s ip R) :
    Editing start (s.sync ip) ip R ∧ (s.sync ip).owner = s.owner := by
  have howner : (s.sync ip).owner = s.owner := by
    funext p
    exact owner_congr (h.sync_node p.1) (fun _ _ => rfl) p.2
  refine ⟨h.of_apart (Apart.sync s ip) ?_ (h.typed ip h.valid) h.in_range, howner⟩
  unfold Fs.Owned
  rw [howner]
  exact h.owned

theorem iupdate_run (htx : 1 ≤ s.outstanding) : iupdate ip s = .ok ((), s.sync ip) := by
  rw [iupdate, bind_ok (t := s.sync ip) rfl]
  exact logWrite_run htx

theorem Editing.dropAddr (h : Editing start s ip R) (hk : k ≤ ndirect) :
    Editing start (s.putAddr ip k 0) ip (R ∪ {c | ∃ q : Nat × Nat,
      (q.1 = ip ∧ (q.2 = k ∨ k = ndirect ∧ ndirect ≤ q.2)) ∧ s.owner q = some c}) := by
  have hnode : (s.putAddr ip k 0).node ip =
      { s.node ip with addrs := update (s.node ip).addrs k 0 } := s.putAddr_node h.valid k 0
  have hap : Apart s (s.putAddr ip k 0) ip := Apart.edit s ip _
  refine h.of_apart hap (h.owned.detach ?_ ?_) ?_ h.in_range
  · rintro ⟨i, j⟩ hq
    by_cases hi : i = ip
    · subst hi
      have hq : ¬ (j = k ∨ k = ndirect ∧ ndirect ≤ j) := fun hc => hq ⟨rfl, hc⟩
      obtain ⟨hjk, hjn⟩ := not_or.mp hq
      have hslot : slot (s.putAddr i k 0).block ((s.putAddr i k 0).node i) j =
          slot s.block (s.node i) j := by
        rw [hnode]
        unfold slot
        by_cases hj : j ≤ ndirect
        · simp [hj, hjk]
        · have hkn : ndirect ≠ k := fun he => hjn ⟨he.symm, by omega⟩
          simp only [hj, if_false, update_of_ne hkn]
          rfl
      unfold owner
      rw [hslot, hnode]
    · exact hap.owner hi j
  · rintro ⟨i, j⟩ ⟨hi, hq⟩
    dsimp only at hi hq
    subst hi
    unfold owner
    refine if_pos (.inr ?_)
    rw [hnode]
    rcases hq with rfl | ⟨rfl, hj⟩
    · rw [slot_direct _ _ hk]
      exact update_self _ _ _
    · unfold slot
      split_ifs with hj' hn
      · have hjn : j = ndirect := le_antisymm hj' hj
        simp [hjn]
      · rfl
      · simp at hn
  · rw [← node_of_valid (hap.valid.trans h.valid), hnode]
    exact h.type_ne

theorem Editing.dropDirect (h : Editing start s ip R) (hk : k < ndirect)
    (hb : s.owner (ip, k) = some b) : Editing start (s.putAddr ip k 0) ip (insert b R) := by
  have hd := h.dropAddr (k := k) (by omega)
  have hset : R ∪ {c | ∃ q : Nat × Nat,
      (q.1 = ip ∧ (q.2 = k ∨ k = ndirect ∧ ndirect ≤ q.2)) ∧ s.owner q = some c} =
      insert b R := by
    ext c
    simp only [Set.mem_union, Set.mem_ofPred_eq, Set.mem_insert_iff]
    constructor
    · rintro (hc | ⟨⟨i, j⟩, ⟨rfl, hq⟩, hc⟩)
      · exact .inr hc
      · rcases hq with rfl | ⟨rfl, -⟩
        · rw [hb] at hc
          exact .inl (Option.some.inj hc).symm
        · omega
    · rintro (rfl | hc)
      · exact .inr ⟨(ip, k), ⟨rfl, .inl rfl⟩, hb⟩
      · exact .inl hc
  rwa [hset] at hd

/-- What has been done to the inode when the first `k` addresses are freed. -/
structure Freed (start : Nat) (s : Fs) (ip k : Nat) (t : Fs) : Prop where
  editing : Editing start t ip ∅
  apart : Apart s t ip
  header : t.node ip = { s.node ip with addrs := (t.node ip).addrs }
  gone : ∀ j < k, (t.node ip).addrs j = 0

theorem freeDirect_spec (h : Freed start s ip k t) (htx : 1 ≤ t.outstanding) (hk : k < ndirect) :
    Ends (freeDirect ip k) t (fun _ => Freed start s ip (k + 1)) E := by
  have hnode := h.editing.node_eq
  refine Ends.bind_ok (m := inode ip) (a := (t.itable ip).copy) rfl ?_
  split_ifs with hz
  · refine Ends.pure ⟨h.editing, h.apart, h.header, fun j hj => ?_⟩
    rcases Nat.lt_succ_iff_lt_or_eq.mp hj with hj | rfl
    · exact h.gone j hj
    · rw [hnode]
      exact hz
  · generalize hb : (t.itable ip).copy.addrs k = b at hz ⊢
    have howner : t.owner (ip, k) = some b := by
      rw [owner_eq_some, slot_direct _ _ (by omega), hnode]
      exact ⟨h.editing.typed ip h.editing.valid, hz, hb⟩
    have hdrop := h.editing.dropDirect hk howner
    obtain ⟨hgive, hap⟩ := hdrop.giveBack (Set.mem_insert b ∅)
    rw [diff_insert_empty] at hgive
    refine Ends.bind_ok (bfree_run htx (hdrop.bitmap_of_reserved (Set.mem_insert b ∅))) ?_
    have hput : ((t.putAddr ip k 0).giveBack b).node ip =
        { t.node ip with addrs := update (t.node ip).addrs k 0 } :=
      t.putAddr_node h.editing.valid k 0
    refine Ends.of_ok (t := (t.putAddr ip k 0).giveBack b) rfl ⟨hgive,
      h.apart.trans ((Apart.edit t ip _).trans hap), ?_, fun j hj => ?_⟩
    · rw [hput, h.header]
    · rw [hput]
      by_cases hjk : j = k
      · rw [hjk]
        exact update_self _ _ _
      · simp only [update_of_ne hjk]
        exact h.gone j (by omega)

/-- The blocks of the entries `j, j + 1, …` of the indirect block `ind`, and `ind`. -/
def entriesFrom (a : Block) (ind : BlockNo) (j : Nat) : Set BlockNo :=
  {c | c = ind ∨ c ≠ 0 ∧ ∃ i, j ≤ i ∧ i < nindirect ∧ word a (4 * i) = c}

/-- While the entries are freed the inode still has its indirect block. What is
kept is an invariant of the state without it. -/
structure Draining (start : Nat) (s : Fs) (ip : Nat) (ind : BlockNo) (j : Nat) (t : Fs) : Prop where
  bitmap : ∃ m, t = { s with bitmap := m }
  editing : Editing start (t.putAddr ip ndirect 0) ip (entriesFrom (s.block ind) ind j)

theorem owner_entry {ind : BlockNo} (hind : s.owner (ip, ndirect) = some ind) (hi0 : ind ≠ 0)
    {i : Nat} (hi : i < nindirect) (hw : word (s.block ind) (4 * i) ≠ 0) :
    s.owner (ip, ndirect + 1 + i) = some (word (s.block ind) (4 * i)) := by
  have haddr := addrs_ndirect hind
  rw [owner_eq_some, slot_indirect _ _ hi (haddr ▸ hi0), haddr]
  exact ⟨(owner_eq_some.mp hind).1, hw, rfl⟩

theorem Editing.draining {ind : BlockNo} (h : Editing start s ip ∅)
    (hind : s.owner (ip, ndirect) = some ind) : Draining start s ip ind 0 s := by
  have hi0 := h.owner_ne_zero hind
  have haddr := addrs_ndirect hind
  refine ⟨⟨s.bitmap, rfl⟩, ?_⟩
  have hd := h.dropAddr (k := ndirect) le_rfl
  have hset : (∅ : Set BlockNo) ∪ {c | ∃ q : Nat × Nat,
      (q.1 = ip ∧ (q.2 = ndirect ∨ ndirect = ndirect ∧ ndirect ≤ q.2)) ∧ s.owner q = some c} =
      entriesFrom (s.block ind) ind 0 := by
    ext c
    simp only [entriesFrom, Set.empty_union, Set.mem_ofPred_eq]
    constructor
    · rintro ⟨⟨i, k⟩, ⟨rfl, hq⟩, hc⟩
      dsimp only at hq
      have hk : ndirect ≤ k := by omega
      by_cases hkn : k = ndirect
      · subst hkn
        rw [hind] at hc
        exact .inl (Option.some.inj hc).symm
      · obtain ⟨-, hc0, hslot⟩ := owner_eq_some.mp hc
        right
        refine ⟨hc0, k - (ndirect + 1), Nat.zero_le _, ?_⟩
        unfold slot at hslot
        rw [if_neg (by omega)] at hslot
        split at hslot
        · exact absurd hslot.symm hc0
        · rename_i hn
          rw [haddr] at hslot
          exact ⟨by omega, hslot⟩
    · rintro (rfl | ⟨hc0, i, -, hi, rfl⟩)
      · exact ⟨(ip, ndirect), ⟨rfl, .inl rfl⟩, hind⟩
      · exact ⟨(ip, ndirect + 1 + i), ⟨rfl, .inr ⟨trivial, by dsimp only; omega⟩⟩,
          owner_entry hind hi0 hi hc0⟩
  rwa [hset] at hd

theorem freeEntry_spec {ind : BlockNo} {j : Nat} (h : Editing start s ip ∅)
    (hind : s.owner (ip, ndirect) = some ind) (hj : j < nindirect) (htx : 1 ≤ s.outstanding)
    (ht : Draining start s ip ind j t) :
    Ends (freeEntry (s.block ind) j) t (fun _ => Draining start s ip ind (j + 1)) E := by
  have hi0 := h.owner_ne_zero hind
  obtain ⟨m, rfl⟩ := ht.bitmap
  unfold freeEntry
  split_ifs with hz
  · have hset : entriesFrom (s.block ind) ind j = entriesFrom (s.block ind) ind (j + 1) := by
      ext c
      simp only [entriesFrom, Set.mem_ofPred_eq]
      refine or_congr_right (and_congr_right (fun hc0 => exists_congr (fun i => ?_)))
      constructor
      · rintro ⟨hle, hi, hw⟩
        refine ⟨?_, hi, hw⟩
        by_contra hlt
        have hij : i = j := by omega
        exact hc0 (hw ▸ hij ▸ hz)
      · rintro ⟨hle, hi, hw⟩
        exact ⟨by omega, hi, hw⟩
    refine Ends.pure ⟨⟨m, rfl⟩, ?_⟩
    rw [← hset]
    exact ht.editing
  · generalize hb : word (s.block ind) (4 * j) = b at hz ⊢
    have hown : s.owner (ip, ndirect + 1 + j) = some b := by
      rw [← hb]
      exact owner_entry hind hi0 hj (hb ▸ hz)
    have hmem : b ∈ entriesFrom (s.block ind) ind j := .inr ⟨hz, j, le_rfl, hj, hb⟩
    have hset : entriesFrom (s.block ind) ind j \ {b} = entriesFrom (s.block ind) ind (j + 1) := by
      ext c
      simp only [entriesFrom, Set.mem_sdiff, Set.mem_ofPred_eq, Set.mem_singleton_iff]
      constructor
      · rintro ⟨rfl | ⟨hc0, i, hle, hi, hw⟩, hcb⟩
        · exact .inl rfl
        · refine .inr ⟨hc0, i, ?_, hi, hw⟩
          by_contra hlt
          have hij : i = j := by omega
          exact hcb (by rw [← hw, hij, hb])
      · rintro (rfl | ⟨hc0, i, hle, hi, hw⟩)
        · refine ⟨.inl rfl, fun he => ?_⟩
          have hp := h.owned.inj _ _ _ hind (he ▸ hown)
          have h2 := (Prod.mk.inj hp).2
          omega
        · refine ⟨.inr ⟨hc0, i, by omega, hi, hw⟩, fun he => ?_⟩
          have hp := h.owned.inj _ _ _ (owner_entry hind hi0 hi (hw ▸ hc0)) (hw ▸ he ▸ hown)
          have h2 := (Prod.mk.inj hp).2
          omega
    obtain ⟨hgive, -⟩ := ht.editing.giveBack hmem
    rw [hset] at hgive
    refine Ends.of_ok (bfree_run htx (ht.editing.bitmap_of_reserved hmem)) ⟨⟨_, rfl⟩, hgive⟩

theorem freeEntries_spec {ind : BlockNo} (h : Editing start s ip ∅)
    (hind : s.owner (ip, ndirect) = some ind) (htx : 1 ≤ s.outstanding) {n : Nat}
    (hn : n ≤ nindirect) :
    Ends (loop (freeEntry (s.block ind)) n) s (fun _ => Draining start s ip ind n) E :=
  Ends.loop (h.draining hind) (fun _ hj _ ht => freeEntry_spec h hind (lt_of_lt_of_le hj hn) htx ht)

theorem freeIndirect_spec (h : Freed start s ip ndirect t) (htx : 1 ≤ t.outstanding) :
    Ends (freeIndirect ip) t (fun _ => Freed start s ip (ndirect + 1)) E := by
  have hedit := h.editing
  have hnode := hedit.node_eq
  refine Ends.bind_ok (m := inode ip) (a := (t.itable ip).copy) rfl ?_
  split_ifs with hz
  · refine Ends.pure ⟨hedit, h.apart, h.header, fun j hj => ?_⟩
    rcases Nat.lt_succ_iff_lt_or_eq.mp hj with hj | rfl
    · exact h.gone j hj
    · rw [hnode]
      exact hz
  · generalize hb : (t.itable ip).copy.addrs ndirect = ind at hz ⊢
    have hind : t.owner (ip, ndirect) = some ind := by
      rw [owner_eq_some, slot_direct _ _ le_rfl, hnode]
      exact ⟨hedit.typed ip hedit.valid, hz, hb⟩
    refine Ends.get_bind ?_
    have hloop := freeEntries_spec (E := E) (n := nindirect) hedit hind htx (Nat.le_refl _)
    refine hloop.bind (fun _ u hu => ?_)
    obtain ⟨m, rfl⟩ := hu.bitmap
    have hset : entriesFrom (t.block ind) ind nindirect = {ind} := by
      ext c
      simp only [entriesFrom, Set.mem_ofPred_eq, Set.mem_singleton_iff, or_iff_left_iff_imp]
      rintro ⟨-, i, hle, hi, -⟩
      omega
    have hlast := hu.editing
    rw [hset] at hlast
    obtain ⟨hgive, hap⟩ := hlast.giveBack rfl
    rw [Set.sdiff_self] at hgive
    refine Ends.bind_ok (bfree_run (by exact htx) (hlast.bitmap_of_reserved rfl)) ?_
    have hput : ((({ t with bitmap := m } : Fs).putAddr ip ndirect 0).giveBack ind).node ip =
        { t.node ip with addrs := update (t.node ip).addrs ndirect 0 } :=
      ({ t with bitmap := m } : Fs).putAddr_node hedit.valid ndirect 0
    have hmap : Apart t { t with bitmap := m } ip :=
      ⟨rfl, rfl, rfl, fun _ _ => rfl, fun _ _ => rfl, rfl, rfl, fun _ _ _ _ _ => rfl⟩
    refine Ends.of_ok (t := (({ t with bitmap := m } : Fs).putAddr ip ndirect 0).giveBack ind) rfl
      ⟨hgive, h.apart.trans (hmap.trans ((Apart.edit _ ip _).trans hap)), ?_, fun j hj => ?_⟩
    · rw [hput, h.header]
    · rw [hput]
      by_cases hjk : j = ndirect
      · simp [hjk]
      · simp only [update_of_ne hjk]
        exact h.gone j (by omega)

/-- The inode is truncated: all of its blocks are free and it has none. -/
structure Truncated (start : Nat) (s : Fs) (ip : Nat) (t : Fs) : Prop where
  editing : Editing start t ip ∅
  apart : Apart s t ip
  header : t.node ip = { s.node ip with size := 0, addrs := (t.node ip).addrs }
  gone : ∀ k ≤ ndirect, (t.node ip).addrs k = 0
  synced : (t.itable ip).copy = t.dinode ip

theorem itrunc_spec (h : Editing start s ip ∅) (htx : 1 ≤ s.outstanding) :
    Ends (itrunc ip) s (fun _ => Truncated start s ip) E := by
  have htx' : ∀ {k t}, Freed start s ip k t → 1 ≤ t.outstanding := fun ht => by
    rw [ht.apart.outstanding]
    exact htx
  refine (Ends.loop (I := Freed start s ip) ⟨h, Apart.refl s ip, rfl, by simp⟩
    (fun k hk t ht => freeDirect_spec ht (htx' ht) hk)).bind (fun _ t ht => ?_)
  refine (freeIndirect_spec ht (htx' ht)).bind (fun _ t ht => ?_)
  obtain ⟨hedit, howner⟩ := ht.editing.edit (f := fun d => { d with size := 0 }) rfl
    ht.editing.type_ne
  have hnode := t.edit_node ht.editing.valid (fun d => { d with size := 0 })
  refine Ends.bind_ok (m := FsM.edit ip (fun d => { d with size := 0 }))
    (t := t.edit ip (fun d => { d with size := 0 })) rfl ?_
  refine Ends.of_ok (iupdate_run (by exact (htx' ht : 1 ≤ t.outstanding))) ⟨hedit.sync.1,
    ht.apart.trans ((Apart.edit t ip _).trans (Apart.sync _ ip)), ?_, fun k hk => ?_, ?_⟩
  · rw [hedit.sync_node, hnode, ht.header]
  · rw [hedit.sync_node, hnode]
    exact ht.gone k (by omega)
  · simp [sync]

theorem Truncated.owner (h : Truncated start s ip t) (k : Nat) : t.owner (ip, k) = none := by
  unfold Fs.owner
  refine if_pos (.inr ?_)
  unfold slot
  split_ifs with hk hn
  · exact h.gone k hk
  · rfl
  · exact absurd (.inl (h.gone ndirect le_rfl)) hn

end Truncating

end Xv6
