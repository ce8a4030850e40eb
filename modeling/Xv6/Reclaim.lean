import Xv6.Transactions

/-! `ireclaim`: what a crash with open unlinked files has left is freed when the
file system is mounted, and nothing else is touched. -/

namespace Xv6

open Interleave Fallible FsM SysM Inodes Fs

def Fs.Orphan (s : Fs) (i : Nat) : Prop := (s.dinode i).type ≠ 0 ∧ (s.dinode i).nlink = 0

instance (s : Fs) (i : Nat) : Decidable (s.Orphan i) :=
  inferInstanceAs (Decidable ((s.dinode i).type ≠ 0 ∧ (s.dinode i).nlink = 0))

/-- The inodes outside `F` and their blocks are on the disk as they were. -/
structure Survive (F : Set Nat) (s t : Fs) : Prop where
  dinode : ∀ j, j ∉ F → t.dinode j = s.dinode j
  block : ∀ j k b, j ∉ F → s.owner (j, k) = some b → t.block b = s.block b

section Surviving

variable {start : Nat} {s t u : Fs} {F G : Set Nat} {i : Nat} {E : String → Prop}

theorem Good.owner_of_survive (hs : Good start s) (ht : Good start t) (h : Survive F s t) {j : Nat}
    (hj : j ∉ F) (k : Nat) : t.owner (j, k) = s.owner (j, k) := by
  refine owner_congr ?_ (fun b hb => h.block j ndirect b hj hb) k
  rw [hs.node_dinode, ht.node_dinode, h.dinode j hj]

theorem Survive.trans (hs : Good start s) (ht : Good start t) (h : Survive F s t)
    (h' : Survive G t u) : Survive (F ∪ G) s u := by
  refine ⟨fun j hj => ?_, fun j k b hj hb => ?_⟩
  · obtain ⟨hF, hG⟩ := not_or.mp hj
    rw [h'.dinode j hG, h.dinode j hF]
  · obtain ⟨hF, hG⟩ := not_or.mp hj
    have hb' : t.owner (j, k) = some b := by rw [hs.owner_of_survive ht h hF, hb]
    rw [h'.block j k b hG hb', h.block j k b hF hb]

theorem Survive.of_disk (h : t.disk = s.disk) : Survive ∅ s t := by
  obtain ⟨-, hb, hd⟩ : t.bitmap = s.bitmap ∧ t.block = s.block ∧ t.dinode = s.dinode := by
    simpa [disk] using h
  exact ⟨fun j _ => by rw [hd], fun j k b _ _ => by rw [hb]⟩

theorem Good.view_of_survive (hs : Good start s) (ht : Good start t) (h : Survive F s t) {j : Nat}
    (hj : j ∉ F) : t.view j = s.view j := by
  refine view_congr ?_ (fun k b hb => h.block j k b hj hb) (hs.filled j)
  rw [hs.node_dinode, ht.node_dinode, h.dinode j hj]

theorem iput_survive (h : Good start s) (hr : 1 ≤ (s.itable i).ref)
    (htx : s.inodes.orphaned i = true → (s.itable i).ref = 1 → 1 ≤ s.outstanding) :
    Ends (iput i) s (fun _ t => Survive {j | j = i ∧ (s.itable i).ref = 1} s t) E := by
  refine Ends.get_bind ?_
  split_ifs with hlast
  · obtain ⟨h1, hv, h0⟩ := hlast
    have hl : s.inodes.loaded i = true := loaded_iff.mpr ⟨hr, hv⟩
    obtain ⟨n, hn⟩ := h.view_of_loaded hl
    have hnl := (view_eq_some hn).2.2.2.2.1
    rw [node_of_valid hv, h0] at hnl
    have ho : s.inodes.orphaned i = true := (s.inodes.orphaned_iff i).mpr ⟨hl, n, hn, hnl.symm⟩
    have hfree : Ends (ifree i) s (fun _ t => Survive {i} s t) E := by
      refine (itrunc_spec (h.editing hv) (htx ho h1)).bind (fun _ t ht => ?_)
      have htx' : 1 ≤ t.outstanding := by rw [ht.apart.outstanding]; exact htx ho h1
      refine Ends.bind_ok (m := FsM.edit i (fun d => { d with type := 0 }))
        (t := t.edit i (fun d => { d with type := 0 })) rfl ?_
      refine Ends.bind_ok (iupdate_run (by exact htx')) ?_
      refine Ends.modify ⟨fun j hj => ?_, fun j k b hj hb => ht.apart.block j k b hj hb⟩
      rw [← ht.apart.dinode j hj]
      exact Function.update_of_ne hj _ _
    refine hfree.bind (fun _ t ht => Ends.modify ?_)
    have hset : {j | j = i ∧ (s.itable i).ref = 1} = ({i} : Set Nat) := by
      ext j
      simp [h1]
    rw [hset]
    exact ⟨ht.dinode, ht.block⟩
  · exact Ends.modify ⟨fun _ _ => rfl, fun _ _ _ _ _ => rfl⟩

end Surviving

/-- What `ireclaim` is to free: the root directory is in use by the first process. -/
def Fs.lost (disk : Fs) (n : Nat) : Set Nat := {i | i < n ∧ disk.Orphan i ∧ i ≠ rootino}

/-- The state when the inodes below `n` have been looked at. -/
structure Reclaimed (start : Nat) (disk : Fs) (n : Nat) (t : Fs) : Prop where
  good : Good start t
  sb : t.sb = disk.sb
  outstanding : t.outstanding = 0
  inuse : t.inuse = 1
  ref : ∀ i, (t.itable i).ref = if i = rootino then 1 else 0
  gone : ∀ i ∈ disk.lost n, (t.dinode i).type = 0
  kept : Survive (disk.lost n) disk t

section Reclaiming

variable {start : Nat} {disk t : Fs} {n : Nat} {E : String → Prop}

theorem Fs.lost_succ (disk : Fs) (n : Nat) :
    disk.lost (n + 1) = disk.lost n ∪ {i | i = n ∧ disk.Orphan i ∧ i ≠ rootino} := by
  ext i
  simp only [lost, Set.mem_ofPred_eq, Set.mem_union, Nat.lt_succ_iff_lt_or_eq]
  tauto

theorem Fs.lost_succ_of_not {n : Nat} (h : ¬ (disk.Orphan n ∧ n ≠ rootino)) :
    disk.lost (n + 1) = disk.lost n := by
  rw [disk.lost_succ, Set.union_eq_left]
  rintro i ⟨rfl, hi⟩
  exact absurd hi h

theorem not_mem_lost (disk : Fs) (n : Nat) : n ∉ disk.lost n := fun h => lt_irrefl n h.1

theorem Reclaimed.skip (h : Reclaimed start disk n t) (hn : ¬ (disk.Orphan n ∧ n ≠ rootino)) :
    Reclaimed start disk (n + 1) t := by
  have hset := lost_succ_of_not hn
  exact ⟨h.good, h.sb, h.outstanding, h.inuse, h.ref, hset ▸ h.gone, hset ▸ h.kept⟩

theorem orphan_false (h : Reclaimed start disk n t) (hn : ¬ disk.Orphan n) :
    Ends (orphan n) t (fun r u => r = false ∧ u = t) E := by
  have hd : t.dinode n = disk.dinode n := h.kept.dinode n (not_mem_lost disk n)
  refine Ends.get_bind ?_
  rw [hd, if_neg (fun hc => hn hc.2)]
  exact Ends.pure ⟨rfl, rfl⟩

theorem orphan_true (hdisk : Good start disk) (h : Reclaimed start disk n t) (hn : disk.Orphan n) :
    Ends (orphan n) t (fun r u => r = true ∧ Becomes start t u (t.inodes.get n) ∧
      u.disk = t.disk) E := by
  have hd : t.dinode n = disk.dinode n := h.kept.dinode n (not_mem_lost disk n)
  have hpos : 1 ≤ n := (hdisk.bounded n (by rw [hdisk.node_dinode]; exact hn.1)).1
  have hroom : (t.itable n).ref = 0 → ninode ≤ t.inuse → E "iget: no inodes" := by
    intro _ hfull
    rw [h.inuse] at hfull
    exact absurd hfull (by decide)
  refine Ends.get_bind ?_
  rw [hd, if_pos ⟨hpos, hn⟩]
  exact ((iget_spec h.good hroom).and (iget_silent n t)).bind (fun _ u hu => Ends.pure ⟨rfl, hu⟩)

theorem typeOf_silent (ip : Nat) : Silent (typeOf ip) :=
  (ilock_silent ip).seq (Keeps.get (fun _ => (iunlock_silent ip).ret))

theorem Reclaimed.taken_ref (h : Reclaimed start disk n t) {v : Fs}
    (hv : v.inodes = (t.inodes.get n).load n) (i : Nat) :
    (v.itable i).ref = (if i = rootino then 1 else 0) + if i = n then 1 else 0 := by
  have href : (v.itable i).ref = (t.inodes.get n).ref i := congrFun (congrArg Inodes.ref hv) i
  have ht : t.inodes.ref i = if i = rootino then 1 else 0 := h.ref i
  rw [href, get_ref, ← ht]
  split_ifs with hi
  · rw [hi]
  · rfl

theorem Reclaimed.put (h : Reclaimed start disk n t) (hdisk : Good start disk)
    (hn : disk.Orphan n) {v w : Fs} (hgood : Good start v) (hsb : v.sb = t.sb)
    (hv : v.inodes = (t.inodes.get n).load n) (hvd : v.disk = t.disk)
    (hw : Becomes start v w (v.inodes.drop n))
    (hsur : Survive {j | j = n ∧ (v.itable n).ref = 1} v w) :
    Reclaimed start disk (n + 1) { w with outstanding := 0 } := by
  have href := h.taken_ref hv
  have hlast : (v.itable n).ref = 1 ↔ n ≠ rootino := by
    rw [href, if_pos rfl]
    split_ifs with hr <;> simp [hr]
  have hset : disk.lost n ∪ ∅ ∪ {j | j = n ∧ (v.itable n).ref = 1} = disk.lost (n + 1) := by
    rw [disk.lost_succ, Set.union_empty]
    congr 1
    ext j
    simp only [Set.mem_ofPred_eq, hlast]
    constructor
    · rintro ⟨rfl, hr⟩
      exact ⟨rfl, hn, hr⟩
    · rintro ⟨rfl, -, hr⟩
      exact ⟨rfl, hr⟩
  have hkept : Survive (disk.lost (n + 1)) disk w := by
    rw [← hset]
    exact (h.kept.trans hdisk h.good (Survive.of_disk hvd)).trans hdisk hgood hsur
  have hinuse : w.inuse = 1 := by
    have hvin : v.inuse = (t.inodes.get n).inuse := congrArg Inodes.inuse hv
    have hrt : t.inodes.ref n = if n = rootino then 1 else 0 := h.ref n
    have htin : t.inodes.inuse = 1 := h.inuse
    have hvr : v.inodes.ref n = (v.itable n).ref := rfl
    rw [hw.inuse, drop_inuse, hvr]
    have hve : v.inodes.inuse = (t.inodes.get n).inuse := hvin
    rw [hve, Inodes.get, hrt, htin]
    by_cases hr : n = rootino
    · rw [if_neg (by rw [hlast]; exact not_not.mpr hr), if_pos hr]
      rfl
    · rw [if_pos (hlast.mpr hr), if_neg hr]
      rfl
  have hwref : ∀ i, (w.itable i).ref = if i = rootino then 1 else 0 := by
    intro i
    have hvr : ∀ j, v.inodes.ref j = (v.itable j).ref := fun _ => rfl
    rw [hw.ref, drop_ref, hvr, hvr, href, href]
    split_ifs <;> simp_all
  have hgone : ∀ i ∈ disk.lost (n + 1), (w.dinode i).type = 0 := by
    intro i hi
    by_cases hin : i = n
    · subst hin
      have hload : v.inodes.loaded i = true := by
        rw [hv]
        simp [Inodes.load]
      obtain ⟨m, hm⟩ := hgood.view_of_loaded hload
      have hnode : v.node i = disk.node i := by
        rw [hgood.node_dinode, hdisk.node_dinode,
          (Survive.of_disk hvd).dinode i (Set.notMem_empty i),
          h.kept.dinode i (not_mem_lost disk i)]
      have hnl : m.nlink = 0 := by
        rw [← (view_eq_some hm).2.2.2.2.1, hnode, hdisk.node_dinode]
        exact hn.2
      have horph : v.inodes.orphaned i = true :=
        (v.inodes.orphaned_iff i).mpr ⟨hload, m, hm, hnl⟩
      have hview : w.view i = none := by
        rw [hw.view, drop_view, if_pos ⟨rfl, hlast.mpr hi.2.2, horph⟩]
      rw [view_eq_none, hw.good.node_dinode] at hview
      exact hview
    · have hlt : i ∈ disk.lost n := ⟨lt_of_le_of_ne (Nat.lt_succ_iff.mp hi.1) hin, hi.2⟩
      rw [hsur.dinode i (fun hc => hin hc.1), (Survive.of_disk hvd).dinode i (Set.notMem_empty i)]
      exact h.gone i hlt
  exact ⟨hw.good.transactions 0, (hw.sb.trans hsb).trans h.sb, rfl, hinuse, hwref, hgone,
    hkept.dinode, hkept.block⟩

variable {σ τ : Sys} {p : ProcId}

theorem reclaimOne_spec (hdisk : Good start disk) (h : Reclaimed start disk n t)
    (hn : disk.Orphan n) (hfs : OnlyFs σ τ) (hτ : Becomes start t τ.fs (t.inodes.get n))
    (hdk : τ.fs.disk = t.disk) :
    Ends ((do act .beginOp; let _ ← act (.typeOf n); act (.iput n); act .endOp : Op Unit).run
        (Act.exec p)) τ
      (fun _ υ => OnlyFs σ υ ∧ Reclaimed start disk (n + 1) υ.fs) (fun _ => False) := by
  have hout : τ.fs.outstanding = 0 := hτ.outstanding.trans h.outstanding
  refine ends_bind (ends_act (Ends.of_ok (beginOp_run τ)
    (Q := fun _ υ => υ = { τ with fs := { τ.fs with outstanding := τ.fs.outstanding + 1 } }) rfl))
    ?_
  rintro _ υ rfl
  rw [hout, Nat.zero_add]
  have hgood : Good start { τ.fs with outstanding := 1 } := hτ.good.transactions 1
  have hlive : ¬ (t.node n).type = 0 := by
    rw [h.good.node_dinode, h.kept.dinode n (not_mem_lost disk n)]
    exact hn.1
  have htype : ({ τ.fs with outstanding := 1 } : Fs).view n = none → False := by
    intro hnone
    have hview : τ.fs.view n = t.view n := congrFun hτ.view n
    have hnone : τ.fs.view n = none := hnone
    rw [hview, view_eq_none] at hnone
    exact hlive hnone
  have hpos : (τ.fs.itable n).ref = t.inodes.ref n + 1 := by
    rw [hτ.ref, get_ref, if_pos rfl]
  have hlock : (({ τ.fs with outstanding := 1 } : Fs).itable n).ref = 0 → False := by
    intro h0
    have h0 : (τ.fs.itable n).ref = 0 := h0
    omega
  refine ends_bind (ends_act (onFs_ends ((typeOf_spec hgood hlock htype).and
    (typeOf_silent n _)))) ?_
  rintro _ υ ⟨hfs', ⟨hb, -⟩, hυd⟩
  have hυi : υ.fs.inodes = (t.inodes.get n).load n := by
    rw [hb.inodes]
    exact congrArg (fun A => Inodes.load A n) hτ.inodes
  have hυr : 1 ≤ (υ.fs.itable n).ref := by
    rw [h.taken_ref hυi, if_pos rfl]
    exact Nat.le_add_left 1 _
  have htx : 1 ≤ υ.fs.outstanding := hb.outstanding.ge
  refine ends_bind (ends_act (onFs_ends ((iput_spec hb.good hυr (fun _ _ => htx)).and
    (iput_survive (E := fun _ => True) hb.good hυr (fun _ _ => htx))))) ?_
  rintro _ w ⟨hfs'', hwb, hsur⟩
  have hrec := h.put hdisk hn hb.good (hb.sb.trans hτ.sb) hυi (hυd.trans hdk) hwb hsur
  refine ends_act (Ends.of_ok (endOp_run w) ⟨?_, ?_⟩)
  · unfold OnlyFs at hfs hfs' hfs'' ⊢
    rw [hfs'', hfs', hfs]
  · have hwo : w.fs.outstanding = 1 := hwb.outstanding.trans hb.outstanding
    rw [hwo]
    exact hrec

theorem reclaimLoop_spec (hdisk : Good start disk) (hσ : Reclaimed start disk 0 σ.fs) (n : Nat) :
    Ends ((reclaimLoop n).run (Act.exec p)) σ
      (fun _ τ => OnlyFs σ τ ∧ Reclaimed start disk n τ.fs) (fun _ => False) := by
  induction n with
  | zero => exact ends_pure ⟨rfl, hσ⟩
  | succ n ih =>
    refine ends_bind ih ?_
    rintro _ τ ⟨hfs, hrec⟩
    by_cases hn : disk.Orphan n
    · refine ends_bind (ends_act (onFs_ends (orphan_true hdisk hrec hn))) ?_
      rintro r υ ⟨hfs', rfl, hb, hdk⟩
      have hfs'' : OnlyFs σ υ := by
        unfold OnlyFs at hfs hfs' ⊢
        rw [hfs', hfs]
      exact reclaimOne_spec hdisk hrec hn hfs'' hb hdk
    · refine ends_bind (ends_act (onFs_ends (orphan_false hrec hn))) ?_
      rintro r υ ⟨hfs', rfl, hυt⟩
      have hfs'' : OnlyFs σ υ := by
        unfold OnlyFs at hfs hfs' ⊢
        rw [hfs', hfs]
      refine ends_pure ⟨hfs'', ?_⟩
      rw [hυt]
      exact hrec.skip (fun hc => hn hc.1)

theorem boot_reclaimed (hdisk : Good start disk) (htable : ∀ i, disk.itable i = ⟨0, false, {}⟩)
    (hidle : disk.outstanding = 0) : Reclaimed start disk 0 (bootOn disk).fs := by
  have hempty : disk.lost 0 = ∅ := Set.eq_empty_of_forall_notMem (fun i hi => Nat.not_lt_zero i hi.1)
  have hb := hdisk.retable (i := rootino) (e := ⟨1, false, {}⟩) (by simp) 1
  refine ⟨hb.good, rfl, hidle, rfl, boot_ref (fun i => by rw [htable i]), ?_, ?_⟩
  · rw [hempty]
    exact fun i hi => absurd hi (Set.notMem_empty i)
  · exact ⟨fun _ _ => rfl, fun _ _ _ _ _ => rfl⟩

theorem Reclaimed.blocks_free (h : Reclaimed start disk n t) (hdisk : Good start disk) {i k : Nat}
    {b : BlockNo} (hi : i ∈ disk.lost n) (hb : disk.owner (i, k) = some b) :
    t.bitmap b = false := by
  have hmeta := (hdisk.owned.owned (i, k) b hb).1
  have hsize : b.toNat < t.sb.size := by
    rw [h.sb]
    exact (hdisk.owned.busy_of_owner hb).1
  by_contra hbit
  have hbusy : t.busy b := ⟨hsize, by simpa using hbit⟩
  rcases (h.good.owned.busy_iff b).mp hbusy with hs | hr | ⟨⟨j, m⟩, hj⟩
  · exact hmeta hs
  · exact hr
  · by_cases hlost : j ∈ disk.lost n
    · have hty := (owner_eq_some.mp hj).1
      rw [h.good.node_dinode] at hty
      exact hty (h.gone j hlost)
    · rw [hdisk.owner_of_survive h.good h.kept hlost] at hj
      have hp := hdisk.owned.inj _ _ _ hj hb
      exact hlost ((Prod.mk.inj hp).1 ▸ hi)

/-- For every image with right ownership and without holes: `ireclaim` returns,
frees the orphans and their blocks, and leaves all other inodes, the ownership
of the blocks and the references as they were. -/
theorem orphans_reclaimed (hdisk : Good start disk) (htable : ∀ i, disk.itable i = ⟨0, false, {}⟩)
    (hidle : disk.outstanding = 0) (p : ProcId) :
    Ends (ireclaim.run (Act.exec p)) (bootOn disk) (fun r τ => r = 0 ∧ Good start τ.fs ∧
      OnlyFs (bootOn disk) τ ∧
      (∀ i, disk.Orphan i → i ≠ rootino → τ.fs.view i = none ∧
        ∀ k b, disk.owner (i, k) = some b → τ.fs.bitmap b = false) ∧
      (∀ i, ¬ disk.Orphan i ∨ i = rootino → τ.fs.dinode i = disk.dinode i ∧
        τ.fs.view i = disk.view i ∧ ∀ k, τ.fs.owner (i, k) = disk.owner (i, k)) ∧
      (¬ disk.Orphan rootino → ∀ i, ¬ τ.fs.Orphan i) ∧
      ∀ i, (τ.fs.itable i).ref = ((bootOn disk).fs.itable i).ref) (fun _ => False) := by
  have hboot := boot_reclaimed hdisk htable hidle
  refine ends_bind (Q := fun n τ => n = disk.sb.ninodes ∧ τ = bootOn disk)
    (ends_act (Ends.get_bind (Ends.pure ⟨rfl, rfl⟩))) ?_
  rintro n τ ⟨rfl, rfl⟩
  refine ends_bind (reclaimLoop_spec hdisk hboot _) (fun _ τ hτ => ends_pure ?_)
  obtain ⟨hfs, h⟩ := hτ
  have hmem : ∀ i, i ∈ disk.lost disk.sb.ninodes ↔ disk.Orphan i ∧ i ≠ rootino := by
    intro i
    refine ⟨fun hi => hi.2, fun hi => ⟨?_, hi⟩⟩
    exact (hdisk.bounded i (by rw [hdisk.node_dinode]; exact hi.1.1)).2
  have hother : ∀ i, ¬ disk.Orphan i ∨ i = rootino → i ∉ disk.lost disk.sb.ninodes := by
    intro i hi hl
    obtain ⟨ho, hr⟩ := (hmem i).mp hl
    rcases hi with hi | hi
    · exact hi ho
    · exact hr hi
  refine ⟨rfl, h.good, hfs, fun i ho hr => ⟨?_, fun k b hb => ?_⟩, fun i hi => ⟨?_, ?_, fun k => ?_⟩,
    fun hroot i hi => ?_, fun i => ?_⟩
  · rw [view_eq_none, h.good.node_dinode]
    exact h.gone i ((hmem i).mpr ⟨ho, hr⟩)
  · exact h.blocks_free hdisk ((hmem i).mpr ⟨ho, hr⟩) hb
  · exact h.kept.dinode i (hother i hi)
  · exact hdisk.view_of_survive h.good h.kept (hother i hi)
  · exact hdisk.owner_of_survive h.good h.kept (hother i hi) k
  · by_cases hl : i ∈ disk.lost disk.sb.ninodes
    · exact hi.1 (h.gone i hl)
    · have hd := h.kept.dinode i hl
      have ho : disk.Orphan i := ⟨hd ▸ hi.1, hd ▸ hi.2⟩
      have hir : i ≠ rootino := by
        rintro rfl
        exact hroot ho
      exact hl ((hmem i).mpr ⟨ho, hir⟩)
  · rw [h.ref, hboot.ref]

def openUnlinked : List SysEvent :=
  alone initProc (.openFile (some pathA) (oCreate ||| oRdwr)) 7 ++
    alone initProc (.write 0 (fun _ => some 7#8) 3 0) 4 ++ alone initProc (.unlink (some pathA)) 6

theorem orphans_reclaimed_openUnlinked : ∃ w' τ,
    sysMachine.exec (bootWorld (image rootData)) openUnlinked = some w' ∧
    w'.st.fs.stopped.Orphan 2 ∧ w'.st.fs.stopped.owner (2, 0) = some 11 ∧
    ireclaim.run (Act.exec initProc) (bootOn w'.st.fs.stopped) = .ok (0, τ) ∧
    τ.fs.view 2 = none ∧ τ.fs.bitmap 11 = false := by
  have hrun : (sysMachine.exec (bootWorld (image rootData)) openUnlinked).map
      (fun w => (decide (w.st.fs.stopped.Orphan 2), w.st.fs.stopped.owner (2, 0))) =
      some (true, some 11) := by
    decide +kernel
  obtain ⟨w', hw, hval⟩ := Option.map_eq_some_iff.mp hrun
  obtain ⟨horph, hown⟩ : w'.st.fs.stopped.Orphan 2 ∧ w'.st.fs.stopped.owner (2, 0) = some 11 := by
    simpa using hval
  have hgood := ((boot_sane (show rootData.length ≤ bsize by decide)).run hw).inv.good.stopped
  obtain ⟨r, τ, hret, rfl, -, -, hfreed, -⟩ :=
    (orphans_reclaimed hgood (fun _ => rfl) rfl initProc).returns
  obtain ⟨hview, hbits⟩ := hfreed 2 horph (by decide)
  exact ⟨w', τ, hw, horph, hown, hret, hview, hbits 0 11 hown⟩

end Reclaiming

end Xv6
