import Xv6.FileContent

/-! Inodes as their users see them: for each number its content and header, the
references to it and whether it has been read. Every function of the inode layer
is an operation on this picture. -/

namespace Xv6

open LittleEndian Fallible FsM Function Fs

structure Inodes where
  view : Nat → Option Node
  ref : Nat → Nat
  loaded : Nat → Bool
  inuse : Nat

namespace Inodes

def get (A : Inodes) (i : Nat) : Inodes :=
  { A with
    ref := Function.update A.ref i (A.ref i + 1)
    inuse := if A.ref i = 0 then A.inuse + 1 else A.inuse }

def load (A : Inodes) (i : Nat) : Inodes := { A with loaded := Function.update A.loaded i true }

def put (A : Inodes) (i : Nat) (n : Option Node) : Inodes :=
  { A with view := Function.update A.view i n }

def orphaned (A : Inodes) (i : Nat) : Bool :=
  A.loaded i && (A.view i).any (fun n => n.nlink == 0)

def drop (A : Inodes) (i : Nat) : Inodes :=
  if A.ref i = 1 then
    { view := if A.orphaned i then Function.update A.view i none else A.view
      ref := Function.update A.ref i 0
      loaded := Function.update A.loaded i false
      inuse := A.inuse - 1 }
  else { A with ref := Function.update A.ref i (A.ref i - 1) }

variable (A : Inodes) (i j : Nat)

theorem orphaned_iff : A.orphaned i = true ↔
    A.loaded i = true ∧ ∃ n, A.view i = some n ∧ n.nlink = 0 := by
  unfold orphaned
  rw [Bool.and_eq_true_iff, Option.any_eq_true]
  simp only [beq_iff_eq]

theorem drop_ref : (A.drop i).ref j = if j = i then A.ref i - 1 else A.ref j := by
  unfold drop
  by_cases h : A.ref i = 1
  · simp [h, update_apply]
  · simp [h, update_apply]

theorem drop_view : (A.drop i).view j =
    if j = i ∧ A.ref i = 1 ∧ A.orphaned i = true then none else A.view j := by
  unfold drop
  by_cases h : A.ref i = 1
  · by_cases ho : A.orphaned i = true
    · simp [h, ho, update_apply]
    · simp [h, ho]
  · simp [h]

theorem drop_loaded : (A.drop i).loaded j =
    if j = i ∧ A.ref i = 1 then false else A.loaded j := by
  unfold drop
  by_cases h : A.ref i = 1
  · simp [h, update_apply]
  · simp [h]

theorem drop_inuse : (A.drop i).inuse = if A.ref i = 1 then A.inuse - 1 else A.inuse := by
  unfold drop
  split_ifs <;> rfl

end Inodes

def Fs.inodes (s : Fs) : Inodes where
  view := s.view
  ref i := (s.itable i).ref
  loaded i := decide (1 ≤ (s.itable i).ref) && (s.itable i).valid
  inuse := s.inuse

structure Becomes (start : Nat) (s t : Fs) (A : Inodes) : Prop where
  good : Good start t
  sb : t.sb = s.sb
  outstanding : t.outstanding = s.outstanding
  inodes : t.inodes = A

section Table

variable {start : Nat} {s t u : Fs} {ip i : Nat} {A B : Inodes} {E : String → Prop}

theorem Becomes.refl (h : Good start s) : Becomes start s s s.inodes := ⟨h, rfl, rfl, rfl⟩

theorem Becomes.trans (h : Becomes start s t A) (h' : Becomes start t u B) : Becomes start s u B :=
  ⟨h'.good, h'.sb.trans h.sb, h'.outstanding.trans h.outstanding, h'.inodes⟩

theorem Fs.view_eq_none : s.view i = none ↔ (s.node i).type = 0 := by
  unfold view
  split_ifs with h <;> simp [h]

theorem Fs.view_eq_some {n : Node} (h : s.view i = some n) :
    (s.node i).type = n.type ∧ n.type ≠ 0 ∧ (s.node i).major = n.major ∧
      (s.node i).minor = n.minor ∧ (s.node i).nlink = n.nlink ∧ s.content i = n.data := by
  unfold view at h
  split_ifs at h with h0
  obtain rfl := Option.some.inj h
  exact ⟨rfl, h0, rfl, rfl, rfl, rfl⟩

theorem Good.node_dinode (h : Good start s) (i : Nat) : s.node i = s.dinode i := by
  unfold node
  split_ifs with hv
  · exact h.synced i hv
  · rfl

/-- What is left on the disk when the machine stops, with the table of `iinit`. -/
def Fs.stopped (s : Fs) : Fs :=
  { s with itable := fun _ => ⟨0, false, {}⟩, inuse := 0, outstanding := 0 }

theorem Good.stopped_node (h : Good start s) (i : Nat) : s.stopped.node i = s.node i :=
  (h.node_dinode i).symm

theorem Good.stopped_owner (h : Good start s) : s.stopped.owner = s.owner := by
  funext p
  exact owner_congr (h.stopped_node p.1) (fun _ _ => rfl) p.2

theorem Good.stopped (h : Good start s) : Good start s.stopped := by
  refine ⟨h.start_pos, h.size_lt, ?_, fun i hty bn hbn => ?_, fun i hv => ?_, fun i hv => ?_,
    fun i hty => ?_⟩
  · unfold Fs.Owned
    rw [h.stopped_owner]
    exact h.owned
  · rw [h.stopped_node] at hty hbn
    rw [h.stopped_owner]
    exact h.filled i hty bn hbn
  · simp [Fs.stopped] at hv
  · simp [Fs.stopped] at hv
  · rw [h.stopped_node] at hty
    exact h.bounded i hty

theorem Good.setInode (h : Good start s) {e : Inode}
    (he : e.valid = true → e.copy = s.dinode ip ∧ e.copy.type ≠ 0) (n : Nat) :
    Good start { s.setInode ip e with inuse := n } ∧
      ({ s.setInode ip e with inuse := n } : Fs).view = s.view := by
  generalize ht : ({ s.setInode ip e with inuse := n } : Fs) = t
  have hnode : ∀ i, t.node i = s.node i := by
    intro i
    have hset : t.node i = (s.setInode ip e).node i := by rw [← ht]; rfl
    rw [hset, node_setInode]
    split_ifs with hi hv
    · rw [hi, h.node_dinode, (he hv).1]
    · rw [hi, h.node_dinode]
    · rfl
  have hblock : t.block = s.block := by rw [← ht]; rfl
  have hsb : t.sb = s.sb := by rw [← ht]; rfl
  have howner : t.owner = s.owner := by
    funext p
    exact owner_congr (hnode p.1) (fun _ _ => by rw [hblock]) p.2
  have hentry : ∀ i, (t.itable i).valid = true →
      (t.itable i).copy = s.dinode i ∧ (t.itable i).copy.type ≠ 0 := by
    intro i hv
    by_cases hi : i = ip
    · subst hi
      have hself : t.itable i = e := by rw [← ht]; simp [setInode]
      rw [hself] at hv ⊢
      exact he hv
    · have hother : t.itable i = s.itable i := by rw [← ht]; simp [Fs.setInode, hi]
      rw [hother] at hv ⊢
      exact ⟨h.synced i hv, h.typed i hv⟩
  refine ⟨⟨h.start_pos, by rw [hsb]; exact h.size_lt, ?_, fun i hty bn hbn => ?_, fun i hv => ?_,
    fun i hv => (hentry i hv).2, fun i hty => ?_⟩, ?_⟩
  · unfold Fs.Owned
    rw [howner]
    have hbusy : t.busy = s.busy := by
      funext b
      rw [← ht]
      rfl
    rw [hbusy]
    exact h.owned
  · rw [hnode] at hty hbn
    rw [howner]
    exact h.filled i hty bn hbn
  · rw [(hentry i hv).1, ← ht]
    rfl
  · rw [hnode] at hty
    rw [hsb]
    exact h.bounded i hty
  · funext i
    unfold view content byte
    rw [hnode, hblock]

theorem Good.retable (h : Good start s) {e : Inode}
    (he : e.valid = true → e.copy = s.dinode i ∧ e.copy.type ≠ 0) (n : Nat) :
    Becomes start s { s.setInode i e with inuse := n }
      { view := s.view
        ref := update s.inodes.ref i e.ref
        loaded := update s.inodes.loaded i (decide (1 ≤ e.ref) && e.valid)
        inuse := n } := by
  obtain ⟨hg, hview⟩ := h.setInode he n
  refine ⟨hg, rfl, rfl, ?_⟩
  unfold Fs.inodes
  rw [hview]
  congr 1
  · funext j
    by_cases hi : j = i
    · subst hi
      simp [Fs.setInode]
    · simp [Fs.setInode, hi]
  · funext j
    by_cases hi : j = i
    · subst hi
      simp [Fs.setInode]
    · simp [Fs.setInode, hi]

theorem Good.not_valid_of_free (h : Good start s) (hfree : s.view i = none) :
    (s.itable i).valid = false := by
  by_contra hv
  have hv : (s.itable i).valid = true := by simpa using hv
  have ht := h.typed i hv
  rw [view_eq_none, node_of_valid hv] at hfree
  exact ht hfree

theorem Fs.loaded_iff : s.inodes.loaded i = true ↔
    1 ≤ (s.itable i).ref ∧ (s.itable i).valid = true := by
  simp [inodes]

theorem Good.view_of_loaded (h : Good start s) (hl : s.inodes.loaded i = true) :
    ∃ n, s.view i = some n := by
  refine Option.ne_none_iff_exists'.mp (fun hn => ?_)
  have hv := (loaded_iff.mp hl).2
  rw [h.not_valid_of_free hn] at hv
  simp at hv

theorem Good.bump (h : Good start s) (hr : 1 ≤ (s.itable i).ref) :
    Becomes start s (s.setInode i { s.itable i with ref := (s.itable i).ref + 1 })
      (s.inodes.get i) := by
  have hb := h.retable (i := i) (e := { s.itable i with ref := (s.itable i).ref + 1 })
    (fun hv => ⟨h.synced i hv, h.typed i hv⟩) s.inuse
  have hl : (decide (1 ≤ (s.itable i).ref + 1) && (s.itable i).valid) = s.inodes.loaded i := by
    simp [inodes, hr]
  have hne : s.inodes.ref i ≠ 0 := Nat.one_le_iff_ne_zero.mp hr
  simp only [hl, update_eq_self] at hb
  unfold Inodes.get
  rw [if_neg hne]
  exact hb

theorem iget_spec (h : Good start s)
    (hroom : (s.itable i).ref = 0 → ninode ≤ s.inuse → E "iget: no inodes") :
    Ends (iget i) s (fun _ t => Becomes start s t (s.inodes.get i)) E := by
  refine Ends.get_bind ?_
  by_cases hr : (s.itable i).ref > 0
  · rw [if_pos hr]
    exact Ends.of_ok rfl (h.bump hr)
  · rw [if_neg hr]
    have h0 : (s.itable i).ref = 0 := by omega
    split_ifs with hfull
    · exact Ends.throw (hroom h0 hfull)
    · have hb := h.retable (i := i) (e := { s.itable i with ref := 1, valid := false })
        (fun hv => by simp at hv) (s.inuse + 1)
      have hl : (decide (1 ≤ 1) && false) = s.inodes.loaded i := by simp [inodes, h0]
      have h0' : s.inodes.ref i = 0 := h0
      simp only [hl, update_eq_self] at hb
      refine Ends.of_ok rfl ?_
      unfold Inodes.get
      rw [if_pos h0', h0']
      exact hb

theorem idup_spec (h : Good start s) (hr : 1 ≤ (s.itable i).ref) :
    Ends (idup i) s (fun _ t => Becomes start s t (s.inodes.get i)) E :=
  Ends.modify (h.bump hr)

theorem ilock_spec (h : Good start s) (href : (s.itable i).ref = 0 → E "ilock")
    (htype : s.view i = none → E "ilock: no type") :
    Ends (ilock i) s (fun _ t => ∃ n, s.view i = some n ∧ t.view i = some n ∧
      Becomes start s t (s.inodes.load i) ∧ t.inodes.loaded i = true) E := by
  have hpost : ∀ {t : Fs}, Becomes start s t (s.inodes.load i) → ∃ n, s.view i = some n ∧
      t.view i = some n ∧ Becomes start s t (s.inodes.load i) ∧ t.inodes.loaded i = true := by
    intro t ht
    have hl : t.inodes.loaded i = true := by
      rw [ht.inodes]
      simp [Inodes.load]
    obtain ⟨n, hn⟩ := ht.good.view_of_loaded hl
    have hview : t.view = s.view := congrArg Inodes.view ht.inodes
    exact ⟨n, hview ▸ hn, hn, ht, hl⟩
  refine Ends.get_bind ?_
  by_cases hr : (s.itable i).ref < 1
  · rw [if_pos hr]
    exact Ends.throw (href (by omega))
  · rw [if_neg hr]
    have h1 : 1 ≤ (s.itable i).ref := by omega
    by_cases hv : (s.itable i).valid = true
    · rw [if_pos hv]
      refine Ends.pure (hpost ⟨h, rfl, rfl, ?_⟩)
      have hl : s.inodes.loaded i = true := loaded_iff.mpr ⟨h1, hv⟩
      unfold Inodes.load
      rw [← hl, update_eq_self]
    · rw [if_neg hv]
      refine Ends.set_bind ?_
      split_ifs with ht
      · refine Ends.throw (htype ?_)
        rw [view_eq_none, h.node_dinode]
        exact ht
      · have hb := h.retable (i := i) (e := { s.itable i with copy := s.dinode i, valid := true })
          (fun _ => ⟨rfl, ht⟩) s.inuse
        have hl : (decide (1 ≤ (s.itable i).ref) && true) = true := by simp [h1]
        have hrw : update s.inodes.ref i (s.itable i).ref = s.inodes.ref :=
          update_eq_self (f := s.inodes.ref) i
        simp only [hl, hrw] at hb
        exact Ends.pure (hpost hb)

theorem iunlock_run (hr : 1 ≤ (s.itable i).ref) : iunlock i s = .ok ((), s) := by
  refine Ends.eq_ok (Ends.get_bind ?_)
  rw [if_neg (by omega)]
  exact Ends.pure ⟨rfl, rfl⟩

theorem inode_run : inode i s = .ok ((s.itable i).copy, s) := rfl

theorem deref_spec (h : Good start s) (hr : 1 ≤ (s.itable i).ref) {A : Inodes}
    (hA : A = if (s.itable i).ref = 1 then
      { view := s.view
        ref := update s.inodes.ref i 0
        loaded := update s.inodes.loaded i false
        inuse := s.inuse - 1 }
      else { s.inodes with ref := update s.inodes.ref i ((s.itable i).ref - 1) }) :
    Ends (deref i) s (fun _ t => Becomes start s t A) E := by
  refine Ends.modify ?_
  have hb := h.retable (i := i) (e := { s.itable i with ref := (s.itable i).ref - 1 })
    (fun hv => ⟨h.synced i hv, h.typed i hv⟩)
    (if (s.itable i).ref = 1 then s.inuse - 1 else s.inuse)
  rw [hA]
  by_cases h1 : (s.itable i).ref = 1
  · simp only [h1, if_true, Nat.sub_self] at hb ⊢
    exact hb
  · have hl : (decide (1 ≤ (s.itable i).ref - 1) && (s.itable i).valid) = s.inodes.loaded i := by
      have h2 : 1 ≤ (s.itable i).ref - 1 := by omega
      simp [inodes, hr, h2]
    simp only [hl, h1, if_false, update_eq_self] at hb ⊢
    exact hb

theorem Apart.becomes (h : Good start s) (ha : Apart s t ip) (ht : Good start t) :
    Becomes start s t (s.inodes.put ip (t.view ip)) := by
  refine ⟨ht, ha.sb, ha.outstanding, ?_⟩
  have hentry : ∀ i, (t.itable i).ref = (s.itable i).ref ∧
      (t.itable i).valid = (s.itable i).valid := by
    intro i
    by_cases hi : i = ip
    · rw [hi]
      exact ⟨ha.ref, ha.valid⟩
    · rw [ha.itable i hi]
      exact ⟨rfl, rfl⟩
  have hview : t.view = update s.view ip (t.view ip) := by
    funext i
    by_cases hi : i = ip
    · rw [hi, update_self]
    · rw [update_of_ne hi, ha.view hi (h.filled i)]
  unfold inodes Inodes.put
  simp only [hentry, ha.inuse]
  congr 1

theorem Truncated.good (h : Truncated start s ip t) : Good start t := by
  refine h.editing.good (fun _ bn hbn => ?_) h.synced
  rw [h.header] at hbn
  simp at hbn

theorem itrunc_becomes (h : Good start s) (hl : s.inodes.loaded ip = true)
    (htx : 1 ≤ s.outstanding) {n : Node} (hn : s.view ip = some n) :
    Ends (itrunc ip) s (fun _ t =>
      Becomes start s t (s.inodes.put ip (some { n with data := [] }))) E := by
  obtain ⟨hty, hty0, hmaj, hmin, hnl, -⟩ := view_eq_some hn
  refine (itrunc_spec (h.editing (loaded_iff.mp hl).2) htx).post (fun _ t ht => ?_)
  have hview : t.view ip = some { n with data := [] } := by
    have hcontent : t.content ip = [] := by
      unfold content
      rw [ht.header]
      rfl
    unfold view
    rw [hcontent, ht.header]
    simp only [hty, hmaj, hmin, hnl]
    rw [if_neg hty0]
  rw [← hview]
  exact ht.apart.becomes h ht.good

/-- The inode is marked free and its entry of the table is no longer read. -/
def Fs.discard (t : Fs) (ip : Nat) : Fs :=
  let u := (t.edit ip (fun d => { d with type := 0 })).sync ip
  u.setInode ip { u.itable ip with valid := false }

theorem Truncated.discard (h : Good start s) (ht : Truncated start s ip t) :
    Becomes start s (t.discard ip)
      { s.inodes with
        view := update s.view ip none
        loaded := update s.inodes.loaded ip false } := by
  have hself : (t.discard ip).itable ip =
      { t.itable ip with copy := { (t.itable ip).copy with type := 0 }, valid := false } := by
    simp [Fs.discard, Fs.setInode, Fs.sync, Fs.edit]
  have hother : ∀ j, j ≠ ip → (t.discard ip).itable j = t.itable j := by
    intro j hj
    simp [Fs.discard, Fs.setInode, Fs.sync, Fs.edit, hj]
  have hdself : (t.discard ip).dinode ip = { (t.itable ip).copy with type := 0 } := by
    simp [Fs.discard, Fs.setInode, Fs.sync, Fs.edit]
  have hdother : ∀ j, j ≠ ip → (t.discard ip).dinode j = t.dinode j := by
    intro j hj
    simp [Fs.discard, Fs.setInode, Fs.sync, Fs.edit, hj]
  have hfree : ((t.discard ip).node ip).type = 0 := by
    unfold Fs.node
    rw [hself, hdself]
    rfl
  have hnode : ∀ j, j ≠ ip → (t.discard ip).node j = t.node j := by
    intro j hj
    unfold Fs.node
    rw [hother j hj, hdother j hj]
  have howner : (t.discard ip).owner = t.owner := by
    funext p
    obtain ⟨j, k⟩ := p
    by_cases hj : j = ip
    · rw [hj, ht.owner k]
      exact if_pos (.inl hfree)
    · exact Fs.owner_congr (hnode j hj) (fun _ _ => rfl) k
  have hg := ht.good
  have hgood : Good start (t.discard ip) := by
    refine ⟨hg.start_pos, hg.size_lt, ?_, fun j hty bn hbn => ?_, fun j hv => ?_, fun j hv => ?_,
      fun j hty => ?_⟩
    · unfold Fs.Owned
      rw [howner]
      exact hg.owned
    · have hj : j ≠ ip := fun he => hty (he ▸ hfree)
      rw [hnode j hj] at hty hbn
      rw [howner]
      exact hg.filled j hty bn hbn
    · have hj : j ≠ ip := fun he => by simp [he, hself] at hv
      rw [hother j hj] at hv ⊢
      rw [hdother j hj]
      exact hg.synced j hv
    · have hj : j ≠ ip := fun he => by simp [he, hself] at hv
      rw [hother j hj] at hv ⊢
      exact hg.typed j hv
    · have hj : j ≠ ip := fun he => hty (he ▸ hfree)
      rw [hnode j hj] at hty
      exact hg.bounded j hty
  refine ⟨hgood, ht.apart.sb, ht.apart.outstanding, ?_⟩
  have hb := (ht.apart.becomes h hg).inodes
  unfold Fs.inodes at hb ⊢
  simp only [Inodes.put, Inodes.mk.injEq] at hb ⊢
  obtain ⟨hview, href, hloaded, hinuse⟩ := hb
  refine ⟨?_, ?_, ?_, hinuse⟩
  · funext j
    by_cases hj : j = ip
    · rw [hj, update_self, Fs.view_eq_none]
      exact hfree
    · have hv : (t.discard ip).view j = t.view j := by
        unfold Fs.view Fs.content Fs.byte
        rw [hnode j hj]
        rfl
      rw [update_of_ne hj, hv, hview, update_of_ne hj]
  · rw [← href]
    funext j
    by_cases hj : j = ip
    · rw [hj, hself]
    · rw [hother j hj]
  · funext j
    by_cases hj : j = ip
    · rw [hj, hself, update_self]
      simp
    · rw [update_of_ne hj, hother j hj]
      exact congrFun hloaded j

theorem ifree_spec (h : Good start s) (hl : s.inodes.loaded ip = true)
    (htx : 1 ≤ s.outstanding) :
    Ends (ifree ip) s (fun _ t => Becomes start s t
      { s.inodes with
        view := update s.view ip none
        loaded := update s.inodes.loaded ip false }) E := by
  refine (itrunc_spec (h.editing (loaded_iff.mp hl).2) htx).bind (fun _ t ht => ?_)
  have htx' : 1 ≤ t.outstanding := by rw [ht.apart.outstanding]; exact htx
  refine Ends.bind_ok (m := FsM.edit ip (fun d => { d with type := 0 }))
    (t := t.edit ip (fun d => { d with type := 0 })) rfl ?_
  refine Ends.bind_ok (iupdate_run (by exact htx')) ?_
  exact Ends.modify (ht.discard h)

/-- `iput`: the last reference to an inode without a name frees it. -/
theorem iput_spec (h : Good start s) (hr : 1 ≤ (s.itable i).ref)
    (htx : s.inodes.orphaned i = true → (s.itable i).ref = 1 → 1 ≤ s.outstanding) :
    Ends (iput i) s (fun _ t => Becomes start s t (s.inodes.drop i)) E := by
  refine Ends.get_bind ?_
  have horph : (s.itable i).valid = true →
      (s.inodes.orphaned i = true ↔ (s.itable i).copy.nlink = 0) := by
    intro hv
    have hl : s.inodes.loaded i = true := loaded_iff.mpr ⟨hr, hv⟩
    obtain ⟨n, hn⟩ := h.view_of_loaded hl
    have hnl := (view_eq_some hn).2.2.2.2.1
    rw [node_of_valid hv] at hnl
    have hn' : s.inodes.view i = some n := hn
    simp [Inodes.orphaned, hl, hn', hnl]
  split_ifs with hlast
  · obtain ⟨h1, hv, h0⟩ := hlast
    have ho := (horph hv).mpr h0
    have h1' : s.inodes.ref i = 1 := h1
    refine (ifree_spec h (loaded_iff.mpr ⟨hr, hv⟩) (htx ho h1)).bind (fun _ t ht => ?_)
    have href : (t.itable i).ref = 1 := by
      have h2 : t.inodes.ref i = 1 := by rw [ht.inodes]; exact h1
      exact h2
    refine (deref_spec ht.good (by omega) rfl).post (fun _ u hu => ?_)
    have hd : s.inodes.drop i = { view := t.view
                                  ref := update t.inodes.ref i 0
                                  loaded := update t.inodes.loaded i false
                                  inuse := t.inuse - 1 } := by
      have hview : t.view = update s.view i none :=
        congrArg Inodes.view ht.inodes
      have hinuse : t.inuse = s.inuse := congrArg Inodes.inuse ht.inodes
      unfold Inodes.drop
      rw [if_pos h1', if_pos ho, hview, hinuse, ht.inodes]
      simp [inodes]
    rw [if_pos href, ← hd] at hu
    exact ht.trans hu
  · refine deref_spec h hr ?_
    unfold Inodes.drop
    by_cases h1 : (s.itable i).ref = 1
    · have h1' : s.inodes.ref i = 1 := h1
      have ho : ¬ s.inodes.orphaned i = true := by
        intro ho
        have hl : s.inodes.loaded i = true := by
          unfold Inodes.orphaned at ho
          exact (Bool.and_eq_true _ _ ▸ ho).1
        have hv := (loaded_iff.mp hl).2
        exact hlast ⟨h1, hv, (horph hv).mp ho⟩
      rw [if_pos h1', if_pos h1, if_neg ho]
      rfl
    · have h1' : ¬ s.inodes.ref i = 1 := h1
      rw [if_neg h1', if_neg h1]
      rfl

end Table

end Xv6
