import Xv6.Shares
import Xv6.Steps

/-! The references to an inode are those of the processes, of their current
directories and of the open files. Every step keeps this account, in any
interleaving of the processes. -/

namespace Xv6

open Interleave Fallible Shares Function Option Multiset Inodes Held

def share (X : Abs) (held : ProcId → Held) : ProcId ⊕ FileId → Nat → Nat
  | .inl p, i => (if X.cwd p = some i then 1 else 0) + (held p).refs.count i
  | .inr f, i => if (X.holds f).map Prod.fst = some i then 1 else 0

def Booked (X : Abs) (held : ProcId → Held) : Prop := Balanced X.inodes.ref (share X held)

structure SysInv (start : Nat) (σ : Sys) (held : ProcId → Held) : Prop where
  good : Good start σ.fs
  idle : σ.IdleFiles
  outstanding : σ.fs.outstanding = ∑ p, (held p).inside.toNat
  accounted : Booked σ.abs held
  covered : ∀ p, (held p).pending ≤ (held p).refs

section Counting

variable {R : Multiset Nat} {i j : Nat}

theorem count_erase_add {α : Type} [DecidableEq α] {R : Multiset α} {i j : α} (hi : i ∈ R) :
    (R.erase i).count j + (if j = i then 1 else 0) = R.count j := by
  conv_rhs => rw [← cons_erase hi, count_cons]

theorem Held.Spare.mem {h : Held} (hs : h.Spare i) : i ∈ h.refs :=
  count_pos.mp (lt_of_le_of_lt (Nat.zero_le _) hs)

end Counting

section Balance

variable {X Y : Abs} {held : ProcId → Held} {p : ProcId} {h : Held}

theorem Booked.own (hX : Booked X held) (hcwd : Y.cwd = X.cwd) (hholds : Y.holds = X.holds)
    (ht : ∀ j, Y.inodes.ref j + (held p).refs.count j = X.inodes.ref j + h.refs.count j) :
    Booked Y (update held p h) := by
  refine Balanced.one hX (.inl p) (fun j hj => ?_) (fun k => ?_)
  · funext k
    cases j with
    | inl q =>
      have hq : q ≠ p := fun he => hj (by rw [he])
      simp only [share, hcwd, update_of_ne hq]
    | inr f => simp only [share, hholds]
  · have hk := ht k
    simp only [share, hcwd, update_self]
    omega

theorem Booked.same (hX : Booked X held) (hcwd : Y.cwd = X.cwd) (hholds : Y.holds = X.holds)
    (href : Y.inodes.ref = X.inodes.ref) (hh : h.refs = (held p).refs) :
    Booked Y (update held p h) :=
  hX.own hcwd hholds (fun j => by rw [href, hh])

theorem Booked.take {i : Nat} (hX : Booked X held) (hcwd : Y.cwd = X.cwd)
    (hholds : Y.holds = X.holds)
    (href : ∀ j, Y.inodes.ref j = X.inodes.ref j + if j = i then 1 else 0)
    (hh : h.refs = i ::ₘ (held p).refs) : Booked Y (update held p h) := by
  refine hX.own hcwd hholds (fun j => ?_)
  rw [href, hh, count_cons]
  omega

theorem Inodes.get_ref_add (A : Inodes) (i j : Nat) :
    (A.get i).ref j = A.ref j + if j = i then 1 else 0 := by
  rw [get_ref]
  split_ifs with h
  · rw [h]
  · rfl

theorem Booked.ref_pos (hX : Booked X held) {i : Nat} (hi : i ∈ (held p).refs) :
    1 ≤ X.inodes.ref i := by
  have hle := Balanced.share_le hX (.inl p) i
  have hpos := count_pos.mpr hi
  simp only [share] at hle
  omega

theorem Booked.cwd_ref (hX : Booked X held) {i : Nat} (hi : X.cwd p = some i) :
    1 ≤ X.inodes.ref i := by
  have hle := Balanced.share_le hX (.inl p) i
  simp only [share, hi, if_true] at hle
  omega

theorem Booked.drop {i : Nat} (hX : Booked X held) (hi : i ∈ (held p).refs)
    (hcwd : Y.cwd = X.cwd) (hholds : Y.holds = X.holds)
    (href : ∀ j, Y.inodes.ref j + (if j = i then 1 else 0) = X.inodes.ref j)
    (hh : h.refs = (held p).refs.erase i) : Booked Y (update held p h) := by
  refine hX.own hcwd hholds (fun j => ?_)
  have hj := href j
  have hc := count_erase_add (j := j) hi
  rw [hh]
  omega

theorem Inodes.drop_ref_add {A : Inodes} {i : Nat} (hi : 1 ≤ A.ref i) (j : Nat) :
    (A.drop i).ref j + (if j = i then 1 else 0) = A.ref j := by
  rw [drop_ref]
  split_ifs with h
  · rw [h]
    omega
  · rfl

theorem Inodes.unlink_ref {A : Inodes} {dp ip : Nat} {n m : Node} (hdp : 1 ≤ A.ref dp) (j : Nat) :
    (A.unlink dp ip n m).ref j + (if j = dp then 1 else 0) = A.ref j + if j = ip then 1 else 0 := by
  have hpos : 1 ≤ ((((A.load dp).get ip).load ip).put dp (some n)).ref dp := by
    rw [put_ref, load_ref, get_ref_add, load_ref]
    omega
  rw [unlink, put_ref, drop_ref_add hpos, put_ref, load_ref, get_ref_add, load_ref]

def Created.gain : Created → Nat → Nat
  | .found i, j => if j = i then 1 else 0
  | .made i, j => if j = i then 1 else 0
  | .failed, _ => 0

theorem CreateDone.ref {A B : Inodes} {dp : Nat} {name : CString.Buffer} {type major minor : Int}
    {n : Node} {r : Created} (hc : CreateDone A dp name type major minor n r B) (j : Nat) :
    B.ref j = A.ref j + r.gain j := by
  cases r with
  | found i =>
    obtain ⟨rfl, -⟩ := hc
    rw [get_ref_add, load_ref]
    rfl
  | made i =>
    obtain ⟨-, data, data', -, -, -, rfl⟩ := hc
    rw [put_ref, put_ref, load_ref, get_ref_add, load_ref]
    rfl
  | failed =>
    rcases hc with rfl | ⟨i, m, -, -, -, -, -, rfl⟩
    · rfl
    · rw [drop_ref, put_ref, load_ref, get_ref_add, get_ref_add, load_ref, if_pos rfl]
      split_ifs with h
      · rw [h]
        rfl
      · rfl

theorem accounted_does {a : Act} {r : a.Res} (hX : Booked X held) (hd : Does p a r X Y)
    (hn : needs a (held p)) : Booked Y (update held p (leaves a r (held p))) := by
  cases a with
  | beginOp => subst hd; exact hX.same rfl rfl rfl rfl
  | endOp => subst hd; exact hX.same rfl rfl rfl rfl
  | iget i => subst hd; exact hX.take rfl rfl (get_ref_add _ i) rfl
  | idupCwd =>
    obtain ⟨hi, rfl⟩ := hd
    exact hX.take rfl rfl (get_ref_add _ r) rfl
  | iput i =>
    subst hd
    have hmem := hn.2.mem
    exact hX.drop hmem rfl rfl (drop_ref_add (hX.ref_pos hmem)) rfl
  | search ip name =>
    obtain ⟨n, -, -, -, rfl⟩ := hd
    cases r with
    | none => exact hX.same rfl rfl rfl rfl
    | some i => exact hX.take rfl rfl (get_ref_add _ i) rfl
  | typeOf ip =>
    obtain ⟨n, -, -, rfl⟩ := hd
    exact hX.same rfl rfl rfl rfl
  | createAt dp name type major minor =>
    obtain ⟨n, -, -, B, hc, rfl⟩ := hd
    cases r with
    | found i => exact hX.take rfl rfl hc.ref rfl
    | made i => exact hX.take rfl rfl hc.ref rfl
    | failed => exact hX.same rfl rfl (funext hc.ref) rfl
  | openAt ip omode =>
    obtain ⟨n, -, hd⟩ := hd
    cases r with
    | refused => subst hd; exact hX.same rfl rfl rfl rfl
    | full r => subst hd; exact hX.same rfl rfl rfl rfl
    | opened fd =>
      obtain ⟨f, w, data, hf, -, -, rfl⟩ := hd
      have hmem := hn.2.1.mem
      refine Balanced.two hX (.inl p) (.inr f) Sum.inl_ne_inr (fun j hj hj' => ?_) (fun k => ?_)
      · funext k
        cases j with
        | inl q =>
          have hq : q ≠ p := fun he => hj (by rw [he])
          simp only [share, update_of_ne hq]
        | inr g =>
          have hg : g ≠ f := fun he => hj' (by rw [he])
          simp only [share, update_of_ne hg]
      · have hc := count_erase_add (j := k) hmem
        simp only [share, leaves, give, update_self, hf, map_none,
          map_some, some.injEq, eq_comm (a := ip), put_ref, load_ref]
        simp only [reduceCtorEq, if_false]
        omega
  | unlinkAt dp name =>
    rcases hd with ⟨rfl, B, hB, rfl⟩ | ⟨n, ip, m, k, -, -, rfl, -, -, -, -, -, -, -, -, rfl⟩
    · exact hX.same rfl rfl hB.ref rfl
    · have hmem := hn.2.mem
      refine hX.own rfl rfl (fun j => ?_)
      have hr := @unlink_ref X.inodes dp ip { n with
        nlink := if m.type = tDir then i16 (n.nlink - 1) else n.nlink
        data := Records.splice n.data (direntSize * k) Dirent.free.encode }
        { m with nlink := i16 (m.nlink - 1) } (hX.ref_pos hmem) j
      have hc := count_erase_add (j := j) hmem
      simp only [leaves, take, give, count_cons, Abs.withInodes]
      omega
  | linkCount ip =>
    obtain ⟨n, -, ⟨rfl, -, rfl⟩ | ⟨rfl, -, rfl⟩⟩ := hd
    · exact hX.same rfl rfl rfl rfl
    · exact hX.same rfl rfl rfl rfl
  | linkEnter dp name ip =>
    obtain ⟨n, -, -, ⟨rfl, rfl⟩ | ⟨data, rfl, -, rfl⟩⟩ := hd
    · exact hX.same rfl rfl rfl rfl
    · exact hX.same rfl rfl rfl rfl
  | linkUncount ip =>
    obtain ⟨n, -, rfl⟩ := hd
    exact hX.same rfl rfl rfl rfl
  | swapCwd next =>
    obtain ⟨hi, rfl⟩ := hd
    refine Balanced.one hX (.inl p) (fun j hj => ?_) (fun k => ?_)
    · funext k
      cases j with
      | inl q =>
        have hq : q ≠ p := fun he => hj (by rw [he])
        simp only [share, update_of_ne hq]
      | inr f => rfl
    · cases next with
      | none =>
        simp only [share, update_self, leaves, take, count_cons, hi,
          some.injEq, reduceCtorEq, if_false, eq_comm (a := r)]
        omega
      | some j =>
        have hc := count_erase_add (j := k) (hn j rfl).1.mem
        simp only [share, update_self, leaves, take, give, count_cons,
          hi, some.injEq, eq_comm (a := r), eq_comm (a := j)]
        omega
  | dup fd => subst hd; exact hX.same rfl rfl rfl rfl
  | takeFd fd => subst hd; exact hX.same rfl rfl rfl rfl
  | fdalloc f => subst hd; exact hX.same rfl rfl rfl rfl
  | closeFile f =>
    cases r with
    | none => subst hd; exact hX.same rfl rfl rfl rfl
    | some i =>
      obtain ⟨w, hf, rfl⟩ := hd
      refine Balanced.two hX (.inl p) (.inr f) Sum.inl_ne_inr (fun j hj hj' => ?_) (fun k => ?_)
      · funext k
        cases j with
        | inl q =>
          have hq : q ≠ p := fun he => hj (by rw [he])
          simp only [share, update_of_ne hq]
        | inr g =>
          have hg : g ≠ f := fun he => hj' (by rw [he])
          simp only [share, update_of_ne hg]
      · simp only [share, leaves, take, update_self, hf, map_none,
          map_some, some.injEq, eq_comm (a := i), count_cons, reduceCtorEq,
          if_false]
        omega
  | pipealloc page => subst hd; exact hX.same rfl rfl rfl rfl
  | forkFiles child =>
    cases r with
    | false => subst hd; exact hX.same rfl rfl rfl rfl
    | true =>
      obtain ⟨i, hi, hnone, hne, rfl⟩ := hd
      rw [show leaves (.forkFiles child) true (held p) = held p from rfl, update_eq_self]
      refine Balanced.one hX (.inl child) (fun j hj => ?_) (fun k => ?_)
      · funext k
        cases j with
        | inl q =>
          have hq : q ≠ child := fun he => hj (by rw [he])
          simp only [share, update_of_ne hq]
        | inr f => rfl
      · simp only [share, update_self, hnone, get_ref_add, some.injEq,
          reduceCtorEq, if_false, eq_comm (a := i)]
        omega
  | fileOf fd => subst hd; exact hX.same rfl rfl rfl rfl
  | writeAt fd src n =>
    obtain ⟨f, ip, m, data, -, -, rfl⟩ := hd
    exact hX.same rfl rfl rfl rfl
  | readAt fd dst n =>
    obtain ⟨f, ip, w, m, -, -, rfl⟩ := hd
    exact hX.same rfl rfl rfl rfl
  | load ip mem =>
    obtain ⟨n, -, rfl⟩ := hd
    exact hX.same rfl rfl rfl rfl
  | ninodes => subst hd; exact hX.same rfl rfl rfl rfl
  | orphan inum =>
    cases r with
    | false => subst hd; exact hX.same rfl rfl rfl rfl
    | true =>
      obtain ⟨-, rfl⟩ := hd
      exact hX.take rfl rfl (get_ref_add _ inum) rfl
  | panic msg => exact hd.elim

end Balance

section Holding

variable {h : Held} {i : Nat} {a : Act}

theorem Held.Spare.le_give (hs : h.Spare i) (hc : h.pending ≤ h.refs) :
    h.pending ≤ (h.give i).refs := by
  refine le_iff_count.mpr (fun j => ?_)
  have hj := le_iff_count.mp hc j
  have hcount := count_erase_add (j := j) hs.mem
  have hi : h.pending.count i < h.refs.count i := hs
  simp only [give]
  by_cases hji : j = i
  · subst hji
    rw [if_pos rfl] at hcount
    omega
  · rw [if_neg hji] at hcount
    omega

theorem Held.Spare.cons_le (hs : h.Spare i) (hc : h.pending ≤ h.refs) :
    i ::ₘ h.pending ≤ h.refs := by
  refine le_iff_count.mpr (fun j => ?_)
  have hj := le_iff_count.mp hc j
  have hi : h.pending.count i < h.refs.count i := hs
  rw [count_cons]
  split_ifs with hji
  · rw [hji]
    omega
  · omega

theorem covered_leaves (r : a.Res) (hn : needs a h) (hc : h.pending ≤ h.refs) :
    (leaves a r h).pending ≤ (leaves a r h).refs := by
  have htake : ∀ i, h.pending ≤ i ::ₘ h.refs := fun i => hc.trans (le_cons_self _ i)
  cases a with
  | iget i => exact htake i
  | idupCwd => exact htake r
  | iput i => exact hn.2.le_give hc
  | search ip name =>
    cases r with
    | none => exact hc
    | some i => exact htake i
  | createAt dp name type major minor =>
    cases r with
    | found i => exact htake i
    | made i => exact htake i
    | failed => exact hc
  | openAt ip omode =>
    cases r with
    | refused => exact hc
    | full r => exact hc
    | opened fd => exact hn.2.1.le_give hc
  | unlinkAt dp name =>
    cases r with
    | none => exact hc
    | some i => exact (hn.2.le_give hc).trans (le_cons_self _ i)
  | linkCount ip =>
    cases r with
    | false => exact hc
    | true => exact hn.2.cons_le hc
  | linkEnter dp name ip =>
    cases r with
    | false => exact hc
    | true => exact (erase_le _ _).trans hc
  | linkUncount ip => exact (erase_le _ _).trans hc
  | swapCwd next =>
    cases next with
    | none => exact htake r
    | some j => exact ((hn j rfl).1.le_give hc).trans (le_cons_self _ r)
  | closeFile f =>
    cases r with
    | none => exact hc
    | some i => exact htake i
  | orphan inum =>
    cases r with
    | false => exact hc
    | true => exact htake inum
  | _ => exact hc

theorem leaves_inside (r : a.Res) : (leaves a r h).inside = a.bracket h.inside := by
  cases a with
  | search ip name => cases r <;> rfl
  | createAt dp name type major minor => cases r <;> rfl
  | openAt ip omode => cases r <;> rfl
  | unlinkAt dp name => cases r <;> rfl
  | linkCount ip => cases r <;> rfl
  | linkEnter dp name ip => cases r <;> rfl
  | swapCwd next => cases next <;> rfl
  | closeFile f => cases r <;> rfl
  | orphan inum => cases r <;> rfl
  | _ => rfl

theorem Act.Logs.inside (hl : a.Logs) (hn : needs a h) : h.inside = true := by
  cases a with
  | iput i => exact hn.1
  | search ip name => exact hn.1
  | typeOf ip => exact hn.1
  | load ip mem => exact hn.1
  | createAt dp name type major minor => exact hn.1
  | openAt ip omode => exact hn.1
  | unlinkAt dp name => exact hn.1
  | linkCount ip => exact hn.1
  | linkEnter dp name ip => exact hn.1
  | linkUncount ip => exact hn.1
  | writeAt fd src n => exact hn.1
  | _ => exact hl.elim

theorem count_bracket {inside : ProcId → Bool} {p : ProcId} (hb : a = .beginOp → inside p = false)
    (he : a = .endOp → inside p = true) {k : Nat} (hk : k = ∑ q, (inside q).toNat) :
    a.count k = ∑ q, (update inside p (a.bracket (inside p)) q).toNat := by
  have hsum := sum_replace (a := p) (f := fun q => (inside q).toNat)
    (g := fun q => (update inside p (a.bracket (inside p)) q).toNat)
    (fun q hq => by simp only [update_of_ne hq])
  simp only [update_self] at hsum
  cases a with
  | beginOp =>
    simp only [hb rfl, Act.bracket, Bool.toNat_true, Bool.toNat_false] at hsum
    simp only [Act.count, Act.bracket]
    omega
  | endOp =>
    simp only [he rfl, Act.bracket, Bool.toNat_true, Bool.toNat_false] at hsum
    simp only [Act.count, Act.bracket]
    omega
  | _ =>
    simp only [Act.bracket] at hsum
    simp only [Act.count, Act.bracket]
    omega

theorem count_leaves {held : ProcId → Held} {p : ProcId} (r : a.Res) (hn : needs a (held p))
    {k : Nat} (hk : k = ∑ q, (held q).inside.toNat) :
    a.count k = ∑ q, (update held p (leaves a r (held p)) q).inside.toNat := by
  have hinside : ∀ q, (update held p (leaves a r (held p)) q).inside =
      update (fun q => (held q).inside) p (a.bracket (held p).inside) q := by
    intro q
    by_cases hq : q = p
    · subst hq
      simp [leaves_inside]
    · simp [hq]
  simp only [hinside]
  refine count_bracket (fun ha => ?_) (fun ha => ?_) hk
  · subst ha
    exact hn
  · subst ha
    exact hn

end Holding

theorem SysInv.step {start : Nat} {σ : Sys} {held : ProcId → Held} {p : ProcId} {a : Act}
    {E : String → Prop} (hinv : SysInv start σ held) (hneeds : needs a (held p))
    (hE : ∀ e, Benign e → E e) (hnl : E "unlink: nlink < 1" ∨ Counted σ.fs) :
    Ends (a.exec p) σ (fun r τ => Done start p a σ r τ ∧
      SysInv start τ (update held p (leaves a r (held p)))) E := by
  have htx : a.Logs → 1 ≤ σ.fs.outstanding := by
    intro hl
    rw [hinv.outstanding]
    have hin := hl.inside hneeds
    have hle := Finset.single_le_sum (f := fun q => (held q).inside.toNat)
      (fun _ _ => Nat.zero_le _) (Finset.mem_univ p)
    simpa only [hin, Bool.toNat_true] using hle
  have href : ∀ i, a = .iput i → 1 ≤ (σ.fs.itable i).ref := by
    rintro i rfl
    exact hinv.accounted.ref_pos hneeds.2.mem
  refine (exec_does hinv.good hinv.idle hE hnl htx href
    (fun c hc => hinv.accounted.cwd_ref hc) hneeds).post (fun r τ hd => ⟨hd, ?_⟩)
  refine ⟨hd.good, hd.idle, ?_, accounted_does hinv.accounted hd.does hneeds, fun q => ?_⟩
  · rw [hd.outstanding]
    exact count_leaves r hneeds hinv.outstanding
  · rw [update_apply]
    split_ifs with hq
    · subst hq
      exact covered_leaves r hneeds (hinv.covered q)
    · exact hinv.covered q

theorem sys_sound (start : Nat) : Sound (fun p a => a.exec p) contract (SysInv start)
    (fun e => Benign e ∨ e = "unlink: nlink < 1") (fun _ _ _ => True) := by
  intro σ held p a hinv hneeds _
  exact (hinv.step (E := fun e => Benign e ∨ e = "unlink: nlink < 1") hneeds
    (fun e he => .inl he) (.inl (.inr rfl))).post (fun r τ hτ => ⟨hτ.1.allows, hτ.2⟩)

end Xv6
