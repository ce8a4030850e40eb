import Xv6.Sections

/-! What the locked parts of the system calls do to the inodes. -/

namespace Xv6

open Fallible FsM Records CString Function Inodes Fs

section Basic

variable {start : Nat} {s t : Fs} {ip dp i : Nat} {A : Inodes} {n : Node} {E : String → Prop}

theorem Becomes.view (h : Becomes start s t A) : t.view = A.view := congrArg Inodes.view h.inodes

theorem Becomes.ref (h : Becomes start s t A) (i : Nat) : (t.itable i).ref = A.ref i :=
  congrFun (congrArg Inodes.ref h.inodes) i

theorem Becomes.loaded (h : Becomes start s t A) (i : Nat) : t.inodes.loaded i = A.loaded i :=
  congrFun (congrArg Inodes.loaded h.inodes) i

theorem Becomes.inuse (h : Becomes start s t A) : t.inuse = A.inuse :=
  congrArg Inodes.inuse h.inodes

theorem Becomes.open (h : Becomes start s t A) (htx : 1 ≤ s.outstanding) : 1 ≤ t.outstanding := by
  rw [h.outstanding]
  exact htx

theorem Fs.ref_of_loaded (h : s.inodes.loaded i = true) : 1 ≤ (s.itable i).ref :=
  (loaded_iff.mp h).1

theorem Fs.inode_view (hl : s.inodes.loaded ip = true)
    (hn : s.view ip = some n) : (s.itable ip).copy.type = n.type ∧
      (s.itable ip).copy.major = n.major ∧ (s.itable ip).copy.nlink = n.nlink := by
  have hv := (loaded_iff.mp hl).2
  obtain ⟨h1, -, h2, -, h3, -⟩ := view_eq_some hn
  rw [← node_of_valid hv]
  exact ⟨h1, h2, h3⟩

@[simp] theorem Inodes.load_view (A : Inodes) (i : Nat) : (A.load i).view = A.view := rfl

@[simp] theorem Inodes.load_ref (A : Inodes) (i : Nat) : (A.load i).ref = A.ref := rfl

@[simp] theorem Inodes.load_inuse (A : Inodes) (i : Nat) : (A.load i).inuse = A.inuse := rfl

@[simp] theorem Inodes.load_loaded (A : Inodes) (i : Nat) : (A.load i).loaded i = true := by
  simp [load]

@[simp] theorem Inodes.get_view (A : Inodes) (i : Nat) : (A.get i).view = A.view := rfl

@[simp] theorem Inodes.get_loaded (A : Inodes) (i : Nat) : (A.get i).loaded = A.loaded := rfl

theorem Inodes.get_ref (A : Inodes) (i j : Nat) :
    (A.get i).ref j = if j = i then A.ref i + 1 else A.ref j := by
  simp [get, update_apply]

theorem search_spec (h : Good start s) (name : Buffer) (href : (s.itable ip).ref = 0 → E "ilock")
    (halloc : s.view ip = none → E "ilock: no type")
    (hfmt : ∀ n, s.view ip = some n → n.type = tDir → ¬ n.Formatted → E "dirlookup read")
    (hroom : ninode ≤ s.inuse → E "iget: no inodes") :
    Ends (search ip name) s (fun r t => ((r = none ∧ Becomes start s t (s.inodes.load ip)) ∨
      ∃ i, r = some i ∧ Becomes start s t ((s.inodes.load ip).get i)) ∧
      ∃ n, s.view ip = some n ∧ (n.type ≠ tDir → r = none) ∧ (n.type = tDir → n.Formatted →
        r = (lookup (dirents n.data) name).map Prod.fst)) E := by
  refine (ilock_spec h href halloc).bind ?_
  rintro _ t ⟨n, hn', hn, hb, hl⟩
  refine Ends.bind_ok inode_run ?_
  rw [(inode_view hl hn).1]
  split_ifs with hty
  · refine Ends.bind_ok (iunlock_run (ref_of_loaded hl)) ?_
    exact Ends.pure ⟨.inl ⟨rfl, hb⟩, n, hn', fun _ => rfl, fun h1 => absurd h1 hty⟩
  · have hty := not_not.mp hty
    refine (dirlookup_spec hb.good hl hn name (fun h1 => absurd hty h1) (hfmt n hn' hty)
      (fun hfull => hroom (by rw [hb.inuse] at hfull; exact hfull))).bind ?_
    rintro r u ⟨-, hr, hlook⟩
    rcases hr with ⟨rfl, rfl⟩ | ⟨i, off, rfl, hg⟩
    · refine Ends.bind_ok (iunlock_run (ref_of_loaded hl)) ?_
      refine Ends.pure ⟨.inl ⟨rfl, hb⟩, n, hn', fun _ => rfl, fun _ hf => ?_⟩
      rw [← hlook hf]
    · rw [hb.inodes] at hg
      have hl' : u.inodes.loaded ip = true := by
        rw [hg.loaded]
        simp
      refine Ends.bind_ok (iunlock_run (ref_of_loaded hl')) ?_
      refine Ends.pure ⟨.inr ⟨i, rfl, hb.trans hg⟩, n, hn', fun h1 => absurd hty h1, fun _ hf => ?_⟩
      rw [← hlook hf]

theorem typeOf_spec (h : Good start s) (href : (s.itable ip).ref = 0 → E "ilock")
    (halloc : s.view ip = none → E "ilock: no type") :
    Ends (typeOf ip) s (fun r t => Becomes start s t (s.inodes.load ip) ∧
      ∃ n, s.view ip = some n ∧ r = n.type) E := by
  refine (ilock_spec h href halloc).bind ?_
  rintro _ t ⟨n, hn', hn, hb, hl⟩
  refine Ends.bind_ok inode_run ?_
  rw [(inode_view hl hn).1]
  refine Ends.bind_ok (iunlock_run (ref_of_loaded hl)) ?_
  exact Ends.pure ⟨hb, n, hn', rfl⟩

def Benign (e : String) : Prop :=
  e ∉ ["freeing free block", "log_write outside of trans", "bmap: out of range",
    "unlink: nlink < 1"]

instance (e : String) : Decidable (Benign e) := inferInstanceAs (Decidable (e ∉ _))

theorem Inodes.put_loaded (A : Inodes) (i : Nat) (v : Option Node) :
    (A.put i v).loaded = A.loaded := rfl

theorem Inodes.put_ref (A : Inodes) (i : Nat) (v : Option Node) : (A.put i v).ref = A.ref := rfl

theorem Inodes.put_view (A : Inodes) (i : Nat) (v : Option Node) (j : Nat) :
    (A.put i v).view j = if j = i then v else A.view j := by
  simp [put, update_apply]

theorem Inodes.put_put (A : Inodes) (i : Nat) (v w : Option Node) :
    (A.put i v).put i w = A.put i w := by
  simp [put]

theorem linkCount_spec (h : Good start s) (htx : 1 ≤ s.outstanding) (hE : ∀ e, Benign e → E e) :
    Ends (linkCount ip) s (fun r t => ∃ n, s.view ip = some n ∧
      ((r = false ∧ n.type = tDir ∧ Becomes start s t (s.inodes.load ip)) ∨
        (r = true ∧ n.type ≠ tDir ∧ Becomes start s t ((s.inodes.load ip).put ip
          (some { n with nlink := i16 (n.nlink + 1) }))))) E := by
  refine (ilock_spec h (fun _ => hE _ (by decide)) (fun _ => hE _ (by decide))).bind ?_
  rintro _ t ⟨n, hn', hn, hb, hl⟩
  refine Ends.bind_ok inode_run ?_
  rw [(inode_view hl hn).1]
  split_ifs with hty
  · refine Ends.bind_ok (iunlock_run (ref_of_loaded hl)) ?_
    exact Ends.pure ⟨n, hn', .inl ⟨rfl, hty, hb⟩⟩
  · refine (amend_nlink hb.good hl (hb.open htx) hn (fun x => i16 (x + 1))).bind (fun _ u hu => ?_)
    rw [hb.inodes] at hu
    have hl' : u.inodes.loaded ip = true := by
      rw [hu.loaded, put_loaded]
      simp
    refine Ends.bind_ok (iunlock_run (ref_of_loaded hl')) ?_
    exact Ends.pure ⟨n, hn', .inr ⟨rfl, hty, hb.trans hu⟩⟩

theorem linkUncount_spec (h : Good start s) (htx : 1 ≤ s.outstanding) (hE : ∀ e, Benign e → E e) :
    Ends (linkUncount ip) s (fun _ t => ∃ n, s.view ip = some n ∧
      Becomes start s t ((s.inodes.load ip).put ip
        (some { n with nlink := i16 (n.nlink - 1) }))) E := by
  refine (ilock_spec h (fun _ => hE _ (by decide)) (fun _ => hE _ (by decide))).bind ?_
  rintro _ t ⟨n, hn', hn, hb, hl⟩
  refine (amend_nlink hb.good hl (hb.open htx) hn (fun x => i16 (x - 1))).bind (fun _ u hu => ?_)
  rw [hb.inodes] at hu
  have hl' : u.inodes.loaded ip = true := by
    rw [hu.loaded, put_loaded]
    simp
  exact Ends.of_ok (iunlock_run (ref_of_loaded hl')) ⟨n, hn', hb.trans hu⟩

theorem linkEnter_spec (h : Good start s) (htx : 1 ≤ s.outstanding) (name : Buffer)
    (hE : ∀ e, Benign e → E e) :
    Ends (linkEnter dp name ip) s (fun r t => ∃ n, s.view dp = some n ∧ n.type = tDir ∧
      ((r = false ∧ Becomes start s t (s.inodes.load dp)) ∨
        ∃ data, r = true ∧ Becomes start s t ((s.inodes.load dp).put dp
            (some { n with data := data })) ∧
          (n.Formatted → lookup (dirents n.data) name = none ∧
            Node.Formatted { n with data := data } ∧
            dirents data = enter (dirents n.data) (Dirent.new name ip)))) E := by
  refine (ilock_spec h (fun _ => hE _ (by decide)) (fun _ => hE _ (by decide))).bind ?_
  rintro _ t ⟨n, hn', hn, hb, hl⟩
  refine (dirlink_spec hb.good hl (hb.open htx) hn name ip (fun _ => hE _ (by decide))
    (fun _ => hE _ (by decide)) (fun _ => hE _ (by decide)) (fun _ => hE _ (by decide))).bind
    ?_
  rintro r u ⟨hdir, hu⟩
  have hl' : u.inodes.loaded dp = true := by
    rcases hu with ⟨-, hu⟩ | ⟨data, -, hu, -⟩
    · rw [hu.inodes]
      exact hl
    · rw [hu.inodes]
      exact hl
  refine Ends.bind_ok (iunlock_run (ref_of_loaded hl')) (Ends.pure ⟨n, hn', hdir, ?_⟩)
  rw [hb.inodes] at hu
  rcases hu with ⟨rfl, hu⟩ | ⟨data, rfl, hu, hnew⟩
  · exact .inl ⟨rfl, hb.trans hu⟩
  · exact .inr ⟨data, rfl, hb.trans hu, hnew⟩

/-- Nothing but the table has changed, and no entry of it has been lost. -/
structure Untouched (A B : Inodes) : Prop where
  view : B.view = A.view
  ref : B.ref = A.ref
  loaded : ∀ i, A.loaded i = true → B.loaded i = true
  inuse : B.inuse = A.inuse

theorem Untouched.load (A : Inodes) (i : Nat) : Untouched A (A.load i) := by
  refine ⟨rfl, rfl, fun j hj => ?_, rfl⟩
  by_cases h : j = i
  · subst h
    simp
  · simpa [Inodes.load, h] using hj

theorem Inodes.drop_of_ne {A : Inodes} {i j : Nat} (h : j ≠ i) :
    (A.drop i).view j = A.view j ∧ (A.drop i).ref j = A.ref j ∧
      (A.drop i).loaded j = A.loaded j := by
  unfold drop
  split_ifs <;> simp [h]

theorem Untouched.trans {A B C : Inodes} (h : Untouched A B) (h' : Untouched B C) : Untouched A C :=
  ⟨h'.view.trans h.view, h'.ref.trans h.ref, fun i hi => h'.loaded i (h.loaded i hi),
    h'.inuse.trans h.inuse⟩

theorem Untouched.visit {A : Inodes} (hA : A.ref i = 0 → A.loaded i = false) (hn : A.view i = some n)
    (hnl : n.nlink ≠ 0) : Untouched A (((A.get i).load i).drop i) := by
  have hr : ((A.get i).load i).ref i = A.ref i + 1 := by simp [Inodes.get]
  have ho : ((A.get i).load i).orphaned i = false := by
    simp [Inodes.orphaned, hn, hnl]
  unfold Inodes.drop
  by_cases h0 : A.ref i = 0
  · rw [if_pos (by rw [hr, h0]), ho]
    refine ⟨rfl, ?_, fun j hj => ?_, ?_⟩
    · simp only [Inodes.load_ref, Inodes.get]
      rw [update_idem, ← h0, update_eq_self]
    · have hji : j ≠ i := fun he => by rw [he, hA h0] at hj; simp at hj
      simpa [Inodes.load, Inodes.get, hji] using hj
    · simp [Inodes.get, h0]
  · rw [if_neg (by rw [hr]; omega)]
    refine ⟨rfl, ?_, fun j hj => ?_, ?_⟩
    · simp [Inodes.get, Inodes.load]
    · by_cases hji : j = i
      · subst hji
        simp
      · simpa [Inodes.load, Inodes.get, hji] using hj
    · simp [Inodes.get, h0]

/-- The entry for `ip` in `dp` is gone, which leaves `n` of the directory and
`m` of the inode. -/
def Inodes.unlink (A : Inodes) (dp ip : Nat) (n m : Node) : Inodes :=
  (((((A.load dp).get ip).load ip).put dp (some n)).drop dp).put ip (some m)

theorem iunlockput_spec (h : Good start s) (hl : s.inodes.loaded i = true)
    (htx : s.inodes.orphaned i = true → (s.itable i).ref = 1 → 1 ≤ s.outstanding) :
    Ends (iunlockput i) s (fun _ t => Becomes start s t (s.inodes.drop i)) E :=
  Ends.bind_ok (iunlock_run (ref_of_loaded hl)) (iput_spec h (ref_of_loaded hl) htx)

theorem countDir_spec (h : Good start s) (hl : s.inodes.loaded dp = true)
    (htx : 1 ≤ s.outstanding) (hn : s.view dp = some n) (type : Int) (f : Int → Int) :
    Ends (countDir dp type f) s (fun _ t => Becomes start s t (s.inodes.put dp
      (some { n with nlink := if type = tDir then f n.nlink else n.nlink }))) E := by
  unfold countDir
  split_ifs with hty
  · exact amend_nlink h hl htx hn f
  · refine Ends.pure ?_
    rw [put_self hn]
    exact Becomes.refl h

theorem clearEntry_spec {m : Node} (h : Good start s) (htx : 1 ≤ s.outstanding)
    (hE : ∀ e, Benign e → E e) (hne : ip ≠ dp) (hld : s.inodes.loaded dp = true)
    (hn : s.view dp = some n) (hli : s.inodes.loaded ip = true) (hm : s.view ip = some m)
    (k : Nat) (type : Int) :
    Ends (clearEntry dp ip (direntSize * k) type) s (fun r t => r = some ip ∧
      direntSize * k ≤ n.data.length ∧
      Becomes start s t (((s.inodes.put dp (some { n with
        nlink := if type = tDir then i16 (n.nlink - 1) else n.nlink
        data := splice n.data (direntSize * k) Dirent.free.encode })).drop dp).put ip
          (some { m with nlink := i16 (m.nlink - 1) }))) E := by
  refine (writeDirent_spec h hld htx hn k Dirent.length_encode_free).bind ?_
  rintro r t (⟨hr, -⟩ | ⟨rfl, hk, hb⟩)
  · rw [if_pos hr]
    exact Ends.throw (hE _ (by decide))
  · rw [if_neg (not_not.mpr rfl)]
    have hn1 : t.view dp = some { n with
        data := splice n.data (direntSize * k) Dirent.free.encode } := by
      rw [hb.view, put_view, if_pos rfl]
    have hld1 : t.inodes.loaded dp = true := by rw [hb.loaded, put_loaded, hld]
    refine (countDir_spec hb.good hld1 (hb.open htx) hn1 type (fun x => i16 (x - 1))).bind
      (fun _ u hu => ?_)
    rw [hb.inodes, put_put] at hu
    have hu := hb.trans hu
    refine (iunlockput_spec hu.good (by rw [hu.loaded, put_loaded, hld])
      (fun _ _ => hu.open htx)).bind (fun _ v hv => ?_)
    rw [hu.inodes] at hv
    obtain ⟨hdview, -, hdloaded⟩ := drop_of_ne (A := s.inodes.put dp (some { n with
      nlink := if type = tDir then i16 (n.nlink - 1) else n.nlink
      data := splice n.data (direntSize * k) Dirent.free.encode })) hne
    have hmv : v.view ip = some m := by
      rw [hv.view, hdview, put_view, if_neg hne]
      exact hm
    have hlv : v.inodes.loaded ip = true := by
      rw [hv.loaded, hdloaded, put_loaded, hli]
    refine (amend_nlink hv.good hlv (hv.open (hu.open htx)) hmv (fun x => i16 (x - 1))).bind
      (fun _ w hw => ?_)
    rw [hv.inodes] at hw
    have hlw : w.inodes.loaded ip = true := by
      rw [hw.loaded, put_loaded, ← hv.loaded, hlv]
    exact Ends.bind_ok (iunlock_run (ref_of_loaded hlw))
      (Ends.pure ⟨rfl, hk, (hu.trans hv).trans hw⟩)

theorem unlinkAt_spec (h : Good start s) (htx : 1 ≤ s.outstanding) (name : Buffer)
    (hE : ∀ e, Benign e → E e)
    (hnl : E "unlink: nlink < 1" ∨ ∀ n, s.view dp = some n → n.type = tDir → n.Formatted ∧
      ∀ m ip off, lookup (dirents n.data) name = some (ip, off) → namecmp name dot ≠ 0 →
        namecmp name dotdot ≠ 0 → s.view ip = some m → 1 ≤ m.nlink) :
    Ends (unlinkAt dp name) s (fun r t =>
      (r = none ∧ ∃ B, Untouched s.inodes B ∧ Becomes start s t B) ∨
      ∃ n ip m k, s.view dp = some n ∧ n.type = tDir ∧ r = some ip ∧ ip ≠ dp ∧
        s.view ip = some m ∧ 1 ≤ m.nlink ∧ namecmp name dot ≠ 0 ∧ namecmp name dotdot ≠ 0 ∧
        (n.Formatted → lookup (dirents n.data) name = some (ip, direntSize * k)) ∧
        (m.type = tDir → m.Formatted → ∀ de ∈ (dirents m.data).drop 2, de.inum = 0) ∧
        direntSize * k ≤ n.data.length ∧
        Becomes start s t (s.inodes.unlink dp ip { n with
            nlink := if m.type = tDir then i16 (n.nlink - 1) else n.nlink
            data := splice n.data (direntSize * k) Dirent.free.encode }
          { m with nlink := i16 (m.nlink - 1) })) E := by
  refine (ilock_spec h (fun _ => hE _ (by decide)) (fun _ => hE _ (by decide))).bind ?_
  rintro _ t ⟨n, hn', hn, hb, hl⟩
  split_ifs with hdots
  · refine Ends.bind_ok (iunlock_run (ref_of_loaded hl)) ?_
    exact Ends.pure (.inl ⟨rfl, _, Untouched.load _ dp, hb⟩)
  obtain ⟨hd1, hd2⟩ := not_or.mp hdots
  refine (dirlookup_spec hb.good hl hn name (fun _ => hE _ (by decide)) (fun _ => hE _ (by decide))
    (fun _ => hE _ (by decide))).bind ?_
  rintro r u ⟨hdir, hr, hlook⟩
  rcases hr with ⟨rfl, rfl⟩ | ⟨ip, k, rfl, hg⟩
  · dsimp only
    refine Ends.bind_ok (iunlock_run (ref_of_loaded hl)) ?_
    exact Ends.pure (.inl ⟨rfl, _, Untouched.load _ dp, hb⟩)
  dsimp only
  split_ifs with hne
  · exact Ends.throw (hE _ (by decide))
  rw [hb.inodes] at hg
  refine (ilock_spec hg.good (fun _ => hE _ (by decide)) (fun _ => hE _ (by decide))).bind ?_
  rintro _ v ⟨m, hm', hm, hbv, hlv⟩
  rw [hg.inodes] at hbv
  have hms : s.view ip = some m := by
    rw [hg.view] at hm'
    exact hm'
  have hnv : v.view dp = some n := by
    rw [hbv.view]
    exact hn'
  have hldv : v.inodes.loaded dp = true := by
    rw [hbv.loaded]
    exact (Untouched.load _ ip).loaded dp (load_loaded _ dp)
  have htxv : 1 ≤ v.outstanding := hbv.open (hg.open (hb.open htx))
  refine Ends.bind_ok inode_run ?_
  obtain ⟨htype, -, hnlink⟩ := inode_view hlv hm
  rw [htype, hnlink]
  split_ifs with hlow
  · refine Ends.throw (hnl.resolve_right (fun hall => ?_))
    obtain ⟨hfmt, hall⟩ := hall n hn' hdir
    have h1 := hall m ip _ (hlook hfmt).symm hd1 hd2 hms
    omega
  have hempty : Ends (mayUnlink ip m.type) v (fun r w => w = v ∧
      (r = true → m.type = tDir → m.Formatted → ∀ de ∈ (dirents m.data).drop 2, de.inum = 0)) E := by
    unfold mayUnlink
    split_ifs with hty
    · refine (isdirempty_spec hbv.good hlv hm (fun _ => hE _ (by decide))).post (fun r w hw => ?_)
      exact ⟨hw.1, fun hr _ hf => (hw.2 hf).mp hr⟩
    · exact Ends.pure ⟨rfl, fun _ h1 => absurd h1 hty⟩
  refine hempty.bind ?_
  rintro r w ⟨rfl, hempty⟩
  cases r with
  | false =>
    rw [if_neg (by simp)]
    refine (iunlockput_spec hbv.good hlv (fun _ _ => htxv)).bind (fun _ x hx => ?_)
    rw [hbv.inodes] at hx
    have hq : Untouched s.inodes x.inodes := by
      rw [hx.inodes]
      refine (Untouched.load s.inodes dp).trans (Untouched.visit (fun h0 => ?_) hms (by omega))
      have h1 := not_loaded (s := s) h0
      simp [Inodes.load, hne, h1]
    have hlx : x.inodes.loaded dp = true := by
      rw [hx.inodes, (drop_of_ne (Ne.symm hne)).2.2]
      exact (Untouched.load _ ip).loaded dp (load_loaded _ dp)
    refine Ends.bind_ok (iunlock_run (ref_of_loaded hlx)) ?_
    rw [← hx.inodes] at hx
    exact Ends.pure (.inl ⟨rfl, _, hq, ((hb.trans hg).trans hbv).trans hx⟩)
  | true =>
    rw [if_pos rfl]
    refine (clearEntry_spec hbv.good htxv hE hne hldv hnv hlv hm k m.type).post ?_
    rintro r x ⟨rfl, hk, hx⟩
    rw [hbv.inodes] at hx
    exact .inr ⟨n, ip, m, k, hn', hdir, rfl, hne, hms, by omega, hd1, hd2,
      fun hf => (hlook hf).symm, hempty rfl, hk, ((hb.trans hg).trans hbv).trans hx⟩

theorem Inodes.put_get (A : Inodes) (i j : Nat) (v : Option Node) :
    (A.put i v).get j = (A.get j).put i v := rfl

theorem Inodes.put_load (A : Inodes) (i j : Nat) (v : Option Node) :
    (A.put i v).load j = (A.load j).put i v := rfl

theorem dirents_nil : dirents [] = [] := rfl

def ownEntries (dp ip : Nat) : List Dirent := enter [Dirent.new dot ip] (Dirent.new dotdot dp)

theorem mem_enter {es : List Dirent} {de d : Dirent} (h : d ∈ enter es de) : d ∈ es ∨ d = de := by
  unfold enter at h
  dsimp only at h
  split_ifs at h
  · rcases List.mem_or_eq_of_mem_set h with h | h
    · exact .inl h
    · exact .inr h
  · simpa using h

theorem linkDots_spec (h : Good start s) (htx : 1 ≤ s.outstanding) (hE : ∀ e, Benign e → E e)
    (hl : s.inodes.loaded ip = true) (hn : s.view ip = some n) (hdata : n.data = []) (dp : Nat)
    (type : Int) :
    Ends (linkDots dp ip type) s (fun r t => ∃ data, Node.Formatted { n with data := data } ∧
      Becomes start s t (s.inodes.put ip (some { n with data := data })) ∧
      (∀ de ∈ dirents data, de = Dirent.new dot ip ∨ de = Dirent.new dotdot dp) ∧
      (r = true → (type = tDir → dirents data = ownEntries dp ip) ∧
        (type ≠ tDir → data = []))) E := by
  have hfmt : Node.Formatted { n with data := [] } := rfl
  have hself : { n with data := [] } = n := by rw [← hdata]
  have hnone : Becomes start s s (s.inodes.put ip (some { n with data := [] })) := by
    rw [hself, put_self hn]
    exact Becomes.refl h
  unfold linkDots
  split_ifs with hty
  · refine (dirlink_spec h hl htx hn dot ip (fun _ => hE _ (by decide)) (fun _ => hE _ (by decide))
      (fun _ => hE _ (by decide)) (fun _ => hE _ (by decide))).bind ?_
    rintro r t ⟨-, ⟨rfl, hb⟩ | ⟨data, rfl, hb, hnew⟩⟩
    · rw [if_pos (by decide)]
      rw [hself, put_self hn] at hnone
      refine Ends.pure ⟨[], hfmt, ?_, by simp [dirents_nil], by simp⟩
      rw [hself, put_self hn]
      exact hb
    · rw [if_neg (by decide)]
      rw [hdata, dirents_nil] at hnew
      obtain ⟨-, hf1, hd1⟩ := hnew (hself ▸ hfmt)
      have hl1 : t.inodes.loaded ip = true := by rw [hb.loaded, put_loaded, hl]
      have hn1 : t.view ip = some { n with data := data } := by
        rw [hb.view, put_view, if_pos rfl]
      refine (dirlink_spec hb.good hl1 (hb.open htx) hn1 dotdot dp (fun _ => hE _ (by decide))
        (fun _ => hE _ (by decide)) (fun _ => hE _ (by decide)) (fun _ => hE _ (by decide))).bind
        (fun r u hu => ?_)
      simp only [hb.inodes, put_put] at hu
      obtain ⟨-, ⟨rfl, hu⟩ | ⟨data', rfl, hu, hnew'⟩⟩ := hu
      · refine Ends.pure ⟨data, hf1, hb.trans hu, fun de hde => ?_, by simp⟩
        rw [hd1] at hde
        have h1 : enter [] (Dirent.new dot ip) = [Dirent.new dot ip] := rfl
        rw [h1] at hde
        exact .inl (List.mem_singleton.mp hde)
      · obtain ⟨-, hf2, hd2⟩ := hnew' hf1
        rw [hd1] at hd2
        refine Ends.pure ⟨data', hf2, hb.trans hu, fun de hde => ?_,
          fun _ => ⟨fun _ => hd2, fun hc => absurd hty hc⟩⟩
        rw [hd2] at hde
        rcases mem_enter hde with hde | hde
        · exact .inl (List.mem_singleton.mp hde)
        · exact .inr hde
  · exact Ends.pure ⟨[], hfmt, hnone, by simp [dirents_nil],
      fun _ => ⟨fun hc => absurd hc hty, fun _ => rfl⟩⟩

theorem linkNew_spec {m : Node} (h : Good start s) (htx : 1 ≤ s.outstanding)
    (hE : ∀ e, Benign e → E e) (hne : ip ≠ dp) (hld : s.inodes.loaded dp = true)
    (hn : s.view dp = some n) (hli : s.inodes.loaded ip = true) (hm : s.view ip = some m)
    (hdata : m.data = []) (name : Buffer) (type : Int) :
    Ends (linkNew dp ip name type) s (fun r t => ∃ data, Node.Formatted { m with data := data } ∧
      ((r = false ∧ (∀ de ∈ dirents data, de = Dirent.new dot ip ∨ de = Dirent.new dotdot dp) ∧
        Becomes start s t (s.inodes.put ip (some { m with data := data }))) ∨
      (r = true ∧ (type = tDir → dirents data = ownEntries dp ip) ∧ (type ≠ tDir → data = []) ∧
        ∃ data', Becomes start s t ((s.inodes.put ip (some { m with data := data })).put dp
            (some { n with data := data' })) ∧
          (n.Formatted → lookup (dirents n.data) name = none ∧
            Node.Formatted { n with data := data' } ∧
            dirents data' = enter (dirents n.data) (Dirent.new name ip))))) E := by
  refine (linkDots_spec h htx hE hli hm hdata dp type).bind ?_
  rintro r u ⟨data, hfmt, hb, hown, hall⟩
  cases r with
  | false =>
    rw [if_neg (by simp)]
    exact Ends.pure ⟨data, hfmt, .inl ⟨rfl, hown, hb⟩⟩
  | true =>
    rw [if_pos rfl]
    obtain ⟨hdir, hfile⟩ := hall rfl
    have hlu : u.inodes.loaded dp = true := by rw [hb.loaded, put_loaded, hld]
    have hnu : u.view dp = some n := by
      rw [hb.view, put_view, if_neg (Ne.symm hne)]
      exact hn
    refine (dirlink_spec hb.good hlu (hb.open htx) hnu name ip (fun _ => hE _ (by decide))
      (fun _ => hE _ (by decide)) (fun _ => hE _ (by decide)) (fun _ => hE _ (by decide))).bind
      (fun r t ht => ?_)
    rw [hb.inodes] at ht
    obtain ⟨-, ⟨rfl, ht⟩ | ⟨data', rfl, ht, hnew⟩⟩ := ht
    · exact Ends.pure ⟨data, hfmt, .inl ⟨rfl, hown, hb.trans ht⟩⟩
    · exact Ends.pure ⟨data, hfmt, .inr ⟨rfl, hdir, hfile, data', hb.trans ht, hnew⟩⟩

def CreateDone (A : Inodes) (dp : Nat) (name : Buffer) (type major minor : Int) (n : Node)
    (r : Created) (B : Inodes) : Prop :=
  match r with
  | .found ip => B = (A.load dp).get ip ∧
      (n.Formatted → ∃ off, lookup (dirents n.data) name = some (ip, off))
  | .failed => B = A.load dp ∨ ∃ i m, A.view i = none ∧ m.type = type ∧ m.nlink = 0 ∧
      m.Formatted ∧ (∀ de ∈ dirents m.data, de = Dirent.new dot i ∨ de = Dirent.new dotdot dp) ∧
      B = ((((A.load dp).get i).load i).put i (some m)).drop i
  | .made i => A.view i = none ∧ ∃ data data',
      (type = tDir → dirents data = ownEntries dp i ∧ data.length % direntSize = 0) ∧
      (type ≠ tDir → data = []) ∧
      (n.Formatted → lookup (dirents n.data) name = none ∧ Node.Formatted { n with data := data' } ∧
        dirents data' = enter (dirents n.data) (Dirent.new name i)) ∧
      B = ((((A.load dp).get i).load i).put i (some ⟨type, major, minor, 1, data⟩)).put dp
        (some { n with
          nlink := if type = tDir then i16 (n.nlink + 1) else n.nlink
          data := data' })

theorem createNew_spec {type : Int} (h : Good start s) (htx : 1 ≤ s.outstanding) (name : Buffer)
    (major minor : Int) (hE : ∀ e, Benign e → E e) (hne : i ≠ dp)
    (hl : s.inodes.loaded dp = true) (hn : s.view dp = some n)
    (hi : s.view i = some (Node.fresh type)) :
    Ends (createNew dp i name type major minor) s (fun r t =>
      (r = .failed ∧ ∃ m : Node, m.type = type ∧ m.nlink = 0 ∧ m.Formatted ∧
        (∀ de ∈ dirents m.data, de = Dirent.new dot i ∨ de = Dirent.new dotdot dp) ∧
        Becomes start s t (((s.inodes.load i).put i (some m)).drop i)) ∨
      (r = .made i ∧ ∃ data data',
        (type = tDir → dirents data = ownEntries dp i ∧ data.length % direntSize = 0) ∧
        (type ≠ tDir → data = []) ∧
        (n.Formatted → lookup (dirents n.data) name = none ∧
          Node.Formatted { n with data := data' } ∧
          dirents data' = enter (dirents n.data) (Dirent.new name i)) ∧
        Becomes start s t (((s.inodes.load i).put i (some ⟨type, major, minor, 1, data⟩)).put dp
          (some { n with
            nlink := if type = tDir then i16 (n.nlink + 1) else n.nlink
            data := data' })))) E := by
  refine (ilock_spec h (fun _ => hE _ (by decide)) (fun _ => hE _ (by decide))).bind ?_
  rintro _ t ⟨m, hm', hm, hb, hli⟩
  obtain rfl : Node.fresh type = m := Option.some.inj (hi ▸ hm')
  refine (amend_header hb.good hli (hb.open htx) hm major minor 1).bind (fun _ u hu => ?_)
  rw [hb.inodes] at hu
  have hu := hb.trans hu
  have hliu : u.inodes.loaded i = true := by rw [hu.loaded, put_loaded, load_loaded]
  have hldu : u.inodes.loaded dp = true := by
    rw [hu.loaded, put_loaded]
    exact (Untouched.load _ i).loaded dp hl
  have hmu : u.view i = some ⟨type, major, minor, 1, []⟩ := by
    rw [hu.view, put_view, if_pos rfl]
    rfl
  have hnu : u.view dp = some n := by
    rw [hu.view, put_view, if_neg (Ne.symm hne)]
    exact hn
  refine (linkNew_spec hu.good (hu.open htx) hE hne hldu hnu hliu hmu rfl name type).bind
    (fun r v hv => ?_)
  simp only [hu.inodes, put_put] at hv
  obtain ⟨data, hfmt, ⟨rfl, hown, hv⟩ | ⟨rfl, hdir, hfile, data', hv, hnew⟩⟩ := hv
  · rw [if_neg (by simp)]
    have hv := hu.trans hv
    have hliv : v.inodes.loaded i = true := by
      rw [hv.loaded, put_loaded, load_loaded]
    have hmv : v.view i = some ⟨type, major, minor, 1, data⟩ := by
      rw [hv.view, put_view, if_pos rfl]
    refine (amend_nlink hv.good hliv (hv.open htx) hmv (fun _ => 0)).bind (fun _ w hw => ?_)
    rw [hv.inodes, put_put] at hw
    have hw := hv.trans hw
    have hliw : w.inodes.loaded i = true := by
      rw [hw.loaded, put_loaded, load_loaded]
    refine (iunlockput_spec hw.good hliw (fun _ _ => hw.open htx)).bind (fun _ x hx => ?_)
    rw [hw.inodes] at hx
    have hlx : x.inodes.loaded dp = true := by
      rw [hx.loaded, (drop_of_ne (Ne.symm hne)).2.2, put_loaded]
      exact (Untouched.load _ i).loaded dp hl
    refine Ends.bind_ok (iunlock_run (ref_of_loaded hlx)) ?_
    exact Ends.pure (.inl ⟨rfl, ⟨type, major, minor, 0, data⟩, rfl, rfl, hfmt, hown, hw.trans hx⟩)
  · rw [if_pos rfl]
    have hv := hu.trans hv
    have hldv : v.inodes.loaded dp = true := by
      rw [hv.loaded]
      exact (Untouched.load _ i).loaded dp hl
    have hnv : v.view dp = some { n with data := data' } := by
      rw [hv.view, put_view, if_pos rfl]
    refine (countDir_spec hv.good hldv (hv.open htx) hnv type (fun x => i16 (x + 1))).bind
      (fun _ w hw => ?_)
    rw [hv.inodes, put_put] at hw
    have hw := hv.trans hw
    have hlw : w.inodes.loaded dp = true := by
      rw [hw.loaded]
      exact (Untouched.load _ i).loaded dp hl
    refine Ends.bind_ok (iunlock_run (ref_of_loaded hlw)) ?_
    exact Ends.pure (.inr ⟨rfl, data, data', fun h1 => ⟨hdir h1, hfmt⟩, hfile, hnew, hw⟩)

theorem createAt_spec (h : Good start s) (htx : 1 ≤ s.outstanding) (name : Buffer) {type : Int}
    (major minor : Int) (ht0 : type ≠ 0) (hE : ∀ e, Benign e → E e) :
    Ends (createAt dp name type major minor) s (fun r t => ∃ n, s.view dp = some n ∧
      n.type = tDir ∧ ∃ B, CreateDone s.inodes dp name type major minor n r B ∧
        Becomes start s t B) E := by
  refine (ilock_spec h (fun _ => hE _ (by decide)) (fun _ => hE _ (by decide))).bind ?_
  rintro _ t ⟨n, hn', hn, hb, hl⟩
  refine (dirlookup_spec hb.good hl hn name (fun _ => hE _ (by decide)) (fun _ => hE _ (by decide))
    (fun _ => hE _ (by decide))).bind ?_
  rintro r u ⟨hdir, hr, hlook⟩
  rcases hr with ⟨rfl, rfl⟩ | ⟨ip, k, rfl, hg⟩
  · dsimp only
    refine (ialloc_spec hb.good ht0 (hb.open htx) (fun _ => hE _ (by decide))).bind ?_
    rintro r v (⟨rfl, rfl⟩ | ⟨i, rfl, hfree, hrange, hv⟩)
    · dsimp only
      refine Ends.bind_ok (iunlock_run (ref_of_loaded hl)) ?_
      exact Ends.pure ⟨n, hn', hdir, _, .inl rfl, hb⟩
    dsimp only
    rw [hb.inodes, put_get] at hv
    have hv := hb.trans hv
    have hfree' : s.view i = none := by
      rw [hb.view] at hfree
      exact hfree
    have hne : i ≠ dp := fun he => by rw [he, hn'] at hfree'; simp at hfree'
    have hlv : v.inodes.loaded dp = true := by
      rw [hv.loaded, put_loaded, get_loaded, load_loaded]
    have hnv : v.view dp = some n := by
      rw [hv.view, put_view, if_neg (Ne.symm hne)]
      exact hn'
    have hiv : v.view i = some (Node.fresh type) := by rw [hv.view, put_view, if_pos rfl]
    refine (createNew_spec hv.good (hv.open htx) name major minor hE hne hlv hnv hiv).post
      (fun r w hw => ⟨n, hn', hdir, ?_⟩)
    simp only [hv.inodes, put_load, put_put] at hw
    rcases hw with ⟨rfl, m, hmt, hm0, hmf, hmd, hw⟩ | ⟨rfl, data, data', hd1, hd2, hd3, hw⟩
    · exact ⟨_, .inr ⟨i, m, hfree', hmt, hm0, hmf, hmd, rfl⟩, hv.trans hw⟩
    · exact ⟨_, ⟨hfree', data, data', hd1, hd2, hd3, rfl⟩, hv.trans hw⟩
  · dsimp only
    rw [hb.inodes] at hg
    have hl' : u.inodes.loaded dp = true := by
      rw [hg.loaded, get_loaded]
      simp
    refine Ends.bind_ok (iunlock_run (ref_of_loaded hl')) ?_
    exact Ends.pure ⟨n, hn', hdir, _, ⟨rfl, fun hf => ⟨_, (hlook hf).symm⟩⟩, hb.trans hg⟩

end Basic

end Xv6
