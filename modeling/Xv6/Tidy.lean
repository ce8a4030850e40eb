import Xv6.Runs

/-! What is in order in every run, also when link counts are not: directories
are formatted, inodes without names are in use, and current directories and open
files are of the right type. -/

namespace Xv6

open Interleave Fallible FsM Records Function Option Inodes Held

namespace Inodes

structure ProperAt (A : Inodes) (i : Nat) (n : Node) : Prop where
  formatted : n.type = tDir → n.Formatted
  short : i16 n.nlink = n.nlink
  inuse : n.nlink = 0 → 1 ≤ A.ref i ∧ A.loaded i = true

def Proper (A : Inodes) : Prop := ∀ i n, A.view i = some n → A.ProperAt i n

def Stable (A B : Inodes) : Prop := ∀ i n, A.view i = some n →
  (∃ m, B.view i = some m ∧ m.type = n.type) ∨ (B.view i = none ∧ B.ref i = 0)

structure Grows (A B : Inodes) : Prop where
  view : B.view = A.view
  ref : ∀ i, A.ref i ≤ B.ref i
  loaded : ∀ i, A.loaded i = true → B.loaded i = true

variable {A B : Inodes} {i j : Nat} {n m : Node}

theorem Grows.refl (A : Inodes) : A.Grows A := ⟨rfl, fun _ => le_rfl, fun _ => id⟩

theorem Grows.trans {C : Inodes} (h : A.Grows B) (h' : B.Grows C) : A.Grows C :=
  ⟨h'.view.trans h.view, fun i => (h.ref i).trans (h'.ref i),
    fun i hi => h'.loaded i (h.loaded i hi)⟩

theorem Grows.untouched (h : Untouched A B) : A.Grows B :=
  ⟨h.view, fun i => by rw [h.ref], h.loaded⟩

theorem Grows.load (A : Inodes) (i : Nat) : A.Grows (A.load i) := .untouched (Untouched.load A i)

theorem Grows.get (A : Inodes) (i : Nat) : A.Grows (A.get i) :=
  ⟨rfl, fun j => by rw [get_ref_add]; omega, fun _ => id⟩

theorem Proper.grows (h : A.Proper) (hg : A.Grows B) : B.Proper := by
  intro i n hn
  rw [hg.view] at hn
  have hp := h i n hn
  exact ⟨hp.formatted, hp.short, fun h0 =>
    ⟨(hp.inuse h0).1.trans (hg.ref i), hg.loaded i (hp.inuse h0).2⟩⟩

theorem Proper.load (h : A.Proper) (i : Nat) : (A.load i).Proper := h.grows (.load A i)

theorem Proper.get (h : A.Proper) (i : Nat) : (A.get i).Proper := h.grows (.get A i)

theorem Proper.put (h : A.Proper) (hn : A.ProperAt i n) : (A.put i (some n)).Proper := by
  intro j m hm
  rw [put_view] at hm
  split_ifs at hm with hj
  · obtain rfl := some.inj hm
    subst hj
    exact ⟨hn.formatted, hn.short, hn.inuse⟩
  · have hp := h j m hm
    exact ⟨hp.formatted, hp.short, hp.inuse⟩

theorem Proper.drop (h : A.Proper) (i : Nat) : (A.drop i).Proper := by
  intro j n hn
  rw [drop_view] at hn
  split_ifs at hn with hfree
  have hp := h j n hn
  refine ⟨hp.formatted, hp.short, fun h0 => ?_⟩
  obtain ⟨hr, hl⟩ := hp.inuse h0
  rw [drop_ref, drop_loaded]
  by_cases hj : j = i
  · subst hj
    have ho : A.orphaned j = true := (orphaned_iff A j).mpr ⟨hl, n, hn, h0⟩
    have h1 : A.ref j ≠ 1 := fun h1 => hfree ⟨rfl, h1, ho⟩
    simp only [h1, and_false, if_true, if_false]
    exact ⟨by omega, hl⟩
  · simp only [hj, false_and, if_false]
    exact ⟨hr, hl⟩

theorem Stable.of_view (hv : B.view = A.view) : A.Stable B :=
  fun i n hn => .inl ⟨n, by rw [hv]; exact hn, rfl⟩

theorem Stable.drop (A : Inodes) (i : Nat) : A.Stable (A.drop i) := by
  intro j n hn
  rw [drop_view, drop_ref]
  by_cases hfree : j = i ∧ A.ref i = 1 ∧ A.orphaned i = true
  · rw [if_pos hfree, if_pos hfree.1, hfree.2.1]
    exact .inr ⟨rfl, rfl⟩
  · rw [if_neg hfree]
    exact .inl ⟨n, hn, rfl⟩

theorem Stable.put (h : A.Stable B) (hn : ∀ m, B.view i = some m → m.type = n.type)
    (hfree : B.view i = none → A.view i = none) : A.Stable (B.put i (some n)) := by
  intro j x hx
  rw [put_view, put_ref]
  split_ifs with hj
  · subst hj
    refine .inl ⟨n, rfl, ?_⟩
    rcases h j x hx with ⟨m, hm, ht⟩ | ⟨hno, -⟩
    · rw [← hn m hm, ht]
    · rw [hfree hno] at hx
      simp at hx
  · exact h j x hx

theorem ProperAt.data (h : A.ProperAt i n) {data : List Byte}
    (hfmt : n.type = tDir → Node.Formatted { n with data := data }) :
    A.ProperAt i { n with data := data } := ⟨hfmt, h.short, h.inuse⟩

theorem ProperAt.load (h : A.ProperAt i n) (j : Nat) : (A.load j).ProperAt i n :=
  ⟨h.formatted, h.short, fun h0 => ⟨(h.inuse h0).1, (Untouched.load A j).loaded i (h.inuse h0).2⟩⟩

end Inodes

theorem i16_i16 (x : Int) : i16 (i16 x) = i16 x := Int.bmod_bmod

structure Tidy (X : Abs) (held : ProcId → Held) : Prop where
  proper : X.inodes.Proper
  cwd : ∀ q i, X.cwd q = some i → ∃ n, X.inodes.view i = some n ∧ n.type = tDir
  holds : ∀ f i w, X.holds f = some (i, w) →
    ∃ n, X.inodes.view i = some n ∧ (w = true → n.type ≠ tDir)
  known : ∀ q i t, (held q).known = some (i, t) →
    i ∈ (held q).refs ∧ ∃ n, X.inodes.view i = some n ∧ n.type = t

section Steps

variable {X Y : Abs} {held : ProcId → Held} {p : ProcId} {a : Act} {r : a.Res}

theorem Inodes.Proper.recount {B : Inodes} {i : Nat} {n : Node} (hB : B.Proper)
    (hr : 1 ≤ B.ref i) (hl : B.loaded i = true) (x : Int) (data : List Byte)
    (hfmt : n.type = tDir → Node.Formatted { n with data := data }) :
    (B.put i (some { n with nlink := i16 x, data := data })).Proper :=
  hB.put ⟨hfmt, i16_i16 x, fun _ => ⟨hr, hl⟩⟩

theorem CreateDone.proper {A B : Inodes} {dp : Nat} {name : CString.Buffer}
    {type major minor : Int} {n : Node} {r : Created} (hA : A.Proper) (hdp : 1 ≤ A.ref dp)
    (hn : A.view dp = some n) (hdir : n.type = tDir)
    (hc : CreateDone A dp name type major minor n r B) : B.Proper := by
  have hnp := hA dp n hn
  cases r with
  | found i =>
    obtain ⟨rfl, -⟩ := hc
    exact (hA.load dp).get i
  | failed =>
    rcases hc with rfl | ⟨i, m, -, -, h0, hfmt, -, rfl⟩
    · exact hA.load dp
    · refine (Inodes.Proper.put (((hA.load dp).get i).load i) ⟨fun _ => hfmt, ?_, fun _ => ?_⟩).drop i
      · rw [h0]
        rfl
      · rw [load_ref, get_ref_add]
        simp
  | made i =>
    obtain ⟨-, data, data', hown, hnil, henter, rfl⟩ := hc
    have hnew : (((A.load dp).get i).load i).ProperAt i ⟨type, major, minor, 1, data⟩ :=
      ⟨fun ht => (hown ht).2, rfl, fun h0 => absurd h0 one_ne_zero⟩
    have hB := (((hA.load dp).get i).load i).put hnew
    have hfmt := (henter (hnp.formatted hdir)).2.1
    have hl : (((A.load dp).get i).load i).loaded dp = true :=
      (Untouched.load ((A.load dp).get i) i).loaded dp (by simp)
    have hr : 1 ≤ (((A.load dp).get i).load i).ref dp := by
      rw [load_ref, get_ref_add, load_ref]
      omega
    split_ifs with ht
    · exact hB.recount hr hl _ data' (fun _ => hfmt)
    · exact hB.put ⟨fun _ => hfmt, hnp.short, fun _ => ⟨hr, hl⟩⟩

theorem Inodes.Proper.unlink {A : Inodes} {dp ip : Nat} {n m : Node} {x y : Int} {data : List Byte}
    (hA : A.Proper) (hdp : 1 ≤ A.ref dp) (hne : ip ≠ dp) (hn : A.view dp = some n)
    (hm : A.view ip = some m) (hfmt : Node.Formatted { n with data := data }) (c : Prop) [Decidable c] :
    (A.unlink dp ip { n with nlink := if c then i16 x else n.nlink, data := data }
      { m with nlink := i16 y }).Proper := by
  have hnp := hA dp n hn
  have hmp := hA ip m hm
  have hB := ((hA.load dp).get ip).load ip
  have hl : (((A.load dp).get ip).load ip).loaded dp = true :=
    (Untouched.load ((A.load dp).get ip) ip).loaded dp (by simp)
  have hr : 1 ≤ (((A.load dp).get ip).load ip).ref dp := by
    rw [load_ref, get_ref_add, load_ref]
    omega
  have hC : ((((A.load dp).get ip).load ip).put dp (some { n with
      nlink := if c then i16 x else n.nlink, data := data })).Proper := by
    refine hB.put ⟨fun _ => hfmt, ?_, fun _ => ⟨hr, hl⟩⟩
    dsimp only
    split_ifs
    · exact i16_i16 x
    · exact hnp.short
  refine (hC.drop dp).recount ?_ ?_ y m.data hmp.formatted
  · rw [drop_ref, if_neg hne, put_ref, load_ref, get_ref_add]
    simp
  · rw [drop_loaded, if_neg (fun h => hne h.1)]
    simp [put_loaded]

def Act.Edits : Act → Prop
  | .iput _ | .createAt _ _ _ _ _ | .openAt _ _ | .unlinkAt _ _ | .linkCount _
  | .linkEnter _ _ _ | .linkUncount _ | .writeAt _ _ _ => True
  | _ => False

theorem Does.grows (hd : Does p a r X Y) (ha : ¬ a.Edits) : X.inodes.Grows Y.inodes := by
  cases a with
  | iget i => subst hd; exact .get _ i
  | idupCwd => obtain ⟨-, rfl⟩ := hd; exact .get _ r
  | search ip name =>
    obtain ⟨n, -, -, -, rfl⟩ := hd
    cases r with
    | none => exact .load _ ip
    | some i => exact (Inodes.Grows.load _ ip).trans (.get _ i)
  | typeOf ip => obtain ⟨n, -, -, rfl⟩ := hd; exact .load _ ip
  | readAt fd dst k => obtain ⟨f, ip, w, m, -, -, rfl⟩ := hd; exact .load _ ip
  | load ip mem => obtain ⟨n, -, rfl⟩ := hd; exact .load _ ip
  | orphan i =>
    cases r with
    | false => subst hd; exact .refl _
    | true => obtain ⟨-, rfl⟩ := hd; exact .get _ i
  | swapCwd next => obtain ⟨-, rfl⟩ := hd; exact .refl _
  | closeFile f =>
    cases r with
    | none => subst hd; exact .refl _
    | some i => obtain ⟨w, -, rfl⟩ := hd; exact .refl _
  | forkFiles child =>
    cases r with
    | false => subst hd; exact .refl _
    | true => obtain ⟨i, -, -, -, rfl⟩ := hd; exact .get _ i
  | panic msg => exact hd.elim
  | beginOp | endOp | dup | takeFd | fdalloc | pipealloc | fileOf | ninodes =>
    subst hd
    exact .refl _
  | _ => exact absurd trivial ha

theorem Inodes.Stable.unlink {A : Inodes} {dp ip : Nat} {n m n' m' : Node} (hne : ip ≠ dp)
    (hn : A.view dp = some n) (hm : A.view ip = some m) (hn' : n'.type = n.type)
    (hm' : m'.type = m.type) : A.Stable (A.unlink dp ip n' m') := by
  have hput : A.Stable ((((A.load dp).get ip).load ip).put dp (some n')) := by
    refine Inodes.Stable.put (.of_view rfl) (fun x hx => ?_) (fun h0 => h0)
    obtain rfl := some.inj (hn.symm.trans hx)
    exact hn'.symm
  intro j x hx
  rw [Inodes.unlink, Inodes.put_view, Inodes.put_ref]
  by_cases hj : j = ip
  · subst hj
    obtain rfl := some.inj (hm.symm.trans hx)
    exact .inl ⟨m', if_pos rfl, hm'⟩
  · rw [if_neg hj]
    obtain ⟨y, hy, ht⟩ : ∃ y, ((((A.load dp).get ip).load ip).put dp (some n')).view j = some y ∧
        y.type = x.type := by
      rcases hput j x hx with h | ⟨hno, -⟩
      · exact h
      · rw [put_view] at hno
        split_ifs at hno
        rw [show (((A.load dp).get ip).load ip).view j = some x from hx] at hno
        simp at hno
    rw [← ht]
    exact Inodes.Stable.drop _ dp j y hy

def Learns : (a : Act) → a.Res → Nat → Int → Prop
  | .typeOf ip, t, i, t' => ip = i ∧ t = t'
  | .createAt _ _ type _ _, .made j, i, t => j = i ∧ type = t
  | _, _, _, _ => False

theorem Held.give_known {h : Held} {j : Nat} {k : Nat × Int} (hk : (h.give j).known = some k) :
    h.known = some k ∧ k.1 ∈ (h.give j).refs := by
  have hf : h.known.filter (fun k => k.1 ∈ h.refs.erase j) = some k := hk
  obtain ⟨hk, hmem⟩ := filter_eq_some_iff.mp hf
  exact ⟨hk, by simpa [give] using hmem⟩

theorem Learns.view {i : Nat} {t : Int} (hl : Learns a r i t) (hd : Does p a r X Y) :
    ∃ n, Y.inodes.view i = some n ∧ n.type = t := by
  cases a with
  | typeOf ip =>
    obtain ⟨rfl, rfl⟩ := hl
    obtain ⟨n, hn, rfl, rfl⟩ := hd
    exact ⟨n, hn, rfl⟩
  | createAt dp name type major minor =>
    cases r with
    | found j => exact hl.elim
    | failed => exact hl.elim
    | made j =>
      obtain ⟨rfl, rfl⟩ := hl
      obtain ⟨n, hn, -, B, ⟨hfree, data, data', -, -, -, rfl⟩, rfl⟩ := hd
      have hne : j ≠ dp := fun he => by rw [← he, hfree] at hn; simp at hn
      refine ⟨⟨type, major, minor, 1, data⟩, ?_, rfl⟩
      simp only [Abs.withInodes, put_view, hne, if_true, if_false]
  | _ => exact hl.elim

end Steps

end Xv6
