import Xv6.Image
import Xv6.SectionSpecs

/-! A directory is a finite map from names to inode numbers. Two buffers are the
same name if they agree on the string in their first `DIRSIZ` bytes. -/

namespace Xv6

open Fallible FsM Records CString Function List Option

def nameKey (name : Buffer) : Buffer := text dirsiz name

theorem namecmp_eq_zero {s t : Buffer} : namecmp s t = 0 ↔ nameKey s = nameKey t :=
  strncmp_eq_zero dirsiz s t

def Distinct (es : List Dirent) : Prop :=
  ∀ (j k : Nat) (d e : Dirent), es[j]? = some d → es[k]? = some e → d.inum ≠ 0 → e.inum ≠ 0 →
    nameKey d.name = nameKey e.name → j = k

def nameMap (es : List Dirent) (key : Buffer) : Option Nat :=
  (es.find? (fun de => de.inum ≠ 0 ∧ nameKey de.name = key)).map Dirent.inum

section Entries

variable {es : List Dirent} {name key : Buffer} {de : Dirent} {i k : Nat}

theorem lookup_eq_some : lookup es name = some (i, k) →
    ∃ (j : Nat) (de : Dirent), es[j]? = some de ∧ de.inum ≠ 0 ∧
    nameKey de.name = nameKey name ∧ i = de.inum ∧ k = direntSize * j := by
  unfold lookup
  dsimp only
  intro h
  obtain ⟨de, hde, heq⟩ := map_eq_some_iff.mp h
  obtain ⟨rfl, rfl⟩ := Prod.mk.inj heq
  obtain ⟨hlt, hget⟩ := List.getElem?_eq_some_iff.mp hde
  have hp := findIdx_getElem (w := hlt)
  rw [hget] at hp
  simp only [decide_eq_true_eq] at hp
  exact ⟨_, de, hde, hp.1, (namecmp_eq_zero.mp hp.2).symm, rfl, rfl⟩

theorem lookup_map_fst : (lookup es name).map Prod.fst = nameMap es (nameKey name) := by
  have htest : (fun de : Dirent => decide (de.inum ≠ 0 ∧ namecmp name de.name = 0)) =
      fun de => decide (de.inum ≠ 0 ∧ nameKey de.name = nameKey name) := by
    funext de
    refine decide_eq_decide.mpr (and_congr_right (fun _ => ?_))
    rw [namecmp_eq_zero, eq_comm]
  unfold lookup nameMap
  dsimp only
  rw [Option.map_map, ← find?_eq_getElem?_findIdx, htest]
  rfl

theorem nameMap_eq_some (h : Distinct es) : nameMap es key = some i ↔
    ∃ (j : Nat) (de : Dirent), es[j]? = some de ∧ de.inum ≠ 0 ∧ nameKey de.name = key ∧ de.inum = i := by
  unfold nameMap
  rw [map_eq_some_iff]
  constructor
  · rintro ⟨de, hde, rfl⟩
    have hp := find?_some hde
    simp only [decide_eq_true_eq] at hp
    obtain ⟨j, hj⟩ := mem_iff_getElem?.mp (mem_of_find?_eq_some hde)
    exact ⟨j, de, hj, hp.1, hp.2, rfl⟩
  · rintro ⟨j, de, hj, h0, hk, rfl⟩
    cases hf : es.find? (fun de => de.inum ≠ 0 ∧ nameKey de.name = key) with
    | none =>
      have hn := find?_eq_none.mp hf de (mem_of_getElem? hj)
      simp [h0, hk] at hn
    | some e =>
      have hp := find?_some hf
      simp only [decide_eq_true_eq] at hp
      obtain ⟨l, hl⟩ := mem_iff_getElem?.mp (mem_of_find?_eq_some hf)
      obtain rfl := h j l de e hj hl h0 hp.1 (hk.trans hp.2.symm)
      rw [hj] at hl
      exact ⟨e, rfl, by rw [some.inj hl]⟩

theorem nameMap_eq_none : nameMap es key = none ↔
    ∀ de ∈ es, de.inum ≠ 0 → nameKey de.name ≠ key := by
  unfold nameMap
  rw [map_eq_none_iff, find?_eq_none]
  refine forall_congr' (fun de => forall_congr' (fun _ => ?_))
  simp

theorem getElem?_enter (es : List Dirent) (de : Dirent) (j : Nat) : (enter es de)[j]? =
    if j = es.findIdx (fun de => de.inum = 0) then some de else es[j]? := by
  have hle : es.findIdx (fun de => decide (de.inum = 0)) ≤ es.length := findIdx_le_length
  unfold enter
  dsimp only
  split_ifs with hlt hj hj
  · rw [hj, getElem?_set_self hlt]
  · rw [getElem?_set_ne (Ne.symm hj)]
  · have hlen : es.length = j := by omega
    rw [getElem?_append_right (by omega), hlen]
    simp
  · rcases Nat.lt_or_ge j es.length with h | h
    · rw [getElem?_append_left h]
    · rw [getElem?_append_right h, getElem?_eq_none (by simp; omega), getElem?_eq_none h]

theorem free_of_findIdx {j : Nat} (hj : j = es.findIdx (fun de => de.inum = 0))
    (hde : es[j]? = some de) : de.inum = 0 := by
  obtain ⟨hlt, hget⟩ := List.getElem?_eq_some_iff.mp hde
  subst hj
  have hp := findIdx_getElem (w := hlt)
  rw [hget] at hp
  simpa using hp

theorem nameKey_new (name : Buffer) (inum : Nat) :
    nameKey (Dirent.new name inum).name = nameKey name := text_strncpy dirsiz name

theorem Distinct.enter (h : Distinct es) (habs : nameMap es (nameKey de.name) = none) :
    Distinct (enter es de) := by
  rw [nameMap_eq_none] at habs
  intro j l d e hj hl hd he hk
  rw [getElem?_enter] at hj hl
  by_cases h1 : j = es.findIdx (fun de => de.inum = 0)
  · by_cases h2 : l = es.findIdx (fun de => de.inum = 0)
    · rw [h1, h2]
    · rw [if_pos h1] at hj
      rw [if_neg h2] at hl
      obtain rfl := some.inj hj
      exact absurd hk.symm (habs e (mem_of_getElem? hl) he)
  · rw [if_neg h1] at hj
    by_cases h2 : l = es.findIdx (fun de => de.inum = 0)
    · rw [if_pos h2] at hl
      obtain rfl := some.inj hl
      exact absurd hk (habs d (mem_of_getElem? hj) hd)
    · rw [if_neg h2] at hl
      exact h j l d e hj hl hd he hk

theorem nameMap_enter (h : Distinct es) (h0 : de.inum ≠ 0)
    (habs : nameMap es (nameKey de.name) = none) :
    nameMap (enter es de) = update (nameMap es) (nameKey de.name) (some de.inum) := by
  have hd := h.enter habs
  funext key
  refine ext (fun i => ?_)
  rw [nameMap_eq_some hd]
  rw [update_apply]
  split_ifs with hk
  · subst hk
    rw [some_inj]
    have hself : (Xv6.enter es de)[es.findIdx (fun de => de.inum = 0)]? = some de := by
      rw [getElem?_enter, if_pos rfl]
    constructor
    · rintro ⟨j, e, hj, he0, hek, rfl⟩
      have hjl := hd _ _ _ _ hj hself he0 h0 hek
      rw [hjl, hself] at hj
      rw [some.inj hj]
    · rintro rfl
      exact ⟨_, de, hself, h0, rfl, rfl⟩
  · rw [nameMap_eq_some h]
    refine exists_congr (fun j => exists_congr (fun e => ?_))
    rw [getElem?_enter]
    by_cases hj : j = es.findIdx (fun de => de.inum = 0)
    · rw [if_pos hj]
      constructor
      · rintro ⟨he, he0, hek, -⟩
        obtain rfl := some.inj he
        exact absurd hek.symm hk
      · rintro ⟨he, he0, -⟩
        exact absurd (free_of_findIdx hj he) he0
    · rw [if_neg hj]

theorem Distinct.set_free (h : Distinct es) (k : Nat) : Distinct (es.set k Dirent.free) := by
  intro j l d e hj hl hd he hk
  rw [getElem?_set] at hj hl
  split_ifs at hj hl with h1 h2 h3 h4
  · exact absurd (by rw [← some.inj hj]; rfl) hd
  · exact absurd (by rw [← some.inj hj]; rfl) hd
  · exact absurd (by rw [← some.inj hl]; rfl) he
  · exact h j l d e hj hl hd he hk

theorem nameMap_set_free (h : Distinct es) (hk : es[k]? = some de) (h0 : de.inum ≠ 0) :
    nameMap (es.set k Dirent.free) = update (nameMap es) (nameKey de.name) none := by
  have hd := h.set_free k
  have hlt := (List.getElem?_eq_some_iff.mp hk).1
  funext key
  refine ext (fun i => ?_)
  rw [nameMap_eq_some hd]
  rw [update_apply]
  split_ifs with hkey
  · subst hkey
    constructor
    · rintro ⟨j, e, hj, he0, hek, -⟩
      rw [List.getElem?_set] at hj
      split_ifs at hj with h1
      · exact absurd (by rw [← some.inj hj]; rfl) he0
      · exact absurd (h j k e de hj hk he0 h0 hek).symm h1
    · simp
  · rw [nameMap_eq_some h]
    refine exists_congr (fun j => exists_congr (fun e => ?_))
    rw [List.getElem?_set]
    split_ifs with h1
    · subst h1
      constructor
      · rintro ⟨he, he0, -⟩
        exact absurd (by rw [← some.inj he]; rfl) he0
      · rintro ⟨he, he0, hek, -⟩
        rw [hk] at he
        exact absurd (by rw [← hek, some.inj he]) hkey
    · exact Iff.rfl

end Entries

def FsM.removeEntry (dp : Nat) (name : Buffer) : FsM Bool := do
  match ← dirlookup dp name with
  | none => pure false
  | some (_, off) =>
    let r ← writeDirent dp off Dirent.free
    if r ≠ direntSize then halt "unlink: writei" else pure true

inductive DirEvent where
  | link (name : Buffer) (inum : Nat) (r : Int)
  | remove (name : Buffer) (r : Bool)
  | look (name : Buffer) (r : Option (Nat × Nat))
  | other

/-- A process holds the lock of the directory in a transaction. -/
structure DirLocked (start dp : Nat) (s : Fs) : Prop where
  good : Good start s
  loaded : s.inodes.loaded dp = true
  tx : 1 ≤ s.outstanding

/-- The steps of any processes. What is not a call on the directory does not
change it. -/
inductive DirStep (start dp : Nat) : Fs → DirEvent → Fs → Prop where
  | link {s t name inum r} : dirlink dp name inum s = .ok (r, t) →
      DirStep start dp s (.link name inum r) t
  | remove {s t name r} : removeEntry dp name s = .ok (r, t) → DirStep start dp s (.remove name r) t
  | look {s t name r} : dirlookup dp name s = .ok (r, t) → DirStep start dp s (.look name r) t
  | other {s t} : DirLocked start dp t → t.view dp = s.view dp → DirStep start dp s .other t

inductive DirRun (start dp : Nat) : Fs → List DirEvent → Fs → Prop where
  | nil (s) : DirRun start dp s [] s
  | snoc {s t u es e} : DirRun start dp s es t → DirStep start dp t e u →
      DirRun start dp s (es ++ [e]) u

def DirEvent.apply (M : Buffer → Option Nat) : DirEvent → Buffer → Option Nat
  | .link name inum 0 => Function.update M (nameKey name) (some inum)
  | .remove name true => Function.update M (nameKey name) none
  | _ => M

def recent (M : Buffer → Option Nat) (es : List DirEvent) : Buffer → Option Nat :=
  es.foldl DirEvent.apply M

/-- Inode numbers fit into the `ushort` of an entry, and 0 marks a free one. -/
def DirEvent.Fits : DirEvent → Prop
  | .link _ inum _ => 0 < inum ∧ inum < 2 ^ 16
  | _ => True

structure IsMap (start dp : Nat) (M : Buffer → Option Nat) (s : Fs) (n : Node) : Prop where
  locked : DirLocked start dp s
  view : s.view dp = some n
  dir : n.type = tDir
  formatted : n.Formatted
  distinct : Distinct (dirents n.data)
  map : nameMap (dirents n.data) = M

section Runs

variable {start dp : Nat} {s t : Fs} {n : Node} {M : Buffer → Option Nat}

theorem DirLocked.of_becomes (h : DirLocked start dp s) {A : Inodes} (hb : Becomes start s t A)
    (hl : A.loaded dp = true) : DirLocked start dp t :=
  ⟨hb.good, by rw [hb.loaded, hl], hb.open h.tx⟩

theorem IsMap.look (h : IsMap start dp M s n) (name : Buffer) :
    Ends (dirlookup dp name) s (fun r t => IsMap start dp M t n ∧
      r = lookup (dirents n.data) name) (fun e => e = "iget: no inodes") := by
  refine (dirlookup_spec (E := fun e => e = "iget: no inodes") h.locked.good h.locked.loaded
    h.view name (fun hd => absurd h.dir hd) (fun hf => absurd h.formatted hf)
    (fun _ => rfl)).post ?_
  rintro r t ⟨-, hr, hlook⟩
  refine ⟨?_, hlook h.formatted⟩
  rcases hr with ⟨-, rfl⟩ | ⟨i, k, -, hb⟩
  · exact h
  · refine ⟨h.locked.of_becomes hb h.locked.loaded, ?_, h.dir, h.formatted, h.distinct, h.map⟩
    rw [hb.view]
    exact h.view

theorem IsMap.link (h : IsMap start dp M s n) (name : Buffer) {inum : Nat} (h0 : 0 < inum)
    (h16 : inum < 2 ^ 16) :
    Ends (dirlink dp name inum) s (fun r t => (r = -1 ∧ IsMap start dp M t n) ∨
      (r = 0 ∧ M (nameKey name) = none ∧ ∃ n',
        IsMap start dp (update M (nameKey name) (some inum)) t n' ∧
        dirents n'.data = enter (dirents n.data) (Dirent.new name inum)))
      (fun e => e = "iget: no inodes") := by
  refine (dirlink_spec (E := fun e => e = "iget: no inodes") h.locked.good h.locked.loaded
    h.locked.tx h.view name inum (fun hd => absurd h.dir hd) (fun hf => absurd h.formatted hf)
    (fun hf => absurd h.formatted hf) (fun _ => rfl)).post ?_
  rintro r t ⟨-, ⟨rfl, hb⟩ | ⟨data, rfl, hb, hnew⟩⟩
  · refine .inl ⟨rfl, h.locked.of_becomes hb h.locked.loaded, ?_, h.dir, h.formatted,
      h.distinct, h.map⟩
    rw [hb.view]
    exact h.view
  · obtain ⟨habs, hfmt, hent⟩ := hnew h.formatted
    have hnone : nameMap (dirents n.data) (nameKey (Dirent.new name inum).name) = none := by
      rw [nameKey_new, ← lookup_map_fst, habs]
      rfl
    have hinum : (Dirent.new name inum).inum = inum := Nat.mod_eq_of_lt h16
    have hmap := nameMap_enter h.distinct (by rw [hinum]; omega) hnone
    rw [nameKey_new] at hnone
    refine .inr ⟨rfl, by rw [← h.map]; exact hnone, { n with data := data },
      ⟨h.locked.of_becomes hb h.locked.loaded, by rw [hb.view, Inodes.put_view, if_pos rfl],
        h.dir, hfmt, ?_, ?_⟩, hent⟩
    · rw [hent]
      exact h.distinct.enter (by rw [nameKey_new]; exact hnone)
    · rw [hent, hmap, hinum, nameKey_new, h.map]

theorem IsMap.remove (h : IsMap start dp M s n) (name : Buffer) :
    Ends (removeEntry dp name) s (fun r t => ∃ n', IsMap start dp
      (if r then update M (nameKey name) none else M) t n')
      (fun e => e = "iget: no inodes" ∨ e = "unlink: writei") := by
  refine ((h.look name).mono (fun _ _ => id) (fun _ => .inl)).bind ?_
  rintro r t ⟨h', hr⟩
  cases r with
  | none => exact Ends.pure ⟨n, h'⟩
  | some p =>
    obtain ⟨i, off⟩ := p
    obtain ⟨k, de, hk, h0, hkey, -, rfl⟩ := lookup_eq_some hr.symm
    dsimp only
    refine (writeDirent_spec h'.locked.good h'.locked.loaded h'.locked.tx h'.view k
      Dirent.length_encode_free).bind ?_
    rintro w u (⟨hw, -⟩ | ⟨hw, hoff, hb⟩)
    · rw [if_pos hw]
      exact Ends.throw (.inr rfl)
    · rw [if_neg (not_not.mpr hw)]
      have hlt := (List.getElem?_eq_some_iff.mp hk).1
      have hent := dirents_splice h'.formatted hoff Dirent.length_encode_free Dirent.decode_free
      rw [if_pos hlt] at hent
      refine Ends.pure ⟨{ n with data := splice n.data (direntSize * k) Dirent.free.encode },
        h'.locked.of_becomes hb h'.locked.loaded, by rw [hb.view, Inodes.put_view, if_pos rfl],
        h'.dir, formatted_splice h'.formatted hoff Dirent.length_encode_free, ?_, ?_⟩
      · rw [hent]
        exact h'.distinct.set_free k
      · rw [hent, nameMap_set_free h'.distinct hk h0, hkey, h'.map]
        rfl

theorem IsMap.step (h : IsMap start dp M s n) {e : DirEvent} (hs : DirStep start dp s e t)
    (hfits : e.Fits) : ∃ n', IsMap start dp (e.apply M) t n' := by
  cases hs with
  | link hrun =>
    rcases (h.link _ hfits.1 hfits.2).ok hrun with ⟨rfl, h'⟩ | ⟨rfl, -, n', h', -⟩
    · exact ⟨n, h'⟩
    · exact ⟨n', h'⟩
  | @remove t name r hrun =>
    obtain ⟨n', h'⟩ := (h.remove name).ok hrun
    cases r with
    | false => exact ⟨n', h'⟩
    | true => exact ⟨n', h'⟩
  | look hrun => exact ⟨n, ((h.look _).ok hrun).1⟩
  | other hlock hview => exact ⟨n, hlock, hview.trans h.view, h.dir, h.formatted, h.distinct, h.map⟩

theorem IsMap.run (h : IsMap start dp M s n) {es : List DirEvent} (hr : DirRun start dp s es t)
    (hfits : ∀ e ∈ es, e.Fits) : ∃ n', IsMap start dp (recent M es) t n' := by
  induction hr with
  | nil => exact ⟨n, h⟩
  | @snoc t u es e _ hstep ih =>
    obtain ⟨n', h'⟩ := ih (fun e he => hfits e (mem_append_left _ he))
    unfold recent
    rw [foldl_append]
    exact h'.step hstep (hfits e (by simp))

def EntryAt (n : Node) (off : Nat) (name : Buffer) (inum : Nat) : Prop :=
  ∃ (j : Nat) (de : Dirent), off = direntSize * j ∧ (dirents n.data)[j]? = some de ∧
    de.inum = inum ∧ nameKey de.name = nameKey name

/-- In every state that the steps of any processes lead to, a directory with
distinct names has distinct names again. A lookup finds what was linked last, and
a link takes the first free place for an absent name or changes nothing. -/
theorem directory_is_map {es : List DirEvent} (hlock : DirLocked start dp s)
    (hn : s.view dp = some n) (hdir : n.type = tDir) (hfmt : n.Formatted)
    (hdist : Distinct (dirents n.data)) (hrun : DirRun start dp s es t)
    (hfits : ∀ e ∈ es, e.Fits) :
    ∃ m, t.view dp = some m ∧ Distinct (dirents m.data) ∧
      (∀ name, Ends (dirlookup dp name) t (fun r _ =>
        r.map Prod.fst = recent (nameMap (dirents n.data)) es (nameKey name) ∧
        ∀ i off, r = some (i, off) → EntryAt m off name i) (fun e => e = "iget: no inodes")) ∧
      (∀ name inum, 0 < inum → inum < 2 ^ 16 → Ends (dirlink dp name inum) t (fun r u =>
        (r = -1 ∧ u.view dp = some m) ∨
        (r = 0 ∧ recent (nameMap (dirents n.data)) es (nameKey name) = none ∧
          ∃ m', u.view dp = some m' ∧ ∀ j, (dirents m'.data)[j]? =
            if j = (dirents m.data).findIdx (fun de => de.inum = 0) then some (Dirent.new name inum)
            else (dirents m.data)[j]?)) (fun e => e = "iget: no inodes")) := by
  obtain ⟨m, hm⟩ := IsMap.run ⟨hlock, hn, hdir, hfmt, hdist, rfl⟩ hrun hfits
  refine ⟨m, hm.view, hm.distinct, fun name => ?_, fun name inum h0 h16 => ?_⟩
  · refine (hm.look name).post (fun r u hu => ⟨?_, fun i off hr => ?_⟩)
    · rw [hu.2, lookup_map_fst, hm.map]
    · obtain ⟨j, de, hj, -, hkey, rfl, rfl⟩ := lookup_eq_some (hu.2.symm.trans hr)
      exact ⟨j, de, rfl, hj, rfl, hkey⟩
  · refine (hm.link name h0 h16).post ?_
    rintro r u (⟨rfl, hu⟩ | ⟨rfl, hnone, m', hu, hent⟩)
    · exact .inl ⟨rfl, hu.view⟩
    · refine .inr ⟨rfl, hnone, m', hu.view, fun j => ?_⟩
      rw [hent, getElem?_enter]

end Runs

def stateAfter {α : Type} (m : FsM α) (s : Fs) : Fs :=
  match m s with
  | .ok (_, t) => t
  | .error _ => s

theorem run_eq {α : Type} {m : FsM α} {s : Fs} {a : α}
    (h : (m s).toOption.map Prod.fst = some a) : m s = .ok (a, stateAfter m s) := by
  unfold stateAfter
  cases hm : m s with
  | error e => simp [hm, Except.toOption] at h
  | ok r =>
    rw [hm] at h
    obtain rfl : r.1 = a := by simpa [Except.toOption] using h
    rfl

/-- The name `a` in a buffer with garbage behind the end of the string. -/
def nameA : Buffer := [97#8, 0#8, 7#8]

def rootEntries : List Dirent := [Dirent.new dot rootino, Dirent.new dotdot rootino]

def rootData : List Byte := rootEntries.flatMap Dirent.encode

theorem distinct_rootEntries : Distinct rootEntries := by
  intro j k d e hj hk _ _ hkey
  have hj' := (List.getElem?_eq_some_iff.mp hj).1
  have hk' := (List.getElem?_eq_some_iff.mp hk).1
  have hlen : rootEntries.length = 2 := rfl
  have hne : nameKey (Dirent.new dot rootino).name ≠ nameKey (Dirent.new dotdot rootino).name := by
    decide
  rw [hlen] at hj' hk'
  interval_cases j <;> interval_cases k <;>
    simp only [rootEntries, List.getElem?_cons_zero, List.getElem?_cons_succ,
      some.injEq] at hj hk <;> subst hj hk
  · rfl
  · exact absurd hkey hne
  · exact absurd hkey.symm hne
  · rfl

theorem directory_is_map_link :
    ∃ t m, DirRun 10 rootino (lockedImage rootData) [.link nameA 2 0] t ∧
      t.view rootino = some m ∧ Distinct (dirents m.data) ∧
      Ends (dirlookup rootino nameA) t (fun r _ => r.map Prod.fst = some 2)
        (fun e => e = "iget: no inodes") := by
  have hlen : rootData.length ≤ bsize := by decide
  have hes : dirents rootData = rootEntries := by decide
  have hstep : dirlink rootino nameA 2 (lockedImage rootData) =
      .ok (0, stateAfter (dirlink rootino nameA 2) (lockedImage rootData)) :=
    run_eq (by decide +kernel)
  have hnil : DirRun 10 rootino (lockedImage rootData) [] (lockedImage rootData) := DirRun.nil _
  have hrun := DirRun.snoc hnil (DirStep.link hstep)
  obtain ⟨m, hm, hd, hlook, -⟩ := directory_is_map
    ⟨lockedImage_good hlen, lockedImage_loaded rootData, le_rfl⟩ (lockedImage_view_root hlen) rfl
    (by decide) (by rw [hes]; exact distinct_rootEntries) hrun
    (fun e he => by rw [mem_singleton.mp he]; exact ⟨by decide, by decide⟩)
  refine ⟨_, m, hrun, hm, hd, (hlook nameA).post (fun r u hu => ?_)⟩
  rw [hu.1]
  decide

/-- A content with a name twice: the second entry is found when the first one is
unlinked. -/
def twiceData : List Byte :=
  (rootEntries ++ [Dirent.new nameA 2, Dirent.new nameA 3]).flatMap Dirent.encode

theorem directory_finds_unlinked : ∃ t u, DirLocked 10 rootino (lockedImage twiceData) ∧
      (lockedImage twiceData).view rootino = some ⟨tDir, 0, 0, 1, twiceData⟩ ∧
      Node.Formatted ⟨tDir, 0, 0, 1, twiceData⟩ ∧
      DirRun 10 rootino (lockedImage twiceData) [.remove nameA true] t ∧
      dirlookup rootino nameA t = .ok (some (3, 48), u) ∧
      recent (nameMap (dirents twiceData)) [.remove nameA true] (nameKey nameA) = none := by
  have hlen : twiceData.length ≤ bsize := by decide
  have hstep : removeEntry rootino nameA (lockedImage twiceData) =
      .ok (true, stateAfter (removeEntry rootino nameA) (lockedImage twiceData)) :=
    run_eq (by decide +kernel)
  exact ⟨_, _, ⟨lockedImage_good hlen, lockedImage_loaded twiceData, le_rfl⟩,
    lockedImage_view_root hlen, by decide, DirRun.snoc (DirRun.nil _) (DirStep.remove hstep),
    run_eq (by decide +kernel), by decide⟩

end Xv6
