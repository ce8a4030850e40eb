import Xv6.Boot
import Xv6.FileSteps
import Xv6.Holding
import Xv6.Path

/-! `namex` run alone: it resolves a path and keeps one reference, to its result. -/

namespace Xv6

open Interleave Fallible CString FsM List Option

/-- Directories are formatted, and their entries are for allocated inodes. -/
structure IsTree (A : Inodes) : Prop where
  formatted : ∀ i n, A.view i = some n → n.type = tDir → n.Formatted
  named : ∀ i n, A.view i = some n → n.type = tDir → ∀ de ∈ dirents n.data, de.inum ≠ 0 →
    A.view de.inum ≠ none

def isDir (A : Inodes) (i : Nat) : Prop := ∃ n, A.view i = some n ∧ n.type = tDir

instance (A : Inodes) (i : Nat) : Decidable (isDir A i) :=
  decidable_of_iff ((A.view i).any (fun n => n.type = tDir) = true)
    (by simp [isDir, Option.any_eq_true])

/-- The directory that all names but the last lead to, with the last. -/
def resolveParent (A : Inodes) (i : Nat) (names : List Buffer) : Option (Nat × Buffer) :=
  names.getLast?.bind (fun last => (resolve A i names.dropLast).bind (fun dp =>
    if isDir A dp then some (dp, last) else none))

section Resolving

variable {A : Inodes} {i : Nat} {c : Buffer} {cs : List Buffer}

theorem resolve_cons : resolve A i (c :: cs) = (descend A i c).bind (resolve A · cs) := rfl

theorem resolveParent_single : resolveParent A i [c] = if isDir A i then some (i, c) else none := rfl

theorem resolveParent_cons (h : cs ≠ []) :
    resolveParent A i (c :: cs) = (descend A i c).bind (resolveParent A · cs) := by
  unfold resolveParent
  rw [getLast?_cons_of_ne_nil h, dropLast_cons_of_ne_nil h, resolve_cons]
  cases hd : descend A i c with
  | none =>
    cases cs.getLast? <;> rfl
  | some j => rfl

theorem descend_eq_map {n : Node} (hn : A.view i = some n) (hdir : n.type = tDir) (name : Buffer) :
    descend A i name = (lookup (dirents n.data) name).map Prod.fst := by
  rw [descend, hn, bind_some, if_pos hdir]

theorem descend_of_not_dir {n : Node} (hn : A.view i = some n) (hdir : n.type ≠ tDir) (name : Buffer) :
    descend A i name = none := by
  rw [descend, hn, bind_some, if_neg hdir]

theorem descend_nameKey (name : Buffer) : descend A i (nameKey name) = descend A i name := by
  have hkey : nameKey (nameKey name) = nameKey name := by
    unfold nameKey text
    rw [take_of_length_le, takeWhile_idem]
    exact (takeWhile_sublist _).length_le.trans (length_take_le _ _)
  unfold descend
  simp only [lookup_map_fst, hkey]

theorem IsTree.descend (h : IsTree A) {j : Nat} (hd : descend A i c = some j) : A.view j ≠ none := by
  cases hn : A.view i with
  | none => simp [Xv6.descend, hn] at hd
  | some n =>
    by_cases hdir : n.type = tDir
    · rw [descend_eq_map hn hdir, map_eq_some_iff] at hd
      obtain ⟨⟨k, off⟩, hl, rfl⟩ := hd
      obtain ⟨x, de, hx, h0, -, rfl, -⟩ := lookup_eq_some hl
      exact h.named i n hn hdir de (mem_of_getElem? hx) h0
    · rw [descend_of_not_dir hn hdir] at hd
      simp at hd

end Resolving

def Walked (A : Inodes) (parent : Bool) (i : Nat) (path : Buffer) (r : Option (Nat × Buffer)) :
    Prop :=
  if parent then r.map (fun x => (x.1, nameKey x.2)) = resolveParent A i (components path)
  else r.map Prod.fst = resolve A i (components path)

theorem walked_cons {A : Inodes} {parent : Bool} {i : Nat} {c path path' : Buffer}
    (hc : components path = c :: components path') (hne : parent = true → components path' ≠ [])
    (r : Option (Nat × Buffer)) : Walked A parent i path r ↔
      match descend A i c with
      | none => r = none
      | some next => Walked A parent next path' r := by
  unfold Walked
  cases parent with
  | true =>
    rw [if_pos rfl, hc, resolveParent_cons (hne rfl)]
    cases descend A i c with
    | none => simp
    | some next => rfl
  | false =>
    rw [if_neg (by simp), hc, resolve_cons]
    cases descend A i c with
    | none => simp
    | some next => rfl

section Walking

variable {start : Nat} {s : Fs} {E : String → Prop} {p : ProcId} {parent : Bool}

theorem iput_act {σ : Sys} {i : Nat} {H : Multiset Nat} (h : Holds start s σ.fs (i ::ₘ H))
    (hs : s.NoOrphans) : Ends ((act (.iput i)).run (Act.exec p)) σ
      (fun _ τ => OnlyFs σ τ ∧ Holds start s τ.fs H) E :=
  ends_act (onFs_ends (iput_holds h hs))

theorem namexLoop_ends (hs : s.NoOrphans)
    (hfmt : ∀ i n, s.view i = some n → n.type = tDir → n.Formatted)
    (hroom : ninode < s.inuse + 2 → E "iget: no inodes") {fuel : Nat} {σ : Sys} {ip : Nat}
    {path : Buffer} (name : Buffer) (h : Holds start s σ.fs (ip ::ₘ 0)) (hlen : path.length < fuel)
    (htree : E "ilock: no type" ∨ (IsTree s.inodes ∧ s.view ip ≠ none)) :
    Ends ((namexLoop parent fuel ip path name).run (Act.exec p)) σ
      (fun r τ => OnlyFs σ τ ∧
        Holds start s τ.fs (r.elim 0 (fun x => x.1 ::ₘ 0)) ∧
        Walked s.inodes parent ip path r) E := by
  induction fuel generalizing σ ip path name with
  | zero => exact absurd hlen (Nat.not_lt_zero _)
  | succ fuel ih =>
    have halloc : s.view ip = none → E "ilock: no type" := by
      intro hnone
      rcases htree with hE | ⟨-, hv⟩
      · exact hE
      · exact absurd hnone hv
    have hfull : ninode ≤ σ.fs.inuse → E "iget: no inodes" := by
      intro hle
      refine hroom ?_
      have hin : σ.fs.inuse = s.inuse + (s.entering (ip ::ₘ 0)).card := h.extra.inuse
      rw [Fs.card_entering_cons] at hin
      have h0 : (s.entering 0).card = 0 := rfl
      split_ifs at hin <;> omega
    rw [namexLoop]
    cases hskip : skipelem path name with
    | none =>
      have hc := skipelem_eq_none hskip
      cases parent with
      | true =>
        refine ends_bind (iput_act h hs) (fun _ τ hτ => ends_pure ⟨hτ.1, hτ.2, ?_⟩)
        rw [Walked, if_pos rfl, hc]
        rfl
      | false =>
        refine ends_pure ⟨rfl, h, ?_⟩
        rw [Walked, if_neg (by simp), hc]
        rfl
    | some rest =>
      obtain ⟨path', name'⟩ := rest
      obtain ⟨hc, hshort, hhead⟩ := skipelem_eq_some hskip
      dsimp only
      split_ifs with hlast
      · have hnil := (components_eq_nil hhead).mpr hlast.2
        refine ends_bind (ends_act (onFs_ends (typeOf_holds h halloc))) ?_
        rintro r τ ⟨hfs, hold, n, hn, rfl⟩
        by_cases hdir : n.type = tDir
        · rw [if_neg (not_not.mpr hdir)]
          refine ends_pure ⟨hfs, hold, ?_⟩
          rw [Walked, if_pos hlast.1, hc, hnil, resolveParent_single, if_pos ⟨n, hn, hdir⟩]
          rfl
        · rw [if_pos hdir]
          refine ends_bind (iput_act hold hs) (fun _ υ hυ => ends_pure ⟨hfs.trans hυ.1, hυ.2, ?_⟩)
          have hno : ¬ isDir s.inodes ip := by
            rintro ⟨m, hm, hd⟩
            obtain rfl := some.inj (hn.symm.trans hm)
            exact hdir hd
          rw [Walked, if_pos hlast.1, hc, hnil, resolveParent_single, if_neg hno]
          rfl
      · refine ends_bind (ends_act (onFs_ends (search_holds h name' halloc
          (fun n hn hd hf => absurd (hfmt ip n hn hd) hf) hfull))) ?_
        rintro r τ ⟨hfs, hold, n, hn, hfile, hdir⟩
        have hr : r = descend s.inodes ip (nameKey name') := by
          rw [descend_nameKey]
          by_cases hd : n.type = tDir
          · rw [hdir hd (hfmt ip n hn hd), descend_eq_map hn hd]
          · rw [hfile hd, descend_of_not_dir hn hd]
        -- with `parent` the last element is not taken here
        have hne : parent = true → components path' ≠ [] := fun hp hnil =>
          hlast ⟨hp, (components_eq_nil hhead).mp hnil⟩
        cases r with
        | none =>
          refine ends_bind (iput_act hold hs) (fun _ υ hυ => ends_pure ⟨hfs.trans hυ.1, hυ.2, ?_⟩)
          exact (walked_cons hc hne none).mpr (by rw [← hr])
        | some next =>
          have hold' : Holds start s τ.fs (ip ::ₘ next ::ₘ 0) := hold
          refine ends_bind (iput_act hold' hs) (fun _ υ hυ => ?_)
          refine (ih name' hυ.2 (by omega) ?_).post (fun r' ρ hρ =>
            ⟨(hfs.trans hυ.1).trans hρ.1, hρ.2.1,
              (walked_cons hc hne r').mpr (by rw [← hr]; exact hρ.2.2)⟩)
          rcases htree with hE | ⟨ht, -⟩
          · exact .inl hE
          · exact .inr ⟨ht, ht.descend hr.symm⟩

theorem namex_absolute {σ : Sys} (hgood : Good start σ.fs) (hs : σ.fs.NoOrphans)
    (hfmt : ∀ i n, σ.fs.view i = some n → n.type = tDir → n.Formatted) {path : Buffer}
    (hslash : path.headD 0#8 = slash) (name : Buffer)
    (hroom : ninode < σ.fs.inuse + 2 → E "iget: no inodes")
    (htree : E "ilock: no type" ∨ (IsTree σ.fs.inodes ∧ σ.fs.view rootino ≠ none)) :
    Ends ((namex path parent name).run (Act.exec p)) σ
      (fun r τ => OnlyFs σ τ ∧ Holds start σ.fs τ.fs (r.elim 0 (fun x => x.1 ::ₘ 0)) ∧
        Walked σ.fs.inodes parent rootino path r) E := by
  unfold namex
  rw [if_pos hslash]
  refine ends_bind (ends_act (onFs_ends (iget_holds (Holds.refl hgood)
    (fun hle => hroom (by omega))))) (fun _ τ hτ => ?_)
  refine (namexLoop_ends hs hfmt hroom name hτ.2 (Nat.lt_succ_self _) htree).post (fun r υ hυ => ?_)
  exact ⟨hτ.1.trans hυ.1, hυ.2⟩

theorem namex_relative {σ : Sys} {c : Nat} (hgood : Good start σ.fs) (hs : σ.fs.NoOrphans)
    (hfmt : ∀ i n, σ.fs.view i = some n → n.type = tDir → n.Formatted) (hcwd : σ.cwd p = some c)
    (href : 1 ≤ (σ.fs.itable c).ref) {path : Buffer} (hslash : path.headD 0#8 ≠ slash)
    (name : Buffer) (hroom : ninode < σ.fs.inuse + 2 → E "iget: no inodes")
    (htree : E "ilock: no type" ∨ (IsTree σ.fs.inodes ∧ σ.fs.view c ≠ none)) :
    Ends ((namex path parent name).run (Act.exec p)) σ
      (fun r τ => OnlyFs σ τ ∧ Holds start σ.fs τ.fs (r.elim 0 (fun x => x.1 ::ₘ 0)) ∧
        Walked σ.fs.inodes parent c path r) E := by
  have hstart := Holds.refl hgood
  unfold namex
  rw [if_neg hslash]
  have hdup : Ends (SysM.idupCwd p) σ (fun r τ => OnlyFs σ τ ∧ r = c ∧
      Holds start σ.fs τ.fs (c ::ₘ 0)) E := by
    unfold SysM.idupCwd
    refine Ends.get_bind ?_
    rw [hcwd]
    refine (onFs_ends (idup_spec hgood href)).bind (fun _ τ hτ => Ends.pure ⟨hτ.1, rfl, ?_⟩)
    exact hstart.step hτ.2 (hstart.extra.get c)
  refine ends_bind (ends_act hdup) ?_
  rintro r τ ⟨hfs, rfl, hold⟩
  refine (namexLoop_ends hs hfmt hroom name hold (Nat.lt_succ_self _) htree).post (fun r υ hυ => ?_)
  exact ⟨hfs.trans hυ.1, hυ.2⟩

theorem namex_ends {σ : Sys} {c : Nat} (hgood : Good start σ.fs) (hs : σ.fs.NoOrphans)
    (hfmt : ∀ i n, σ.fs.view i = some n → n.type = tDir → n.Formatted) (hcwd : σ.cwd p = some c)
    (href : 1 ≤ (σ.fs.itable c).ref) (path name : Buffer)
    (hroom : ninode < σ.fs.inuse + 2 → E "iget: no inodes")
    (htree : E "ilock: no type" ∨ (IsTree σ.fs.inodes ∧ σ.fs.view rootino ≠ none ∧
      σ.fs.view c ≠ none)) :
    Ends ((namex path parent name).run (Act.exec p)) σ
      (fun r τ => OnlyFs σ τ ∧ Holds start σ.fs τ.fs (r.elim 0 (fun x => x.1 ::ₘ 0)) ∧
        Walked σ.fs.inodes parent (if path.headD 0#8 = slash then rootino else c) path r) E := by
  split_ifs with hslash
  · exact namex_absolute hgood hs hfmt hslash name hroom (htree.imp_right (fun h => ⟨h.1, h.2.1⟩))
  · exact namex_relative hgood hs hfmt hcwd href hslash name hroom
      (htree.imp_right (fun h => ⟨h.1, h.2.2⟩))

end Walking

def OneMore (σ τ : Sys) (r : Option Nat) : Prop :=
  τ.fs.view = σ.fs.view ∧
    ∀ j, (τ.fs.itable j).ref = (σ.fs.itable j).ref + if r = some j then 1 else 0

theorem Holds.oneMore {start : Nat} {σ τ : Sys} {r : Option Nat}
    (h : Holds start σ.fs τ.fs (r.elim 0 (fun i => i ::ₘ 0))) : OneMore σ τ r := by
  refine ⟨h.view, fun j => (h.extra.ref j).trans ?_⟩
  cases r with
  | none => simp
  | some i => simp [Multiset.count_singleton, eq_comm]

/-- `namei` and `nameiparent` lead where the names of the path lead. They take a
reference to their result and no other, and can fail only if the table of inodes
has no room for two more. -/
theorem namex_resolves {start : Nat} {σ : Sys} {p : ProcId} {c : Nat} (hgood : Good start σ.fs)
    (htree : IsTree σ.fs.inodes) (horph : σ.fs.NoOrphans) (hroot : σ.fs.view rootino ≠ none)
    (hcwd : σ.cwd p = some c) (href : 1 ≤ (σ.fs.itable c).ref) (hc : σ.fs.view c ≠ none)
    (path name : Buffer) :
    Ends ((namei path).run (Act.exec p)) σ
      (fun r τ => r = resolve σ.fs.inodes (if path.headD 0#8 = slash then rootino else c)
          (components path) ∧ OneMore σ τ r)
      (fun e => e = "iget: no inodes" ∧ ninode < σ.fs.inuse + 2) ∧
    Ends ((namex path true name).run (Act.exec p)) σ
      (fun r τ => r.map (fun x => (x.1, nameKey x.2)) =
          resolveParent σ.fs.inodes (if path.headD 0#8 = slash then rootino else c)
            (components path) ∧ OneMore σ τ (r.map Prod.fst))
      (fun e => e = "iget: no inodes" ∧ ninode < σ.fs.inuse + 2) := by
  constructor
  · refine ends_bind (namex_ends hgood horph htree.formatted hcwd href path []
      (fun h => ⟨rfl, h⟩) (.inr ⟨htree, hroot, hc⟩)) (fun r τ hτ => ends_pure ⟨hτ.2.2, ?_⟩)
    have hold : Holds start σ.fs τ.fs ((r.map Prod.fst).elim 0 (fun i => i ::ₘ 0)) := by
      cases r with
      | none => exact hτ.2.1
      | some x => exact hτ.2.1
    exact hold.oneMore
  · refine (namex_ends hgood horph htree.formatted hcwd href path name (fun h => ⟨rfl, h⟩)
      (.inr ⟨htree, hroot, hc⟩)).post (fun r τ hτ => ⟨hτ.2.2, ?_⟩)
    have hold : Holds start σ.fs τ.fs ((r.map Prod.fst).elim 0 (fun i => i ::ₘ 0)) := by
      cases r with
      | none => exact hτ.2.1
      | some x => exact hτ.2.1
    exact hold.oneMore

theorem rootData_length : rootData.length ≤ bsize := by decide

theorem boot_isTree : IsTree (bootSys rootData).fs.inodes := by
  have hview := boot_view rootData_length
  have hes : dirents rootData = rootEntries := by decide
  refine ⟨fun i n hn _ => ?_, fun i n hn _ de hde _ => ?_⟩
  all_goals
    have hi : (bootSys rootData).fs.view i = some n := hn
    rw [hview] at hi
    split_ifs at hi
    obtain rfl := some.inj hi
  · exact rfl
  · have hinum : de.inum = rootino := by
      rw [hes] at hde
      simp only [rootEntries, mem_cons, not_mem_nil, or_false] at hde
      rcases hde with rfl | rfl <;> rfl
    have hr := hview de.inum
    rw [if_pos hinum] at hr
    rw [show (bootSys rootData).fs.inodes.view de.inum = _ from hr]
    exact some_ne_none _

theorem boot_noOrphans : (bootSys rootData).fs.NoOrphans := by
  intro j n hn hnl
  rw [boot_view rootData_length] at hn
  split_ifs at hn
  obtain rfl := some.inj hn
  simp at hnl

theorem namex_resolves_dotdot :
    Ends ((namei [slash, slash, 46#8, 46#8, 0#8]).run (Act.exec initProc)) (bootSys rootData)
      (fun r τ => r = some rootino ∧ OneMore (bootSys rootData) τ r) (fun _ => False) := by
  have hroot : (bootSys rootData).fs.view rootino = some ⟨tDir, 0, 0, 1, rootData⟩ :=
    (boot_view rootData_length rootino).trans (if_pos rfl)
  have hne : (bootSys rootData).fs.view rootino ≠ none := by rw [hroot]; exact some_ne_none _
  have h := (namex_resolves (boot_good rootData_length) boot_isTree boot_noOrphans hne
    (if_pos rfl) (boot_ref (fun _ => rfl) rootino).ge hne [slash, slash, 46#8, 46#8, 0#8] []).1
  refine h.mono (fun r τ hr => ⟨hr.1.trans ?_, hr.2⟩) (fun e he => absurd he.2 (by decide))
  have hc : components [slash, slash, 46#8, 46#8, 0#8] = [[46#8, 46#8]] := by decide
  have hd : descend (bootSys rootData).fs.inodes rootino [46#8, 46#8] = some rootino := by
    rw [descend_eq_map hroot rfl]
    decide
  rw [ite_self, hc, resolve_cons, hd]
  rfl

end Xv6
