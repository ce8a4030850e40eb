import Mathlib.Data.Multiset.AddSub
import Xv6.SysCalls

/-! What a process holds in the middle of a system call: references to inodes,
names it has counted and not yet entered, an open transaction. Every step says
what it needs and leaves, and every call ends with nothing. -/

namespace Xv6

open Interleave CString Option Multiset

/-- `known` is an inode whose type the process has seen. -/
structure Held where
  refs : Multiset Nat := 0
  pending : Multiset Nat := 0
  inside : Bool := false
  known : Option (Nat × Int) := none

namespace Held

def Spare (h : Held) (i : Nat) : Prop := h.pending.count i < h.refs.count i

def take (h : Held) (i : Nat) : Held := { h with refs := i ::ₘ h.refs }

def give (h : Held) (i : Nat) : Held :=
  { h with
    refs := h.refs.erase i
    known := h.known.filter (fun k => k.1 ∈ h.refs.erase i) }

def learn (h : Held) (i : Nat) (type : Int) : Held := { h with known := some (i, type) }

end Held

def needs : Act → Held → Prop
  | .beginOp, h => h.inside = false
  | .endOp, h => h.inside = true
  | .iput i, h => h.inside = true ∧ h.Spare i
  | .search ip _, h => h.inside = true ∧ ip ∈ h.refs
  | .typeOf ip, h => h.inside = true ∧ ip ∈ h.refs
  | .createAt dp _ type _ _, h => h.inside = true ∧ dp ∈ h.refs ∧ type ≠ 0
  | .openAt ip omode, h => h.inside = true ∧ h.Spare ip ∧
      (omode &&& oCreate ≠ 0 → ∃ t, h.known = some (ip, t) ∧ t ≠ tDir)
  | .unlinkAt dp _, h => h.inside = true ∧ h.Spare dp
  | .linkCount ip, h => h.inside = true ∧ h.Spare ip
  | .linkEnter dp _ ip, h => h.inside = true ∧ dp ∈ h.refs ∧ ip ∈ h.pending
  | .linkUncount ip, h => h.inside = true ∧ ip ∈ h.pending
  | .swapCwd next, h => ∀ i, next = some i → h.Spare i ∧ h.known = some (i, tDir)
  | .writeAt _ _ n, h => h.inside = true ∧ n < 2 ^ 32
  | .readAt _ _ n, _ => n < 2 ^ 32
  | .load ip _, h => h.inside = true ∧ ip ∈ h.refs
  | .panic msg, _ => msg ∈ ["filewrite", "fileread"]
  | _, _ => True

/-- A new file has no inode yet, so a step that closes it again has none to put. -/
def allows : (a : Act) → a.Res → Prop
  | .openAt _ _, .full r => r = none
  | .pipealloc _, .bad r0 r1 => r0 = none ∧ r1 = none
  | _, _ => True

def leaves : (a : Act) → a.Res → Held → Held
  | .beginOp, _, h => { h with inside := true }
  | .endOp, _, h => { h with inside := false }
  | .iget i, _, h => h.take i
  | .idupCwd, i, h => h.take i
  | .iput i, _, h => h.give i
  | .search _ _, some i, h => h.take i
  | .typeOf ip, t, h => h.learn ip t
  | .createAt _ _ _ _ _, .found i, h => h.take i
  | .createAt _ _ type _ _, .made i, h => (h.take i).learn i type
  | .openAt ip _, .opened _, h => h.give ip
  | .unlinkAt dp _, some i, h => (h.give dp).take i
  | .linkCount ip, true, h => { h with pending := ip ::ₘ h.pending }
  | .linkEnter _ _ ip, true, h => { h with pending := h.pending.erase ip }
  | .linkUncount ip, _, h => { h with pending := h.pending.erase ip }
  | .swapCwd none, i, h => h.take i
  | .swapCwd (some j), i, h => (h.give j).take i
  | .closeFile _, some i, h => h.take i
  | .orphan i, true, h => h.take i
  | _, _, h => h

def Act.bracket : Act → Bool → Bool
  | .beginOp, _ => true
  | .endOp, _ => false
  | _, b => b

def contract : Contract Act.Res Held where
  pre := needs
  may a _ r := allows a r
  post := leaves

/-- Inside a transaction, with references to `R` and counted names for `P`. -/
structure Has (h : Held) (R P : Multiset Nat) : Prop where
  refs : h.refs = R
  pending : h.pending = P
  inside : h.inside = true
  known : ∀ k, h.known = some k → k.1 ∈ R

section Rules

variable {h : Held} {R P : Multiset Nat} {i j : Nat} {α : Type} {Q : α → Held → Prop}

theorem Has.take (hh : Has h R P) (i : Nat) : Has (h.take i) (i ::ₘ R) P where
  refs := by rw [Held.take, hh.refs]
  pending := hh.pending
  inside := hh.inside
  known k hk := mem_cons_of_mem (hh.known k hk)

theorem Has.give (hh : Has h (i ::ₘ R) P) : Has (h.give i) R P := by
  have hR : h.refs.erase i = R := by rw [hh.refs, erase_cons_head]
  refine ⟨hR, hh.pending, hh.inside, fun k hk => ?_⟩
  have hf : h.known.filter (fun k => k.1 ∈ h.refs.erase i) = some k := hk
  have hmem := (filter_eq_some_iff.mp hf).2
  rw [hR] at hmem
  simpa using hmem

theorem Has.give_known (hh : Has h (i ::ₘ R) P) {k : Nat × Int} (hk : h.known = some k)
    (hmem : k.1 ∈ R) : (h.give i).known = some k := by
  have hR : h.refs.erase i = R := by rw [hh.refs, erase_cons_head]
  have hf : (h.give i).known = h.known.filter (fun k => k.1 ∈ h.refs.erase i) := rfl
  rw [hf, hk, hR]
  exact filter_some_pos (by simpa using hmem)

theorem Has.learn (hh : Has h R P) (hi : i ∈ R) (type : Int) : Has (h.learn i type) R P where
  refs := hh.refs
  pending := hh.pending
  inside := hh.inside
  known k hk := by
    obtain rfl := some.inj hk
    exact hi

theorem Has.swap (hh : Has h (i ::ₘ j ::ₘ R) P) : Has h (j ::ₘ i ::ₘ R) P := by
  rw [cons_swap]
  exact hh

theorem Has.mem (hh : Has h (i ::ₘ R) P) : i ∈ h.refs := by
  rw [hh.refs]
  exact mem_cons_self i R

theorem Has.spare (hh : Has h (i ::ₘ R) P) (hP : P ≤ R) : h.Spare i := by
  have hle := count_le_of_le i hP
  rw [Held.Spare, hh.refs, hh.pending, count_cons_self]
  omega

theorem Has.idle (hh : Has h 0 0) : { h with inside := false } = ({} : Held) := by
  have hk : h.known = none := by
    cases hk : h.known with
    | none => rfl
    | some k => exact absurd (hh.known k hk) (notMem_zero _)
  rw [hh.refs, hh.pending, hk]

theorem act_obeys {a : Act} {k : a.Res → Op α} (hpre : needs a h)
    (hk : ∀ r, allows a r → Obeys contract (k r) (leaves a r h) Q) :
    Obeys contract (act a >>= k) h Q := ⟨hpre, hk⟩

theorem iput_obeys {k : Op α} (hh : Has h (i ::ₘ R) P) (hP : P ≤ R)
    (hk : ∀ g, Has g R P → Obeys contract k g Q) :
    Obeys contract (act (.iput i) >>= fun _ => k) h Q :=
  act_obeys ⟨hh.inside, hh.spare hP⟩ (fun _ _ => hk _ hh.give)

theorem endWith_obeys (hh : Has h 0 0) (r : Int) :
    Obeys contract (endWith r) h (fun _ g => g = {}) :=
  act_obeys hh.inside (fun _ _ => Obeys.pure hh.idle)

theorem beginOp_obeys {k : Op α} (hk : ∀ g, Has g 0 0 → Obeys contract k g Q) :
    Obeys contract (act .beginOp >>= fun _ => k) {} Q :=
  act_obeys rfl (fun _ _ => hk _ ⟨rfl, rfl, rfl, fun _ h => by simp [leaves] at h⟩)

end Rules

section Paths

variable {h : Held} {R P : Multiset Nat} {i ip : Nat}

def Walks (R P : Multiset Nat) (r : Option (Nat × Buffer)) (h : Held) : Prop :=
  Has h (r.elim R (fun x => x.1 ::ₘ R)) P

theorem namexLoop_obeys {parent : Bool} {fuel : Nat} {path : Buffer} (name : Buffer)
    (hh : Has h (ip ::ₘ R) P) (hP : P ≤ R) :
    Obeys contract (namexLoop parent fuel ip path name) h (Walks R P) := by
  induction fuel generalizing h ip path name with
  | zero => exact iput_obeys hh hP (fun g hg => Obeys.pure hg)
  | succ fuel ih =>
    rw [namexLoop]
    cases skipelem path name with
    | none =>
      cases parent with
      | true => exact iput_obeys hh hP (fun g hg => Obeys.pure hg)
      | false => exact Obeys.pure hh
    | some rest =>
      obtain ⟨path, name⟩ := rest
      dsimp only
      split_ifs with hlast
      · refine act_obeys ⟨hh.inside, hh.mem⟩ (fun t _ => ?_)
        have hg := hh.learn (mem_cons_self ip R) t
        split_ifs with ht
        · exact iput_obeys hg hP (fun g hg => Obeys.pure hg)
        · exact Obeys.pure hg
      · refine act_obeys ⟨hh.inside, hh.mem⟩ (fun r _ => ?_)
        cases r with
        | none => exact iput_obeys hh hP (fun g hg => Obeys.pure hg)
        | some next =>
          have hP' : P ≤ next ::ₘ R := hP.trans (le_cons_self R next)
          exact iput_obeys (hh.take next).swap hP' (fun g hg => ih name hg)

theorem namex_obeys (path : Buffer) (parent : Bool) (name : Buffer) (hh : Has h R P)
    (hP : P ≤ R) : Obeys contract (namex path parent name) h (Walks R P) := by
  unfold namex
  split_ifs with hslash
  · exact act_obeys trivial (fun _ _ => namexLoop_obeys name (hh.take rootino) hP)
  · exact act_obeys trivial (fun i _ => namexLoop_obeys name (hh.take i) hP)

theorem namei_obeys (path : Buffer) (hh : Has h R P) (hP : P ≤ R) :
    Obeys contract (namei path) h (fun r g => Has g (r.elim R (· ::ₘ R)) P) := by
  refine (namex_obeys path false [] hh hP).bind (fun r g hg => Obeys.pure ?_)
  cases r with
  | none => exact hg
  | some x => exact hg

theorem nameiparent_obeys (path : Buffer) (hh : Has h R P) (hP : P ≤ R) :
    Obeys contract (nameiparent path) h (Walks R P) := namex_obeys path true [] hh hP

theorem create_obeys (path : Buffer) {type : Int} (major minor : Int) (htype : type ≠ 0)
    (hh : Has h R P) (hP : P ≤ R) :
    Obeys contract (create path type major minor) h (fun r g =>
      Has g (r.elim R (· ::ₘ R)) P ∧ ∀ ip, r = some ip → ∃ t, g.known = some (ip, t) ∧
        (t = tFile ∨ t = tDevice ∨ t = type)) := by
  refine (nameiparent_obeys path hh hP).bind (fun r g hg => ?_)
  cases r with
  | none => exact Obeys.pure ⟨hg, fun ip h0 => by simp at h0⟩
  | some x =>
    obtain ⟨dp, name⟩ := x
    have hg : Has g (dp ::ₘ R) P := hg
    refine act_obeys ⟨hg.inside, hg.mem, htype⟩ (fun c _ => ?_)
    cases c with
    | found ip =>
      have hP' : P ≤ ip ::ₘ R := hP.trans (le_cons_self R ip)
      refine iput_obeys (hg.take ip).swap hP' (fun g hg => act_obeys ⟨hg.inside, hg.mem⟩ (fun t _ => ?_))
      have hl := hg.learn (mem_cons_self ip R) t
      split_ifs with ht
      · refine Obeys.pure ⟨hl, fun i hi => ?_⟩
        obtain rfl := some.inj hi
        exact ⟨t, rfl, by tauto⟩
      · exact iput_obeys hl hP (fun g hg => Obeys.pure ⟨hg, fun ip h0 => by simp at h0⟩)
    | made ip =>
      have hP' : P ≤ ip ::ₘ R := hP.trans (le_cons_self R ip)
      have hm := ((hg.take ip).learn (mem_cons_self ip _) type).swap
      refine act_obeys ⟨hm.inside, hm.spare hP'⟩ (fun _ _ => Obeys.pure ⟨hm.give, fun i hi => ?_⟩)
      obtain rfl := some.inj hi
      exact ⟨type, hm.give_known rfl (mem_cons_self _ R), .inr (.inr rfl)⟩
    | failed => exact iput_obeys hg hP (fun g hg => Obeys.pure ⟨hg, fun ip h0 => by simp at h0⟩)

end Paths

section Calls

def Closed {α : Type} (m : Op α) : Prop := Obeys contract m {} (fun _ g => g = {})

theorem putFile_closed (r : Option Nat) :
    Obeys contract (putFile r) (r.elim {} (Held.take {})) (fun _ g => g = {}) := by
  cases r with
  | none => exact Obeys.pure rfl
  | some ip =>
    refine act_obeys rfl (fun _ _ => ?_)
    have hh : Has { Held.take {} ip with inside := true } (ip ::ₘ 0) 0 :=
      ⟨rfl, rfl, rfl, fun _ h => by simp [Held.take] at h⟩
    refine iput_obeys hh le_rfl (fun g hg => ?_)
    exact Obeys.act hg.inside (fun _ _ => hg.idle)

theorem fileclose_closed (f : FileId) : Closed (fileclose f) := by
  refine act_obeys trivial (fun r _ => ?_)
  cases r with
  | none => exact putFile_closed none
  | some ip => exact putFile_closed (some ip)

theorem Closed.bind {α β : Type} {m : Op α} {k : α → Op β} (hm : Closed m)
    (hk : ∀ a, Closed (k a)) : Closed (m >>= k) :=
  Obeys.bind hm (fun a g hg => by rw [hg]; exact hk a)

theorem Closed.pure {α : Type} (a : α) : Closed (Pure.pure a : Op α) := rfl

theorem sysClose_closed (fd : Nat) : Closed (sysClose fd) := by
  refine act_obeys trivial (fun r _ => ?_)
  cases r with
  | none => exact Closed.pure _
  | some f => exact (fileclose_closed f).bind (fun _ => Closed.pure _)

theorem sysDup_closed (fd : Nat) : Closed (sysDup fd) := by
  refine act_obeys trivial (fun r _ => ?_)
  cases r <;> exact Closed.pure _

variable {h : Held} {R P : Multiset Nat} {ip dp : Nat}

theorem linkBad_obeys (hh : Has h (ip ::ₘ 0) (ip ::ₘ 0)) :
    Obeys contract (linkBad ip) h (fun _ g => g = {}) := by
  have hmem : ip ∈ h.pending := by
    rw [hh.pending]
    exact mem_cons_self ip 0
  refine act_obeys ⟨hh.inside, hmem⟩ (fun _ _ => ?_)
  have hu : Has { h with pending := h.pending.erase ip } (ip ::ₘ 0) 0 :=
    ⟨hh.refs, by rw [hh.pending, erase_cons_head], hh.inside, hh.known⟩
  exact iput_obeys hu le_rfl (fun g hg => endWith_obeys hg _)

theorem sysLink_closed (old new : Option Buffer) : Closed (sysLink old new) := by
  cases old with
  | none => exact Closed.pure _
  | some old =>
    cases new with
    | none => exact Closed.pure _
    | some new =>
      refine beginOp_obeys (fun g hg => (namei_obeys old hg le_rfl).bind (fun r g hg => ?_))
      cases r with
      | none => exact endWith_obeys hg _
      | some ip =>
        have hg : Has g (ip ::ₘ 0) 0 := hg
        refine act_obeys ⟨hg.inside, hg.spare le_rfl⟩ (fun ok _ => ?_)
        cases ok with
        | false => exact iput_obeys hg le_rfl (fun g hg => endWith_obeys hg _)
        | true =>
          have hc : Has { g with pending := ip ::ₘ g.pending } (ip ::ₘ 0) (ip ::ₘ 0) :=
            ⟨hg.refs, by rw [hg.pending], hg.inside, hg.known⟩
          refine (nameiparent_obeys new hc le_rfl).bind (fun r g hg => ?_)
          cases r with
          | none => exact linkBad_obeys hg
          | some x =>
            obtain ⟨dp, name⟩ := x
            have hg : Has g (dp ::ₘ ip ::ₘ 0) (ip ::ₘ 0) := hg
            have hmem : ip ∈ g.pending := by
              rw [hg.pending]
              exact mem_cons_self ip 0
            refine act_obeys ⟨hg.inside, hg.mem, hmem⟩ (fun ok _ => ?_)
            cases ok with
            | false => exact iput_obeys hg le_rfl (fun g hg => linkBad_obeys hg)
            | true =>
              have he : Has { g with pending := g.pending.erase ip } (dp ::ₘ ip ::ₘ 0) 0 :=
                ⟨hg.refs, by rw [hg.pending, erase_cons_head], hg.inside, hg.known⟩
              exact iput_obeys he (zero_le _) (fun g hg =>
                iput_obeys hg le_rfl (fun g hg => endWith_obeys hg _))

theorem sysUnlink_closed (path : Option Buffer) : Closed (sysUnlink path) := by
  cases path with
  | none => exact Closed.pure _
  | some path =>
    refine beginOp_obeys (fun g hg => (nameiparent_obeys path hg le_rfl).bind (fun r g hg => ?_))
    cases r with
    | none => exact endWith_obeys hg _
    | some x =>
      obtain ⟨dp, name⟩ := x
      have hg : Has g (dp ::ₘ 0) 0 := hg
      refine act_obeys ⟨hg.inside, hg.spare le_rfl⟩ (fun r _ => ?_)
      cases r with
      | none => exact iput_obeys hg le_rfl (fun g hg => endWith_obeys hg _)
      | some ip => exact iput_obeys (hg.give.take ip) le_rfl (fun g hg => endWith_obeys hg _)

theorem openInode_obeys (omode : BitVec 32) (hh : Has h (ip ::ₘ 0) 0)
    (hk : omode &&& oCreate ≠ 0 → ∃ t, h.known = some (ip, t) ∧ t ≠ tDir) :
    Obeys contract (openInode ip omode) h (fun _ g => g = {}) := by
  refine act_obeys ⟨hh.inside, hh.spare le_rfl, hk⟩ (fun r hr => ?_)
  cases r with
  | refused => exact iput_obeys hh le_rfl (fun g hg => endWith_obeys hg _)
  | full r =>
    have hr : r = none := hr
    rw [hr]
    exact iput_obeys hh le_rfl (fun g hg => endWith_obeys hg _)
  | opened fd => exact endWith_obeys hh.give _

theorem sysOpen_closed (path : Option Buffer) (omode : BitVec 32) : Closed (sysOpen path omode) := by
  cases path with
  | none => exact Closed.pure _
  | some path =>
    refine beginOp_obeys (fun g hg => ?_)
    split_ifs with hcreate
    · refine (create_obeys path 0 0 (by decide) hg le_rfl).bind (fun r g hg => ?_)
      cases r with
      | none => exact endWith_obeys hg.1 _
      | some ip =>
        obtain ⟨t, hk, ht⟩ := hg.2 ip rfl
        refine openInode_obeys omode hg.1 (fun _ => ⟨t, hk, ?_⟩)
        rcases ht with rfl | rfl | rfl <;> decide
    · refine (namei_obeys path hg le_rfl).bind (fun r g hg => ?_)
      cases r with
      | none => exact endWith_obeys hg _
      | some ip => exact openInode_obeys omode hg (fun h0 => absurd h0 hcreate)

theorem sysMake_closed (path : Option Buffer) {type : Int} (major minor : Int) (ht : type ≠ 0) :
    Closed (sysMake path type major minor) := by
  refine beginOp_obeys (fun g hg => ?_)
  cases path with
  | none => exact endWith_obeys hg _
  | some path =>
    refine (create_obeys path major minor ht hg le_rfl).bind (fun r g hg => ?_)
    cases r with
    | none => exact endWith_obeys hg.1 _
    | some ip =>
      have hi : Has g (ip ::ₘ 0) 0 := hg.1
      exact iput_obeys hi le_rfl (fun g hg => endWith_obeys hg _)

theorem sysChdir_closed (path : Option Buffer) : Closed (sysChdir path) := by
  refine beginOp_obeys (fun g hg => ?_)
  cases path with
  | none => exact endWith_obeys hg _
  | some path =>
    refine (namei_obeys path hg le_rfl).bind (fun r g hg => ?_)
    cases r with
    | none => exact endWith_obeys hg _
    | some ip =>
      have hg : Has g (ip ::ₘ 0) 0 := hg
      refine act_obeys ⟨hg.inside, hg.mem⟩ (fun t _ => ?_)
      have hl := hg.learn (mem_cons_self ip 0) t
      split_ifs with ht
      · exact iput_obeys hl le_rfl (fun g hg => endWith_obeys hg _)
      · refine act_obeys (fun i hi => ?_) (fun cwd _ => ?_)
        · obtain rfl := some.inj hi
          exact ⟨hl.spare le_rfl, by rw [← not_not.mp ht]; rfl⟩
        · exact iput_obeys (hl.give.take cwd) le_rfl (fun g hg => endWith_obeys hg _)

theorem sysPipe_closed (page : Option Nat) (copied : Bool) : Closed (sysPipe page copied) := by
  have hclose : ∀ f0 f1 : FileId, Closed (do fileclose f0; fileclose f1; pure (-1) : Op Int) :=
    fun f0 f1 => (fileclose_closed f0).bind (fun _ => (fileclose_closed f1).bind
      (fun _ => Closed.pure _))
  refine act_obeys trivial (fun r hr => ?_)
  cases r with
  | bad r0 r1 =>
    obtain ⟨h0, h1⟩ : r0 = none ∧ r1 = none := hr
    rw [h0, h1]
    exact Closed.pure _
  | made f0 f1 =>
    refine act_obeys trivial (fun r _ => ?_)
    cases r with
    | none => exact hclose f0 f1
    | some fd0 =>
      refine act_obeys trivial (fun r _ => ?_)
      cases r with
      | none => exact act_obeys trivial (fun _ _ => hclose f0 f1)
      | some fd1 =>
        dsimp only
        split_ifs with hc
        · exact Closed.pure _
        · exact act_obeys trivial (fun _ _ => act_obeys trivial (fun _ _ => hclose f0 f1))

theorem sysFork_closed (child : ProcId) (mem : Bool) : Closed (sysFork child mem) := by
  unfold sysFork
  split_ifs with hm
  · refine act_obeys trivial (fun r _ => ?_)
    split_ifs <;> exact Closed.pure _
  · exact Closed.pure _

theorem closeFds_closed (n : Nat) : Closed (closeFds n) := by
  induction n with
  | zero => exact Closed.pure _
  | succ fd ih =>
    refine ih.bind (fun _ => act_obeys trivial (fun r _ => ?_))
    cases r with
    | none => exact Closed.pure _
    | some f => exact fileclose_closed f

theorem sysExit_closed : Closed sysExit := by
  refine (closeFds_closed nofile).bind (fun _ => beginOp_obeys (fun g hg => ?_))
  refine act_obeys (fun i hi => by simp at hi) (fun cwd _ => ?_)
  exact iput_obeys (hg.take cwd) le_rfl (fun g hg => endWith_obeys hg _)

theorem writeChunks_closed (fd : Nat) (src : Nat → Option Byte) (n fuel i : Nat) :
    Closed (writeChunks fd src n fuel i) := by
  induction fuel generalizing i with
  | zero => exact Closed.pure _
  | succ fuel ih =>
    rw [writeChunks]
    split_ifs with hi
    · have hsize : min (n - i) maxChunk < 2 ^ 32 := lt_of_le_of_lt (min_le_right _ _) (by decide)
      refine act_obeys rfl (fun _ _ => act_obeys ⟨rfl, hsize⟩ (fun r _ =>
        act_obeys rfl (fun _ _ => ?_)))
      split_ifs
      · exact Closed.pure _
      · exact ih _
    · exact Closed.pure _

theorem sysWrite_closed (fd : Nat) (src : Nat → Option Byte) (n io : Int) :
    Closed (sysWrite fd src n io) := by
  refine act_obeys trivial (fun r _ => ?_)
  cases r with
  | none => exact Closed.pure _
  | some ff =>
    dsimp only
    split_ifs with hw
    · exact Closed.pure _
    · cases ff.type with
      | none => exact act_obeys (by simp [needs]) (fun _ _ => Closed.pure _)
      | inode => exact (writeChunks_closed fd src _ _ _).bind (fun _ => Closed.pure _)
      | pipe => exact Closed.pure _
      | device => exact Closed.pure _

theorem sysRead_closed (fd : Nat) (dst : Nat → Bool) (n io : Int) :
    Closed (sysRead fd dst n io) := by
  refine act_obeys trivial (fun r _ => ?_)
  cases r with
  | none => exact Closed.pure _
  | some ff =>
    dsimp only
    split_ifs with hw
    · exact Closed.pure _
    · cases ff.type with
      | none => exact act_obeys (by simp [needs]) (fun _ _ => Closed.pure _)
      | inode =>
        have hsize : (n % 2 ^ 32).toNat < 2 ^ 32 := by omega
        exact act_obeys hsize (fun _ _ => Closed.pure _)
      | pipe => exact Closed.pure _
      | device => exact Closed.pure _

theorem kexec_closed (path : Buffer) (mem : Nat → Bool) (ok : Bool) (argc : Int) :
    Closed (kexec path mem ok argc) := by
  refine beginOp_obeys (fun g hg => (namei_obeys path hg le_rfl).bind (fun r g hg => ?_))
  cases r with
  | none => exact endWith_obeys hg _
  | some ip =>
    have hg : Has g (ip ::ₘ 0) 0 := hg
    refine act_obeys ⟨hg.inside, hg.mem⟩ (fun loaded _ => iput_obeys hg le_rfl (fun g hg => ?_))
    refine act_obeys hg.inside (fun _ _ => ?_)
    split_ifs <;> exact Obeys.pure hg.idle

theorem reclaimLoop_closed (n : Nat) : Closed (reclaimLoop n) := by
  induction n with
  | zero => exact Closed.pure _
  | succ inum ih =>
    refine ih.bind (fun _ => act_obeys trivial (fun r _ => ?_))
    cases r with
    | false => exact Closed.pure _
    | true =>
      refine act_obeys rfl (fun _ _ => ?_)
      have hh : Has { Held.take {} inum with inside := true } (inum ::ₘ 0) 0 :=
        ⟨rfl, rfl, rfl, fun _ h => by simp [Held.take] at h⟩
      refine act_obeys ⟨hh.inside, hh.mem⟩ (fun t _ => ?_)
      refine iput_obeys (hh.learn (mem_cons_self inum 0) t) le_rfl (fun g hg => ?_)
      exact Obeys.act hg.inside (fun _ _ => hg.idle)

theorem call_closed (c : Call) : Closed c.op := by
  cases c with
  | openFile path omode => exact sysOpen_closed path omode
  | close fd => exact sysClose_closed fd
  | dup fd => exact sysDup_closed fd
  | link old new => exact sysLink_closed old new
  | unlink path => exact sysUnlink_closed path
  | mkdir path => exact sysMake_closed path 0 0 (by decide)
  | mknod path major minor => exact sysMake_closed path _ _ (by decide)
  | chdir path => exact sysChdir_closed path
  | pipe page copied => exact sysPipe_closed page copied
  | fork child mem => exact sysFork_closed child mem
  | exit => exact sysExit_closed
  | write fd src n io => exact sysWrite_closed fd src n io
  | read fd dst n io => exact sysRead_closed fd dst n io
  | exec path args mem ok argc =>
    cases path with
    | none => exact Closed.pure _
    | some path =>
      dsimp only [Call.op, sysExec]
      split_ifs
      · exact kexec_closed path mem ok argc
      · exact Closed.pure _
  | reclaim => exact act_obeys trivial (fun n _ => (reclaimLoop_closed n).bind
      (fun _ => Closed.pure _))

end Calls

end Xv6
