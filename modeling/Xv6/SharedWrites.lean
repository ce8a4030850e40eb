import Xv6.Runs

/-! Processes that write through one open file. A write is cut into pieces, one
to a transaction, and pieces of other writes come between them. -/

namespace Xv6

open Interleave Fallible FsM SysM Records Function List Finset

/-- What a write of `n` bytes from `src` is to put into the file. -/
def bytes (src : Nat → Option Byte) (n : Nat) : List Byte :=
  (List.range n).map (fun a => (src a).getD 0)

/-- The writes called for and the pieces written, in the order of time. -/
structure Sent where
  calls : List (ProcId × List Byte) := []
  parts : List (ProcId × List Byte) := []

def Sent.note (g : Sent) (w : SysWorld) : SysEvent → Sent
  | .call p (.write _ src n _) => { g with calls := g.calls ++ [(p, bytes src n.toNat)] }
  | .call _ _ => g
  | .step p =>
    match w.prog p with
    | .step (.writeAt _ src n) _ => { g with parts := g.parts ++ [(p, bytes src n)] }
    | _ => g

def sent (w : SysWorld) (es : List SysEvent) : Sent := sysMachine.watch Sent.note {} w es

def ofProc (p : ProcId) (l : List (ProcId × List Byte)) : List (List Byte) :=
  (l.filter (fun x => x.1 = p)).map Prod.snd

def Sent.text (g : Sent) : List Byte := (g.parts.map Prod.snd).flatten

def writesTo (σ : Sys) (f : FileId) : SysEvent → Bool
  | .call p (.write fd _ _ _) => fd < nofile ∧ σ.ofile p fd = some f
  | .call _ _ => false
  | .step _ => true

def writesAll (p : ProcId) (a : Act) (σ : Sys) : Bool :=
  match a with
  | .writeAt fd src n =>
    match SysM.writeAt p fd src n σ with
    | .ok (r, _) => r = n
    | .error _ => false
  | _ => true

section Pieces

variable {start ip off n m : Nat} {s : Fs} {src : Nat → Option Byte} {σ : Sys} {p : ProcId}
  {fd : Nat} {f : FileId}

theorem length_bytes (src : Nat → Option Byte) (n : Nat) : (bytes src n).length = n := by
  simp [bytes]

theorem writei_whole (h : Good start s) (hl : s.inodes.loaded ip = true)
    (htx : 1 ≤ s.outstanding) (hn : n < 2 ^ 32) :
    Ends (writei ip src off n) s (fun r t => r = (n : Int) → off ≤ (s.content ip).length ∧
      off + n < 2 ^ 32 ∧ t.content ip = splice (s.content ip) off (bytes src n)) (fun _ => True) := by
  obtain ⟨d, hd⟩ := h.view_of_loaded hl
  have hdata : s.content ip = d.data := (Fs.view_eq_some hd).2.2.2.2.2
  refine (writei_spec h (Fs.loaded_iff.mp hl).2 htx src off hn).post (fun r t ht hr => ?_)
  obtain hw | ⟨tot, htot, hoff, hw⟩ := ht
  · omega
  obtain rfl : tot = n := by omega
  rw [Fs.view_size hd] at hoff
  rw [hdata]
  refine ⟨hoff, ?_, hw.content hd hoff hw.read⟩
  have hty : (t.node ip).type ≠ 0 := by
    rw [hw.header]
    have htype := Fs.view_eq_some hd
    rw [htype.1]
    exact htype.2.1
  have hsize := (hw.good.filled ip).size_le hty
  have hle : off + tot ≤ (t.node ip).size := by
    rw [hw.header]
    exact le_max_right _ _
  have hsmall : maxfile * bsize < 2 ^ 32 := by decide
  omega

theorem argfd_run (hfd : fd < nofile) (hof : σ.ofile p fd = some f) :
    argfd p fd σ = .ok (some f, σ) := by
  simp only [argfd, hfd, if_true]
  rw [← hof]
  rfl

theorem fileOf_run (hfd : fd < nofile) (hof : σ.ofile p fd = some f) :
    fileOf p fd σ = .ok (some (σ.ftable f), σ) := by
  have hget : fileOf p fd σ = (argfd p fd >>= fun r => pure (r.map σ.ftable)) σ := rfl
  rw [hget, bind_ok (argfd_run hfd hof)]
  rfl

theorem iunlock_same (i : Nat) : Ends (iunlock i) s (fun _ t => t = s) (fun _ => True) := by
  refine Ends.get_bind ?_
  split_ifs
  · exact Ends.throw trivial
  · exact Ends.pure rfl

theorem writeAt_whole (h : Good start σ.fs) (htx : 1 ≤ σ.fs.outstanding) (hn : n < 2 ^ 32)
    (hfd : fd < nofile) (hof : σ.ofile p fd = some f) (htype : (σ.ftable f).type = .inode)
    (hwr : (σ.ftable f).writable = true) :
    Ends (writeAt p fd src n) σ (fun r τ => r = (n : Int) → τ.ofile = σ.ofile ∧
      τ.ftable f = { σ.ftable f with off := (σ.ftable f).off + n } ∧
      (σ.ftable f).off ≤ (σ.fs.content (σ.ftable f).ip).length ∧
      τ.fs.content (σ.ftable f).ip =
        splice (σ.fs.content (σ.ftable f).ip) (σ.ftable f).off (bytes src n)) (fun _ => True) := by
  refine Ends.bind_ok (argfd_run hfd hof) (Ends.get_bind ?_)
  dsimp only
  rw [if_neg (by simp [htype, hwr])]
  refine (onFs_ends (ilock_spec h (fun _ => trivial) (fun _ => trivial))).bind ?_
  rintro _ υ ⟨hfs, d, hd, hdυ, hb, hl⟩
  have hsame : υ.fs.content (σ.ftable f).ip = σ.fs.content (σ.ftable f).ip := by
    rw [(Fs.view_eq_some hdυ).2.2.2.2.2, (Fs.view_eq_some hd).2.2.2.2.2]
  refine (onFs_ends (writei_whole hb.good hl (hb.open htx) hn)).bind ?_
  rintro r ρ ⟨hρfs, hwhole⟩
  have hall : OnlyFs σ ρ := hfs.trans hρfs
  have hmove : moveOff f r ρ = .ok ((), ρ.withFile f { ρ.ftable f with
      off := if 0 < r then u32 ((ρ.ftable f).off + r.toNat) else (ρ.ftable f).off }) := rfl
  refine Ends.bind_ok hmove ?_
  generalize hπ : ρ.withFile f { ρ.ftable f with
      off := if 0 < r then u32 ((ρ.ftable f).off + r.toNat) else (ρ.ftable f).off } = π
  have hπfs : π.fs = ρ.fs := by rw [← hπ]; rfl
  have hπof : π.ofile = σ.ofile := by rw [← hπ, hall]; rfl
  have hfile : ρ.ftable f = σ.ftable f := by rw [hall]
  refine (onFs_ends (iunlock_same (σ.ftable f).ip)).bind (fun _ τ hτ => Ends.pure ?_)
  obtain ⟨hτfs, hτ⟩ := hτ
  obtain rfl : τ = π := by rw [hτfs, hτ]
  rintro rfl
  obtain ⟨hoff, hlt, hcontent⟩ := hwhole rfl
  rw [hsame] at hoff hcontent
  refine ⟨hπof, ?_, hoff, by rw [hπfs, hcontent]⟩
  have hnew : (if (0 : Int) < n then u32 ((ρ.ftable f).off + (n : Int).toNat)
      else (ρ.ftable f).off) = (σ.ftable f).off + n := by
    rw [hfile, Int.toNat_natCast, u32]
    split_ifs with hpos
    · exact Nat.mod_eq_of_lt hlt
    · omega
  rw [← hπ, hnew, hfile]
  exact update_self f _ _

end Pieces

/-- A program that writes `parts`, each through a descriptor in `D`, as long as
every write is complete. -/
inductive Emits (D : Nat → Prop) : Op Int → List (List Byte) → Prop
  | done (r : Int) : Emits D (.done r) []
  | fileOf {fd : Nat} {k : Option File → Op Int} {parts : List (List Byte)} (hfd : D fd)
      (hk : ∀ ff : File, ff.type = .inode → ff.writable = true → Emits D (k (some ff)) parts) :
      Emits D (.step (.fileOf fd) k) parts
  | beginOp {k : Unit → Op Int} {parts : List (List Byte)} (hk : Emits D (k ()) parts) :
      Emits D (.step .beginOp k) parts
  | endOp {k : Unit → Op Int} {parts : List (List Byte)} (hk : Emits D (k ()) parts) :
      Emits D (.step .endOp k) parts
  | writeAt {fd n : Nat} {src : Nat → Option Byte} {k : Int → Op Int} {parts : List (List Byte)}
      (hfd : D fd) (hk : Emits D (k n) parts) :
      Emits D (.step (.writeAt fd src n) k) (bytes src n :: parts)

section Programs

variable {D : Nat → Prop} {fd n i : Nat} {src : Nat → Option Byte}

theorem maxChunk_pos : 0 < maxChunk := by decide

theorem bytes_drop_take (src : Nat → Option Byte) (n i : Nat) :
    ((bytes src n).drop i).take maxChunk = bytes (fun a => src (i + a)) (min (n - i) maxChunk) := by
  refine ext_getElem? (fun a => ?_)
  unfold bytes
  rw [getElem?_take, getElem?_drop]
  simp only [getElem?_map]
  by_cases ha : a < min (n - i) maxChunk
  · rw [if_pos (by omega), getElem?_range ha, getElem?_range (by omega)]
    rfl
  · rw [getElem?_eq_none (l := range (min (n - i) maxChunk)) (by rw [length_range]; omega)]
    split_ifs with hm
    · rw [getElem?_eq_none (by rw [length_range]; omega)]
      rfl
    · rfl

variable (src) in
theorem writeChunks_emits (hfd : D fd) (fuel : Nat) (hfuel : n - i ≤ fuel) (r : Nat → Int) :
    Emits D (writeChunks fd src n fuel i >>= fun i => pure (r i))
      (pieces maxChunk ((bytes src n).drop i)) := by
  induction fuel generalizing i with
  | zero =>
    rw [drop_of_length_le (by rw [length_bytes]; omega), pieces_nil]
    exact Emits.done _
  | succ fuel ih =>
    unfold writeChunks
    split_ifs with hlt
    · have hne : (bytes src n).drop i ≠ [] := by
        rw [Ne, drop_eq_nil_iff, length_bytes]
        omega
      rw [pieces_cons maxChunk_pos hne, bytes_drop_take]
      refine Emits.beginOp (Emits.writeAt hfd (Emits.endOp ?_))
      have hrest : ((bytes src n).drop i).drop maxChunk =
          (bytes src n).drop (i + min (n - i) maxChunk) := by
        rw [drop_drop]
        rcases le_total (n - i) maxChunk with hle | hle
        · rw [min_eq_left hle, drop_of_length_le (by rw [length_bytes]; omega),
            drop_of_length_le (by rw [length_bytes]; omega)]
        · rw [min_eq_right hle]
      rw [hrest]
      have hm := maxChunk_pos
      have hih := ih (i := i + min (n - i) maxChunk) (by omega)
      simp only [Prog.bind, ne_eq, not_true_eq_false, if_false]
      exact hih
    · rw [drop_of_length_le (by rw [length_bytes]; omega), pieces_nil]
      exact Emits.done _

theorem sysWrite_emits (hfd : D fd) (n io : Int) :
    Emits D (sysWrite fd src n io) (pieces maxChunk (bytes src n.toNat)) := by
  refine Emits.fileOf hfd (fun ff htype hwr => ?_)
  have hemits := writeChunks_emits (n := n.toNat) (i := 0) src hfd n.toNat (by omega)
    (fun i => if (i : Int) = n then n else -1)
  simpa [Prog.bind, hwr, htype] using hemits

end Programs

/-- The file `f` as it was in `σ`, with the pieces written after its offset. -/
structure Sharing (σ : Sys) (f : FileId) (w : SysWorld) (g : Sent) : Prop where
  ofile : w.st.ofile = σ.ofile
  file : w.st.ftable f = { σ.ftable f with off := (σ.ftable f).off + g.text.length }
  content : w.st.fs.content (σ.ftable f).ip =
    splice (σ.fs.content (σ.ftable f).ip) (σ.ftable f).off g.text
  start : g.text = [] ∨ (σ.ftable f).off ≤ (σ.fs.content (σ.ftable f).ip).length
  progress : ∀ p, ∃ rest, Emits (fun fd => fd < nofile ∧ σ.ofile p fd = some f) (w.prog p) rest ∧
    ofProc p g.parts ++ rest = (ofProc p g.calls).flatMap (pieces maxChunk)

section Sharing

variable {start : Nat} {σ : Sys} {f : FileId} {w w' : SysWorld} {g : Sent} {p q : ProcId}
  {held : ProcId → Held}

theorem ofProc_append_self (p : ProcId) (l : List (ProcId × List Byte)) (x : List Byte) :
    ofProc p (l ++ [(p, x)]) = ofProc p l ++ [x] := by
  simp [ofProc]

theorem ofProc_append_of_ne (hq : q ≠ p) (l : List (ProcId × List Byte)) (x : List Byte) :
    ofProc q (l ++ [(p, x)]) = ofProc q l := by
  simp [ofProc, hq.symm]

theorem Sent.text_append (g : Sent) (x : List Byte) :
    ({ g with parts := g.parts ++ [(p, x)] } : Sent).text = g.text ++ x := by
  simp [Sent.text]

theorem Sharing.call (h : Sharing σ f w g) {fd : Nat} {src : Nat → Option Byte} {n io : Int}
    (hfd : fd < nofile ∧ σ.ofile p fd = some f) {r : Int} (hp : w.prog p = .done r) :
    Sharing σ f { w with prog := update w.prog p (sysWrite fd src n io) }
      { g with calls := g.calls ++ [(p, bytes src n.toNat)] } := by
  refine ⟨h.ofile, h.file, h.content, h.start, fun q => ?_⟩
  dsimp only
  obtain ⟨rest, hemits, hrest⟩ := h.progress q
  by_cases hq : q = p
  · subst hq
    rw [hp] at hemits
    cases hemits
    refine ⟨pieces maxChunk (bytes src n.toNat), ?_, ?_⟩
    · rw [update_self]
      exact sysWrite_emits hfd n io
    · rw [ofProc_append_self, flatMap_append, ← hrest]
      simp
  · refine ⟨rest, ?_, ?_⟩
    · rw [update_of_ne hq]
      exact hemits
    · rw [ofProc_append_of_ne hq]
      exact hrest

theorem Sharing.quiet (h : Sharing σ f w g) {τ : Sys} (hof : τ.ofile = w.st.ofile)
    (hft : τ.ftable f = w.st.ftable f)
    (hc : τ.fs.content (σ.ftable f).ip = w.st.fs.content (σ.ftable f).ip) {k : Op Int}
    (hk : ∀ rest, Emits (fun fd => fd < nofile ∧ σ.ofile p fd = some f) (w.prog p) rest →
      Emits (fun fd => fd < nofile ∧ σ.ofile p fd = some f) k rest) :
    Sharing σ f ⟨τ, update w.prog p k⟩ g := by
  refine ⟨hof.trans h.ofile, hft.trans h.file, hc.trans h.content, h.start, fun q => ?_⟩
  dsimp only
  obtain ⟨rest, hemits, hrest⟩ := h.progress q
  refine ⟨rest, ?_, hrest⟩
  rw [update_apply]
  split_ifs with hq
  · subst hq
    exact hk rest hemits
  · exact hemits

theorem Sharing.write (h : Sharing σ f w g) {τ : Sys} {fd n : Nat} {src : Nat → Option Byte}
    {k : Int → Op Int} (hp : w.prog p = .step (.writeAt fd src n) k)
    (hof : τ.ofile = w.st.ofile)
    (hft : τ.ftable f = { w.st.ftable f with off := (w.st.ftable f).off + n })
    (hoff : (w.st.ftable f).off ≤ (w.st.fs.content (w.st.ftable f).ip).length)
    (hc : τ.fs.content (w.st.ftable f).ip =
      splice (w.st.fs.content (w.st.ftable f).ip) (w.st.ftable f).off (bytes src n)) :
    Sharing σ f ⟨τ, update w.prog p (k n)⟩ { g with parts := g.parts ++ [(p, bytes src n)] } := by
  have hip : (w.st.ftable f).ip = (σ.ftable f).ip := by rw [h.file]
  have hoff' : (w.st.ftable f).off = (σ.ftable f).off + g.text.length := by rw [h.file]
  rw [hip, hoff'] at hc hoff
  have hstart : (σ.ftable f).off ≤ (σ.fs.content (σ.ftable f).ip).length := by
    rcases h.start with hnil | hle
    · rw [h.content, hnil, splice_nil, length_nil] at hoff
      exact hoff
    · exact hle
  refine ⟨hof.trans h.ofile, ?_, ?_, .inr hstart, fun q => ?_⟩
  · rw [hft, h.file, Sent.text_append, length_append, length_bytes, Nat.add_assoc]
  · rw [Sent.text_append, ← splice_splice hstart, ← h.content]
    exact hc
  · dsimp only
    obtain ⟨rest, hemits, hrest⟩ := h.progress q
    by_cases hq : q = p
    · subst hq
      rw [hp] at hemits
      cases hemits with
      | writeAt hfd hk =>
        rename_i rest
        refine ⟨rest, ?_, ?_⟩
        · rw [update_self]
          exact hk
        · rw [ofProc_append_self, ← hrest]
          simp
    · refine ⟨rest, ?_, ?_⟩
      · rw [update_of_ne hq]
        exact hemits
      · rw [ofProc_append_of_ne hq]
        exact hrest

theorem Sharing.step (h : Sharing σ f w g) (htype : (σ.ftable f).type = .inode)
    (hwr : (σ.ftable f).writable = true)
    (hc : Interleave.Config contract (SysInv start) {} w held)
    (hm : MeetsNext (fun p a σ => writesAll p a σ = true) w (.step p : SysEvent))
    (hf : sysFire w (.step p) = some (.ok w')) :
    Sharing σ f w' (g.note w (.step p)) := by
  obtain ⟨rest, hemits, -⟩ := h.progress p
  have hobeys := hc.obeys p
  have hfile : (w.st.ftable f).type = .inode ∧ (w.st.ftable f).writable = true := by
    rw [h.file]
    exact ⟨htype, hwr⟩
  generalize hp : w.prog p = prog at hemits hobeys
  cases hemits with
  | done r => simp [sysFire, Interleave.fire, hp] at hf
  | beginOp hk =>
    obtain ⟨r, τ, hex, rfl⟩ := fire_step_eq hp hf
    have hτ := (Prod.mk.inj (Except.ok.inj hex)).2
    have hnote : g.note w (.step p) = g := by simp [Sent.note, hp]
    rw [hnote]
    refine h.quiet (by rw [← hτ]) (by rw [← hτ]) (by rw [← hτ]; rfl) (fun rest hemits => ?_)
    rw [hp] at hemits
    cases hemits with
    | beginOp hk => exact hk
  | endOp hk =>
    obtain ⟨r, τ, hex, rfl⟩ := fire_step_eq hp hf
    have hτ := (Prod.mk.inj (Except.ok.inj hex)).2
    have hnote : g.note w (.step p) = g := by simp [Sent.note, hp]
    rw [hnote]
    refine h.quiet (by rw [← hτ]) (by rw [← hτ]) (by rw [← hτ]; rfl) (fun rest hemits => ?_)
    rw [hp] at hemits
    cases hemits with
    | endOp hk => exact hk
  | fileOf hfd hk =>
    obtain ⟨r, τ, hex, rfl⟩ := fire_step_eq hp hf
    have hnote : g.note w (.step p) = g := by simp [Sent.note, hp]
    rw [hnote]
    obtain ⟨rfl, rfl⟩ : r = some (w.st.ftable f) ∧ τ = w.st := by
      have hres := fileOf_run hfd.1 ((congrFun (congrFun h.ofile p) _).trans hfd.2)
      have hinj := Prod.mk.inj (Except.ok.inj (hres.symm.trans hex))
      exact ⟨hinj.1.symm, hinj.2.symm⟩
    refine h.quiet rfl rfl rfl (fun rest hemits => ?_)
    rw [hp] at hemits
    cases hemits with
    | fileOf hfd hk => exact hk _ hfile.1 hfile.2
  | writeAt hfd hk =>
    rename_i n src k parts
    obtain ⟨r, τ, hex, rfl⟩ := fire_step_eq hp hf
    have hnote : g.note w (.step p) = { g with parts := g.parts ++ [(p, bytes src n)] } := by
      simp [Sent.note, hp]
    rw [hnote]
    have hneeds : (held p).inside = true ∧ n < 2 ^ 32 := hobeys.1
    have hrun : writeAt p _ src n w.st = .ok (r, τ) := hex
    obtain rfl : r = n := by simpa [MeetsNext, writesAll, hp, hrun] using hm
    have htx : 1 ≤ w.st.fs.outstanding := by
      rw [hc.inv.outstanding]
      have hle := single_le_sum (f := fun q => (held q).inside.toNat)
        (fun _ _ => Nat.zero_le _) (mem_univ p)
      simpa only [hneeds.1, Bool.toNat_true] using hle
    obtain ⟨hof, hft, hoff, hcontent⟩ := (writeAt_whole hc.inv.good htx hneeds.2 hfd.1
      ((congrFun (congrFun h.ofile p) _).trans hfd.2) hfile.1 hfile.2).ok hrun rfl
    exact h.write hp hof hft hoff hcontent

theorem Sharing.fire (h : Sharing σ f w g) (htype : (σ.ftable f).type = .inode)
    (hwr : (σ.ftable f).writable = true)
    (hc : Interleave.Config contract (SysInv start) {} w held) {ev : SysEvent}
    (hev : writesTo σ f ev = true) (hm : MeetsNext (fun p a σ => writesAll p a σ = true) w ev)
    (hf : sysFire w ev = some (.ok w')) : Sharing σ f w' (g.note w ev) := by
  cases ev with
  | step p => exact h.step htype hwr hc hm hf
  | call p c =>
    cases c with
    | write fd src n io =>
      cases hp : w.prog p with
      | step a k => simp [sysFire, Interleave.fire, hp] at hf
      | done r =>
        have hw : w' = { w with prog := update w.prog p (sysWrite fd src n io) } := by
          simpa [sysFire, Interleave.fire, hp, Call.op] using hf.symm
        rw [hw]
        exact h.call (by simpa [writesTo] using hev) hp
    | _ => simp [writesTo] at hev

theorem Sharing.refl (hidle : ∀ p, ∃ r, w.prog p = .done r) (f : FileId) : Sharing w.st f w {} := by
  refine ⟨rfl, rfl, (splice_nil _ _).symm, .inl rfl, fun p => ⟨[], ?_, rfl⟩⟩
  obtain ⟨r, hr⟩ := hidle p
  rw [hr]
  exact Emits.done r

end Sharing

section Sums

variable {p : ProcId}

theorem sum_ofProc (l : List (ProcId × List Byte)) :
    ((l.map Prod.snd).map List.length).sum = ∑ p, ((ofProc p l).map List.length).sum := by
  induction l with
  | nil => simp [ofProc]
  | cons x l ih =>
    have hcons : ∀ p, ((ofProc p (x :: l)).map length).sum =
        (if x.1 = p then x.2.length else 0) + ((ofProc p l).map length).sum := by
      intro p
      by_cases hp : x.1 = p
      · simp [ofProc, hp]
      · simp [ofProc, hp]
    simp only [hcons, sum_add_distrib, sum_ite_eq, mem_univ, if_true]
    rw [← ih]
    simp

theorem sum_pieces {m : Nat} (hm : 0 < m) (xs : List (List Byte)) :
    ((xs.flatMap (pieces m)).map List.length).sum = (xs.map List.length).sum := by
  induction xs with
  | nil => rfl
  | cons x xs ih =>
    have hx : ((pieces m x).map length).sum = x.length := by
      rw [← length_flatten, flatten_pieces hm]
    rw [flatMap_cons, map_append, sum_append, ih, hx]
    simp

theorem Sent.length_text {g : Sent}
    (h : ∀ p, ofProc p g.parts = (ofProc p g.calls).flatMap (pieces maxChunk)) :
    g.text.length = ((g.calls.map Prod.snd).map List.length).sum := by
  rw [Sent.text, length_flatten, sum_ofProc, sum_ofProc]
  refine sum_congr rfl (fun p _ => ?_)
  rw [h p, sum_pieces maxChunk_pos]

end Sums

section Running

variable {start : Nat} {w₀ w w' : SysWorld} {pre es : List SysEvent} {f : FileId}

theorem sharing_of_run (h : Sane start w₀) (hpre : sysMachine.exec w₀ pre = some w)
    (hidle : ∀ p, ∃ r, w.prog p = .done r) (htype : (w.st.ftable f).type = .inode)
    (hwr : (w.st.ftable f).writable = true) (hes : ∀ ev ∈ es, writesTo w.st f ev = true)
    (hall : sysMachine.Along (MeetsNext (fun p a σ => writesAll p a σ = true)) w es)
    (hrun : sysMachine.exec w es = some w') : Sharing w.st f w' (sent w es) := by
  have hto : sysMachine.Along (fun _ ev => writesTo w.st f ev = true) w es :=
    Machine.along_of_forall (fun ev hev _ => hes ev hev)
  have hinv : Sharing w.st f w' (sent w es) ∧
      ∃ held, Interleave.Config contract (SysInv start) {} w' held := by
    refine Machine.watch_inv (I := fun u g => Sharing w.st f u g ∧
      ∃ held, Interleave.Config contract (SysInv start) {} u held) Sent.note
      (fun u ev v g hstep hR hI => ?_) hrun (Machine.along_and hto hall)
      ⟨Sharing.refl hidle f, _, h.run hpre⟩
    obtain ⟨hsharing, held, hc⟩ := hI
    have hf := machine_step.mp hstep
    exact ⟨hsharing.fire htype hwr hc hR.1 hR.2 hf, _,
      hc.fire (sys_sound start) (fun _ c => call_closed c) (meetsNext_true u ev) hf⟩
  exact hinv.1

/-- Writers that share an open file lose nothing: the pieces written stand one
behind the other from the first offset on, each process has its own in its own
order, and a write that fits into one piece is one. -/
theorem shared_writes (h : Sane start w₀) (hpre : sysMachine.exec w₀ pre = some w)
    (hidle : ∀ p, ∃ r, w.prog p = .done r) (htype : (w.st.ftable f).type = .inode)
    (hwr : (w.st.ftable f).writable = true) (hes : ∀ ev ∈ es, writesTo w.st f ev = true)
    (hall : sysMachine.Along (MeetsNext (fun p a σ => writesAll p a σ = true)) w es)
    (hrun : sysMachine.exec w es = some w') :
    w'.st.fs.content (w.st.ftable f).ip = splice (w.st.fs.content (w.st.ftable f).ip)
      (w.st.ftable f).off ((sent w es).parts.map Prod.snd).flatten ∧
    (w'.st.ftable f).off = (w.st.ftable f).off + ((sent w es).parts.map Prod.snd).flatten.length ∧
    (∀ p, ofProc p (sent w es).parts <+: (ofProc p (sent w es).calls).flatMap (pieces maxChunk)) ∧
    (∀ p r, w'.prog p = .done r →
      ofProc p (sent w es).parts = (ofProc p (sent w es).calls).flatMap (pieces maxChunk)) ∧
    ((∀ p, ∃ r, w'.prog p = .done r) → (w'.st.ftable f).off =
      (w.st.ftable f).off + (((sent w es).calls.map Prod.snd).map List.length).sum) ∧
    ∀ x ∈ (sent w es).calls, x.2 ≠ [] → x.2.length ≤ maxChunk → pieces maxChunk x.2 = [x.2] := by
  have hs := sharing_of_run h hpre hidle htype hwr hes hall hrun
  have hoff : (w'.st.ftable f).off = (w.st.ftable f).off + (sent w es).text.length := by
    rw [hs.file]
  have hdone : ∀ p r, w'.prog p = .done r →
      ofProc p (sent w es).parts = (ofProc p (sent w es).calls).flatMap (pieces maxChunk) := by
    intro p r hp
    obtain ⟨rest, hemits, hrest⟩ := hs.progress p
    rw [hp] at hemits
    cases hemits
    rw [← hrest, append_nil]
  refine ⟨hs.content, hoff, fun p => ?_, hdone, fun hend => ?_, fun x _ hne hle => ?_⟩
  · obtain ⟨rest, -, hrest⟩ := hs.progress p
    exact ⟨rest, hrest⟩
  · rw [hoff, Sent.length_text (fun p => ?_)]
    obtain ⟨r, hr⟩ := hend p
    exact hdone p r hr
  · exact pieces_of_le hne hle

def firstFile : FileId := ⟨0, by decide⟩

def makeShared : List SysEvent :=
  alone initProc (.openFile (some pathA) (oCreate ||| oWronly)) 7 ++
    alone initProc (.fork childProc true) 1

def twoWriters : List SysEvent :=
  [.call initProc (.write 0 (fun i => some (BitVec.ofNat 8 (i + 1))) 2 0), .step initProc,
    .call childProc (.write 0 (fun i => some (BitVec.ofNat 8 (i + 7))) 3 0), .step childProc,
    .step initProc, .step childProc, .step childProc, .step initProc, .step childProc,
    .step initProc]

theorem shared_writes_twoWriters :
    ∃ w w', sysMachine.exec (bootWorld (image rootData)) makeShared = some w ∧
      sysMachine.exec w twoWriters = some w' ∧
      w'.st.fs.content (w.st.ftable firstFile).ip = splice
        (w.st.fs.content (w.st.ftable firstFile).ip) (w.st.ftable firstFile).off
        ((sent w twoWriters).parts.map Prod.snd).flatten := by
  have hcheck : (sysMachine.exec (bootWorld (image rootData)) makeShared).any (fun w =>
      (∀ p, w.idle p = true) ∧ (w.st.ftable firstFile).type = .inode ∧
      (w.st.ftable firstFile).writable = true ∧
      (∀ ev ∈ twoWriters, writesTo w.st firstFile ev = true) ∧
      sysMachine.Along (MeetsNext (fun p a σ => writesAll p a σ = true)) w twoWriters ∧
      (sysMachine.exec w twoWriters).isSome = true) = true := by
    decide +kernel
  obtain ⟨w, hw, hall⟩ := (Option.any_eq_true _ _).mp hcheck
  obtain ⟨hidle, htype, hwr, hto, halong, hsome⟩ := of_decide_eq_true hall
  obtain ⟨w', hw'⟩ := Option.isSome_iff_exists.mp hsome
  have h := shared_writes (boot_sane (by decide)) hw (fun p => SysWorld.done_of_idle (hidle p))
    htype hwr hto halong hw'
  exact ⟨w, w', hw, hw', h.1⟩

end Running

end Xv6
