import Xv6.Transactions

/-! Every call opens and closes its transactions in turn, and every change of the
disk is made inside one. -/

namespace Xv6

open Interleave Fallible FsM Finset

/-- The step may come in a process that is inside a transaction or not. -/
structure Act.Brackets (a : Act) (inside : Bool) : Prop where
  beginOp : a = .beginOp → inside = false
  endOp : a = .endOp → inside = true
  logs : a.Logs → inside = true

def bracketing : Contract Act.Res Bool where
  pre a b := a.Brackets b ∧ ∀ msg, a = .panic msg → OtherPanic msg
  may a _ r := allows a r
  post a _ b := a.bracket b

/-- Which processes are inside a transaction behind a run in which none was. -/
def insideAt (w : SysWorld) (es : List SysEvent) : ProcId → Bool :=
  heldBehind (fun p a => a.exec p) (fun _ c => c.op) bracketing (fun _ => false) w es

theorem call_brackets (c : Call) : Obeys bracketing c.op false (fun _ b => b = false) := by
  refine Obeys.map (D := bracketing) Held.inside (fun a h hneeds => ⟨⟨?_, ?_, ?_⟩, ?_⟩) (fun _ _ _ h => h)
    (fun a r h => leaves_inside r) (call_closed c) (fun _ _ h => by rw [h])
  · rintro rfl
    exact hneeds
  · rintro rfl
    exact hneeds
  · intro hl
    exact hl.inside hneeds
  · rintro msg rfl
    have hmsg : msg ∈ ["filewrite", "fileread"] := hneeds
    simp only [List.mem_cons, List.not_mem_nil, or_false] at hmsg
    rcases hmsg with rfl | rfl <;> decide

/-- The number of open transactions is that of the processes inside one. -/
structure Bracketed (σ : Sys) (inside : ProcId → Bool) : Prop where
  idle : σ.IdleFiles
  outstanding : σ.fs.outstanding = ∑ p, (inside p).toNat

theorem bracket_sound : Sound (fun p a => a.exec p) bracketing Bracketed (fun _ => True)
    (fun _ _ _ => True) := by
  intro σ inside p a hinv hpre _
  refine (exec_tended hpre.2 hinv.idle).mono (fun r τ hτ => ⟨hτ.2.2, hτ.2.1, ?_⟩)
    (fun _ _ => trivial)
  rw [hτ.1]
  exact count_bracket hpre.1.beginOp hpre.1.endOp hinv.outstanding

section Running

variable {start : Nat} {w w' w'' : SysWorld} {es : List SysEvent} {p : ProcId}

theorem Started.bracketed (h : Started w) (hrun : sysMachine.exec w es = some w') :
    Interleave.Config bracketing Bracketed false w' (insideAt w es) := by
  have hstart : Interleave.Config bracketing Bracketed false w (fun _ => false) := by
    refine ⟨⟨h.files, ?_⟩, fun p => ?_⟩
    · exact h.outstanding.trans (sum_eq_zero (fun _ _ => rfl)).symm
    · obtain ⟨r, hr⟩ := h.idle p
      rw [hr]
      rfl
  exact hstart.run bracket_sound (fun _ c => call_brackets c) (along_true es) hrun

def Reads (w : SysWorld) (p : ProcId) : Prop := ∃ fd dst n k, w.prog p = .step (.readAt fd dst n) k

theorem Started.step_brackets (h : Started w) (hrun : sysMachine.exec w es = some w') {a : Act}
    {k : a.Res → Op Int} (hp : w'.prog p = .step a k) :
    a.Brackets (insideAt w es p) ∧ ∀ msg, a = .panic msg → OtherPanic msg := by
  have ho := (h.bracketed hrun).obeys p
  rw [hp] at ho
  exact ho.1

theorem Started.step_logs (h : Started w) (hrun : sysMachine.exec w es = some w')
    (hr : (∃ start, Sane start w) ∨ ¬ Reads w' p) :
    sysFire w' (.step p) ≠ some (.error "log_write outside of trans") ∧
    (insideAt w es p = false → ∀ w'', sysFire w' (.step p) = some (.ok w'') →
      w''.st.fs.disk = w'.st.fs.disk) := by
  have hconf := h.bracketed hrun
  have hmain : ∀ {a : Act} {k : a.Res → Op Int}, w'.prog p = .step a k →
      insideAt w es p = false → Ends (a.exec p) w'.st (fun _ τ => τ.fs.disk = w'.st.fs.disk)
        OtherPanic := by
    intro a k hp hout
    obtain ⟨hb, hmsg⟩ := h.step_brackets hrun hp
    have hl : ¬ a.Logs := fun hl => by simp [hb.logs hl] at hout
    by_cases hread : ∃ fd dst n, a = .readAt fd dst n
    · obtain ⟨fd, dst, n, rfl⟩ := hread
      obtain ⟨start, hw⟩ := hr.resolve_right (fun hn => hn ⟨fd, dst, n, k, hp⟩)
      have hset := hw.run hrun
      have ho := hset.obeys p
      rw [hp] at ho
      exact readAt_silent hset.inv.good hset.inv.idle fd dst ho.1
    · exact exec_silent hconf.inv.idle hmsg hl (fun fd dst n ha => hread ⟨fd, dst, n, ha⟩)
  refine ⟨fun hf => ?_, fun hout w'' hf => ?_⟩
  · obtain ⟨a, k, hp, he⟩ := fire_step_error hf
    by_cases hin : insideAt w es p = true
    · have hle : 1 ≤ w'.st.fs.outstanding := by
        rw [hconf.inv.outstanding]
        refine le_trans ?_ (single_le_sum (fun _ _ => Nat.zero_le _) (mem_univ p))
        simp [hin]
      have hfail := (exec_tended (h.step_brackets hrun hp).2 hconf.inv.idle).error he
      rcases hfail with hfail | hfail
      · exact hfail rfl
      · omega
    · exact (hmain hp (by simpa using hin)).error he rfl
  · obtain ⟨a, k, r, hp, he⟩ := fire_step_ok hf
    exact (hmain hp hout).ok he

/-- In every run each process opens and closes its transactions in turn and
leaves its calls outside of them. The steps that change the disk are inside. -/
theorem transaction_bracketing (h : Started w) (hrun : sysMachine.exec w es = some w') :
    (∀ p a k, w'.prog p = .step a k → a.Brackets (insideAt w es p)) ∧
    (∀ p r, w'.prog p = .done r → insideAt w es p = false) ∧
    w'.st.fs.outstanding = (Finset.univ.filter (fun p => insideAt w es p = true)).card ∧
    ∀ p, (∃ start, Sane start w) ∨ ¬ Reads w' p →
      sysFire w' (.step p) ≠ some (.error "log_write outside of trans") ∧
      (insideAt w es p = false → ∀ w'', sysFire w' (.step p) = some (.ok w'') →
        w''.st.fs.disk = w'.st.fs.disk) := by
  have hconf := h.bracketed hrun
  refine ⟨fun p a k hp => (h.step_brackets hrun hp).1, fun p r hp => hconf.idle_of_done hp, ?_,
    fun p hr => h.step_logs hrun hr⟩
  rw [hconf.inv.outstanding, card_filter]
  refine sum_congr rfl (fun p _ => ?_)
  cases insideAt w es p <;> rfl

theorem transaction_bracketing_mkdir :
    ∃ w', sysMachine.exec (bootWorld (image rootData)) (alone initProc (.mkdir (some pathA)) 4) = some w' ∧
      w'.st.fs.outstanding = (Finset.univ.filter (fun p => insideAt (bootWorld (image rootData))
        (alone initProc (.mkdir (some pathA)) 4) p = true)).card ∧
      insideAt (bootWorld (image rootData)) (alone initProc (.mkdir (some pathA)) 4) initProc = true ∧
      ∀ p, sysFire w' (.step p) ≠ some (.error "log_write outside of trans") := by
  obtain ⟨w', hw⟩ := Option.isSome_iff_exists.mp (show (sysMachine.exec (bootWorld (image rootData))
    (alone initProc (.mkdir (some pathA)) 4)).isSome = true by decide +kernel)
  have hset : Sane 10 (bootWorld (image rootData)) := boot_sane (by decide)
  have h := transaction_bracketing hset.started hw
  exact ⟨w', hw, h.2.2.1, by decide +kernel, fun p => (h.2.2.2 p (.inl ⟨10, hset⟩)).1⟩

end Running

def crossRead : List SysEvent :=
  crossWrite ++ alone initProc (.openFile (some pathB) oRdonly) 6 ++
    alone initProc (.read 1 (fun _ => true) 12289 0) 1

theorem log_write_from_crossImage : ∃ w', Started (bootWorld crossImage) ∧
    (∀ i, (bootWorld crossImage).st.fs.Filled i) ∧
    sysMachine.exec (bootWorld crossImage) crossRead = some w' ∧
    insideAt (bootWorld crossImage) crossRead initProc = false ∧
    sysFire w' (.step initProc) = some (.error "log_write outside of trans") := by
  have hrun : (sysMachine.exec (bootWorld crossImage) crossRead).map (fun w =>
      (sysFire w (.step initProc)).map (Except.map (fun _ => ()))) =
        some (some (.error "log_write outside of trans")) := by
    decide +kernel
  obtain ⟨w', hw, hfire⟩ := Option.map_eq_some_iff.mp hrun
  obtain ⟨r, hr, hmap⟩ := Option.map_eq_some_iff.mp hfire
  refine ⟨w', boot_started (fun _ => rfl) rfl, cross_filled, hw, by decide +kernel, ?_⟩
  cases r with
  | ok u => simp [Except.map] at hmap
  | error e =>
    rw [hr]
    simpa [Except.map] using hmap

end Xv6
