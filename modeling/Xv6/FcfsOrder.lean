import Xv6.Occupancy
import Xv6.SchedulerPass

/-! FCFS against the order of creation. The scheduler knows the tick in which a
process was created; the history below also counts ticks without wrapping and
numbers the processes. -/

namespace Xv6

open Function Option

variable {cfg : Config} {s t : Kernel} {e : Event}

/-- For each slot, the number of its process among those created, the tick in which
`allocproc` filled it, and how many numbers had been drawn by then. -/
structure Births where
  now : Nat
  made : Nat
  drawn : Nat → Nat
  order : Nat → Nat
  tick : Nat → Nat
  seen : Nat → Nat

def Births.record (g : Births) (_ : Kernel) : Event → Births
  | .timer => { g with now := g.now + 1 }
  | .allocpid i => { g with made := g.made + 1, drawn := Function.update g.drawn i (g.made + 1) }
  | .allocproc i _ =>
    { g with
      order := Function.update g.order i (g.drawn i)
      tick := Function.update g.tick i g.now
      seen := Function.update g.seen i g.made }
  | _ => g

def birthsStart : Births := ⟨0, 1, fun _ => 0, fun _ => 1, fun _ => 0, fun _ => 1⟩

def births (cfg : Config) (es : List Event) : Births :=
  (kernel cfg).watch Births.record birthsStart boot es

structure Recorded (s : Kernel) (g : Births) : Prop where
  ticks : s.ticks = u32 g.now
  nextpid : s.nextpid = i32 (g.made + 1)
  fresh : ∀ i pid, s.fresh i = some pid → pid = i32 (g.drawn i) ∧ 1 ≤ g.drawn i ∧ g.drawn i ≤ g.made
  ctime : ∀ i, (s.proc i).state ≠ .unused → (s.proc i).ctime = u32 (g.tick i)
  pid : ∀ i, (s.proc i).state ≠ .unused → (s.proc i).pid = i32 (g.order i)
  past : ∀ i, (s.proc i).state ≠ .unused → 1 ≤ g.order i ∧ g.order i ≤ g.made ∧ g.tick i ≤ g.now
  sorted : ∀ i j, (s.proc i).state ≠ .unused → (s.proc j).state ≠ .unused →
    g.seen i < g.order j → g.tick i ≤ g.tick j

/-- The events that draw a number, fill a slot or count a tick. -/
def Event.Clerical : Event → Prop
  | .timer | .allocpid _ | .allocproc _ _ => True
  | _ => False

theorem step_clerical (h : step cfg s e = some t) (hno : ¬ e.Clerical) :
    t.ticks = s.ticks ∧ t.nextpid = s.nextpid ∧ t.fresh = s.fresh := by
  have he := (step_eq_some h).1
  have hrun : ∀ {c next act}, runningStep s c next act = some (t.toControl, target cfg s e) →
      t.ticks = s.ticks ∧ t.nextpid = s.nextpid ∧ t.fresh = s.fresh := by
    intro c next act hr
    obtain ⟨i, -, -, -, heq⟩ := runningStep_eq_some hr
    rw [(Prod.mk.inj heq).1]
    exact ⟨rfl, rfl, rfl⟩
  cases e with
  | timer | allocpid i | allocproc i ok => exact absurd trivial hno
  | clock =>
    rcases clockStep_cases he with ⟨k, _, _, _, hr⟩ | ⟨k, _, _, _, hr⟩ | ⟨clk, _, hr⟩ <;>
      (rw [(Prod.mk.inj hr).1]; exact ⟨rfl, rfl, rfl⟩)
  | schedule c =>
    simp only [effect] at he
    split at he
    · rcases scheduleStep_cases he with ⟨-, hr⟩ | ⟨_, _, -, -, hr⟩ | ⟨_, _, _, -, -, hr⟩ |
        ⟨_, _, _, -, -, -, -, -, hr⟩ | ⟨_, _, _, -, -, -, -, -, hr⟩ |
        ⟨_, _, _, -, -, -, -, hr⟩ <;>
        (rw [(Prod.mk.inj hr).1]; exact ⟨rfl, rfl, rfl⟩)
    · simp at he
  | yield c =>
    simp only [effect] at he
    split at he
    · exact hrun he
    · simp at he
  | kexit c status =>
    simp only [effect] at he
    split at he
    · simp at he
    · exact hrun he
  | sleep c chan => exact hrun he
  | setkilled c => exact hrun he
  | start j | kwait j | wakeup j chan | kkill j pid | setpriority j pid pr =>
    obtain ⟨-, -, -, hr⟩ := slotStep_eq_some he
    rw [(Prod.mk.inj hr).1]
    exact ⟨rfl, rfl, rfl⟩

theorem apply_pid_ctime {a : SlotAct} {p : Proc} (hn : ∀ ok pid ticks, a ≠ .allocproc ok pid ticks)
    (hlive : (a.apply cfg p).state ≠ .unused) :
    (a.apply cfg p).pid = p.pid ∧ (a.apply cfg p).ctime = p.ctime := by
  cases a with
  | clockVisit =>
    obtain ⟨_, _, _, _, _, _, _, h⟩ := clockVisit_eq cfg.aging p
    simp only [SlotAct.apply, h, and_self]
  | wakeup chan =>
    simp only [SlotAct.apply, wakeupSlot]
    split <;> exact ⟨rfl, rfl⟩
  | dispatch =>
    simp only [SlotAct.apply]
    cases cfg.scheduler <;> exact ⟨rfl, rfl⟩
  | allocproc ok pid ticks => exact absurd rfl (hn ok pid ticks)
  | kwait => exact absurd rfl hlive
  | _ => exact ⟨rfl, rfl⟩

theorem Occupied.same_process (h : Occupied s) (hst : step cfg s e = some t) {i : Nat}
    (halloc : ∀ ok, e ≠ .allocproc i ok) (hlive : (t.proc i).state ≠ .unused) :
    (s.proc i).state ≠ .unused ∧ (t.proc i).pid = (s.proc i).pid ∧
      (t.proc i).ctime = (s.proc i).ctime := by
  rcases step_slot hst i with ⟨-, hp⟩ | ⟨a, ha, -, hp⟩
  · rw [hp] at hlive ⊢
    exact ⟨hlive, rfl, rfl⟩
  · have hn : ∀ ok pid ticks, a ≠ .allocproc ok pid ticks := by
      rintro ok pid ticks rfl
      cases acts_of_target ha
      exact halloc ok rfl
    rw [hp] at hlive ⊢
    refine ⟨fun hu => hlive ?_, apply_pid_ctime hn hlive⟩
    exact apply_unused (enabled_of_target ha) (h.inTurn hst ha) hn hu

theorem Occupied.same_life (h : Occupied s) (hst : step cfg s e = some t) (hno : ¬ e.Clerical)
    {i : Nat} (hlive : (t.proc i).state ≠ .unused) : (s.proc i).state ≠ .unused ∧
      (t.proc i).pid = (s.proc i).pid ∧ (t.proc i).ctime = (s.proc i).ctime :=
  h.same_process hst (fun _ he => hno (he ▸ trivial)) hlive

theorem record_other (g : Births) (hno : ¬ e.Clerical) : g.record s e = g := by
  cases e with
  | timer | allocpid i | allocproc i ok => exact absurd trivial hno
  | _ => rfl

theorem step_timer_eq (h : step cfg s .timer = some t) : t.ticks = u32 (s.ticks + 1) ∧
    t.nextpid = s.nextpid ∧ t.fresh = s.fresh ∧ t.proc = s.proc := by
  obtain ⟨he, hp⟩ := step_eq_some h
  simp only [effect] at he
  split at he
  · obtain ⟨ht, hx⟩ := Prod.mk.inj (some.inj he)
    exact ⟨by rw [← ht], by rw [← ht], by rw [← ht], by rw [hp, ← hx]; rfl⟩
  · simp at he

theorem step_allocpid_eq {i : Nat} (h : step cfg s (.allocpid i) = some t) :
    (s.proc i).state = .unused ∧ t.ticks = s.ticks ∧ t.nextpid = i32 (s.nextpid + 1) ∧
      t.fresh = update s.fresh i (some s.nextpid) ∧ t.proc = s.proc := by
  obtain ⟨he, hp⟩ := step_eq_some h
  obtain ⟨hu, hr⟩ := allocpid_eq_some he
  obtain ⟨ht, hx⟩ := Prod.mk.inj hr
  rw [ht, hp, hx]
  exact ⟨hu, rfl, rfl, rfl, rfl⟩

theorem step_allocproc_eq {i : Nat} {ok : Bool} (h : step cfg s (.allocproc i ok) = some t) :
    ∃ pid, s.fresh i = some pid ∧ (s.proc i).state = .unused ∧ t.ticks = s.ticks ∧
      t.nextpid = s.nextpid ∧ t.fresh = update s.fresh i none ∧
      t.proc = update s.proc i (allocproc ok pid s.ticks (s.proc i)) := by
  obtain ⟨he, hp⟩ := step_eq_some h
  obtain ⟨pid, hpid, -, hu, hr⟩ := allocproc_eq_some he
  obtain ⟨ht, hx⟩ := Prod.mk.inj hr
  rw [ht, hp, hx]
  exact ⟨pid, hpid, hu, rfl, rfl, rfl, rfl⟩

theorem allocproc_live {ok : Bool} {pid : Int} {ticks : Nat} {p : Proc}
    (h : (allocproc ok pid ticks p).state ≠ .unused) :
    (allocproc ok pid ticks p).pid = pid ∧ (allocproc ok pid ticks p).ctime = ticks := by
  cases ok with
  | false => exact absurd rfl h
  | true => exact ⟨rfl, rfl⟩

theorem Recorded.timer {g : Births} (h : Recorded s g) (hst : step cfg s .timer = some t) :
    Recorded t (g.record s .timer) := by
  obtain ⟨htk, hnp, hfresh, hproc⟩ := step_timer_eq hst
  refine ⟨by rw [htk, h.ticks, u32_add]; rfl, hnp ▸ h.nextpid, hfresh ▸ h.fresh, hproc ▸ h.ctime,
    hproc ▸ h.pid, fun i hi => ?_, hproc ▸ h.sorted⟩
  rw [hproc] at hi
  have hh := h.past i hi
  simp only [Births.record]
  omega

theorem Recorded.allocpid {g : Births} (h : Recorded s g) {i : Nat}
    (hst : step cfg s (.allocpid i) = some t) : Recorded t (g.record s (.allocpid i)) := by
  obtain ⟨-, htk, hnp, hfresh, hproc⟩ := step_allocpid_eq hst
  refine ⟨htk ▸ h.ticks, ?_, fun j pid hj => ?_, hproc ▸ h.ctime, hproc ▸ h.pid, fun j hj => ?_,
    hproc ▸ h.sorted⟩
  · rw [hnp, h.nextpid, i32_add]
    simp [Births.record]
  · rw [hfresh] at hj
    by_cases hji : j = i
    · subst hji
      rw [update_self] at hj
      simp [Births.record, ← some.inj hj, h.nextpid]
    · rw [update_of_ne hji] at hj
      have hh := h.fresh j pid hj
      simp only [Births.record, update_of_ne hji]
      exact ⟨hh.1, hh.2.1, by omega⟩
  · rw [hproc] at hj
    have hh := h.past j hj
    simp only [Births.record]
    omega

theorem Recorded.allocproc {g : Births} (h : Recorded s g) {i : Nat} {ok : Bool}
    (hst : step cfg s (.allocproc i ok) = some t) : Recorded t (g.record s (.allocproc i ok)) := by
  obtain ⟨pid, hpid, -, htk, hnp, hfresh, hproc⟩ := step_allocproc_eq hst
  obtain ⟨hnum, hpos, hmade⟩ := h.fresh i pid hpid
  -- a process of the new table is the one that was just made, or an old one
  have hcases : ∀ j, (t.proc j).state ≠ .unused → j = i ∧ (t.proc j).pid = pid ∧
      (t.proc j).ctime = s.ticks ∨ j ≠ i ∧ t.proc j = s.proc j ∧ (s.proc j).state ≠ .unused := by
    intro j hj
    rw [hproc] at hj ⊢
    by_cases hji : j = i
    · subst hji
      rw [update_self] at hj ⊢
      exact .inl ⟨rfl, allocproc_live hj⟩
    · rw [update_of_ne hji] at hj ⊢
      exact .inr ⟨hji, rfl, hj⟩
  refine ⟨htk ▸ h.ticks, hnp ▸ h.nextpid, fun j q hj => ?_, fun j hj => ?_, fun j hj => ?_,
    fun j hj => ?_, fun j k hj hk hlt => ?_⟩
  · rw [hfresh, update_apply] at hj
    split_ifs at hj
    exact h.fresh j q hj
  · rcases hcases j hj with ⟨rfl, -, hct⟩ | ⟨hji, hp, hjs⟩
    · simp [Births.record, hct, h.ticks]
    · simpa [Births.record, hji, hp] using h.ctime j hjs
  · rcases hcases j hj with ⟨rfl, hjp, -⟩ | ⟨hji, hp, hjs⟩
    · simp [Births.record, hjp, hnum]
    · simpa [Births.record, hji, hp] using h.pid j hjs
  · rcases hcases j hj with ⟨rfl, -⟩ | ⟨hji, -, hjs⟩
    · simp [Births.record, hpos, hmade]
    · simpa [Births.record, hji] using h.past j hjs
  · rcases hcases j hj with ⟨rfl, -⟩ | ⟨hji, -, hjs⟩ <;>
      rcases hcases k hk with ⟨rfl, -⟩ | ⟨hki, -, hks⟩
    · exact le_rfl
    · -- all numbers have been seen by the newest process
      have hh := (h.past k hks).2.1
      simp only [Births.record, update_self, update_of_ne hki] at hlt
      omega
    · simpa [Births.record, hji] using (h.past j hjs).2.2
    · simp only [Births.record, update_of_ne hji, update_of_ne hki] at hlt ⊢
      exact h.sorted j k hjs hks hlt

theorem step_recorded {g : Births} (hst : step cfg s e = some t) (hocc : Occupied s)
    (h : Recorded s g) : Recorded t (g.record s e) := by
  by_cases hno : e.Clerical
  · cases e with
    | timer => exact h.timer hst
    | allocpid i => exact h.allocpid hst
    | allocproc i ok => exact h.allocproc hst
    | _ => exact absurd hno id
  · obtain ⟨htk, hnp, hfresh⟩ := step_clerical hst hno
    have hsame := fun i => hocc.same_life hst hno (i := i)
    rw [record_other g hno]
    refine ⟨htk ▸ h.ticks, hnp ▸ h.nextpid, hfresh ▸ h.fresh, fun i hi => ?_, fun i hi => ?_,
      fun i hi => h.past i (hsame i hi).1,
      fun i j hi hj => h.sorted i j (hsame i hi).1 (hsame j hj).1⟩
    · rw [(hsame i hi).2.2]
      exact h.ctime i (hsame i hi).1
    · rw [(hsame i hi).2.1]
      exact h.pid i (hsame i hi).1

theorem recorded_boot : Recorded boot birthsStart := by
  refine ⟨rfl, by decide, nofun, ?_, ?_, ?_, ?_⟩
  · exact fun i => boot_proc (I := fun p => p.state ≠ .unused → p.ctime = u32 0)
      (by decide) (by decide) i
  · exact fun i => boot_proc (I := fun p => p.state ≠ .unused → p.pid = i32 (1 : Nat))
      (by decide) (by decide) i
  · exact fun i _ => ⟨le_rfl, le_rfl, le_rfl⟩
  · exact fun i j _ _ h => absurd h (lt_irrefl 1)

theorem recorded_of_reachable {es : List Event} (h : (kernel cfg).exec boot es = some s) :
    Recorded s (births cfg es) := by
  refine (Machine.watch_inv (m := kernel cfg) _ (R := fun _ _ => True)
    (I := fun u g => (CandidateLocked u ∧ Occupied u) ∧ Recorded u g) ?_ h
    (Machine.along_true _ _) ⟨⟨candidateLocked_boot, occupied_boot⟩, recorded_boot⟩).2
  rintro u e v g hst - ⟨⟨hl, ho⟩, hr⟩
  exact ⟨⟨step_candidateLocked hst hl, step_occupied hst hl ho⟩, step_recorded hst ho hr⟩

theorem Pass.same_ctime {c p q : Nat} {v : Kernel} {es : List Event}
    (h : Pass cfg c p (fun x => x.state = .runnable) s v es q) :
    Pass cfg c p (fun x => x.state = .runnable ∧ x.ctime = (v.proc p).ctime) s v es q := by
  refine h.strengthen (ψ := fun x => x.ctime = (v.proc p).ctime) (fun u hu => ?_)
    (fun _ hr hx => ⟨hr, hx⟩)
  obtain ⟨r, hr, hv⟩ := Machine.exec_cons.mp h.run
  obtain rfl : u = r := some.inj (hu.symm.trans hr)
  have hkept : (kernel cfg).Always (fun w => (w.proc p).ctime = (u.proc p).ctime) u es := by
    refine (h.during u hu).inv ?_ rfl
    rintro w e x hst ⟨-, hw⟩ ⟨-, hx⟩ hi
    rcases step_slot hst p with ⟨-, hp⟩ | ⟨a, -, hen, hp⟩
    · rw [hp, hi]
    · have hn : ∀ ok pid ticks, a ≠ .allocproc ok pid ticks := by
        rintro ok pid ticks rfl
        have hu : (w.proc p).state = .unused := hen
        simp [hw] at hu
      rw [hp] at hx ⊢
      rw [(apply_pid_ctime hn (by simp [hx])).2, hi]
  have hlast : (v.proc p).ctime = (u.proc p).ctime := hkept.last hv
  exact hkept.mono (fun w hw => by rw [hw, hlast])

theorem Pass.fcfs_first {aging : Bool} {c p q : Nat} {v : Kernel} {es : List Event}
    (hl : CandidateLocked s) (hp : p < nproc)
    (h : Pass ⟨.fcfs, aging⟩ c p (fun x => x.state = .runnable) s v es q) (hne : p ≠ q) :
    (v.proc q).ctime < (v.proc p).ctime ∨ ((v.proc q).ctime = (v.proc p).ctime ∧ q < p) := by
  rcases h.same_ctime.choice_first (by simp) hl (fun _ hx => hx.1) hp with
    ⟨he, -⟩ | ⟨x, ⟨-, hx⟩, hlt⟩
  · exact absurd he hne
  · rw [← hx]
    rcases Prod.Lex.toLex_lt_toLex.mp hlt with hk | ⟨hk, hqp⟩
    · exact .inl (schedKey_fcfs_lt.mp hk)
    · simp only [schedKey, EmbeddingLike.apply_eq_iff_eq, Prod.mk.injEq] at hk
      exact .inr ⟨hk.2.1, hqp⟩

theorem i32_lt {m n : Nat} (hm : m < 2 ^ 31) (hn : n < 2 ^ 31) : i32 m < i32 n ↔ m < n := by
  rw [i32_eq (by omega) (by omega), i32_eq (by omega) (by omega)]
  exact Nat.cast_lt

/-- FCFS serves by creation tick, then by slot. A process with a smaller number
is passed over only when it was created in the same tick, in a higher slot, when the
tick counter wrapped between the two creations, or when the other drew its number, and
read the tick, while the process had its number but not yet its tick. -/
theorem fcfs_serves_oldest_tick (aging : Bool) {pre es : List Event} {s v : Kernel}
    {c p q : Nat} {g : Births} (hpre : (kernel ⟨.fcfs, aging⟩).exec boot pre = some s)
    (hp : p < nproc)
    (hpass : Pass ⟨.fcfs, aging⟩ c p (fun x => x.state = .runnable) s v es q)
    (hg : births ⟨.fcfs, aging⟩ (pre ++ .schedule c :: es) = g) (hforks : g.made < 2 ^ 31) :
    (v.proc q).state = .runnable ∧
    (p ≠ q → (v.proc q).ctime < (v.proc p).ctime ∨ ((v.proc q).ctime = (v.proc p).ctime ∧ q < p)) ∧
    ((v.proc p).pid < (v.proc q).pid →
      (g.tick p = g.tick q ∧ q < p) ∨ g.tick p / 2 ^ 32 < g.tick q / 2 ^ 32 ∨
        (g.order p < g.order q ∧ g.order q ≤ g.seen p ∧ g.tick q < g.tick p)) := by
  have hreach := Machine.exec_append.mpr ⟨s, hpre, hpass.run⟩
  obtain ⟨hl, -⟩ := occupied_of_reachable hpre
  obtain ⟨-, hocc⟩ := occupied_of_reachable hreach
  obtain ⟨dp, hc⟩ := hpass.choice
  have hq : (v.proc q).state = .runnable := hocc.ready c nproc q dp hc
  refine ⟨hq, fun hne => hpass.fcfs_first hl hp hne, fun hpid => ?_⟩
  have hrec := recorded_of_reachable hreach
  rw [hg] at hrec
  have hrun : (v.proc p).state = .runnable := by
    obtain ⟨u, hu, hv⟩ := Machine.exec_cons.mp hpass.run
    exact ((hpass.during u hu).last hv).2
  have hlp : (v.proc p).state ≠ .unused := by simp [hrun]
  have hlq : (v.proc q).state ≠ .unused := by simp [hq]
  have hmp := (hrec.past p hlp).2.1
  have hmq := (hrec.past q hlq).2.1
  have hne : p ≠ q := by
    rintro rfl
    exact lt_irrefl _ hpid
  have horder : g.order p < g.order q := by
    rw [hrec.pid p hlp, hrec.pid q hlq] at hpid
    exact (i32_lt (by omega) (by omega)).mp hpid
  have htick := hrec.sorted p q hlp hlq
  have hfirst := hpass.fcfs_first hl hp hne
  rw [hrec.ctime p hlp, hrec.ctime q hlq] at hfirst
  simp only [u32] at hfirst
  omega

/-- While the first process runs, its child exits. It forks again, waits for the
first child, and its third child takes the slot that this frees; then it sleeps. -/
def recycling : List Event :=
  passEvents 1 ++ ([.allocpid 1, .allocproc 1 true, .start 1] ++ (passEvents 2 ++
    [.kexit 2 0, .allocpid 2, .allocproc 2 true, .start 2, .kwait 1, .allocpid 1,
      .allocproc 1 true, .start 1, .sleep 1 (.addr 0)]))

theorem recycling_choice : ∃ s v, (kernel ⟨.fcfs, true⟩).exec boot recycling = some s ∧
    Pass ⟨.fcfs, true⟩ 1 2 (fun x => x.state = .runnable) s v
      (List.replicate nproc (.schedule 1)) 1 ∧
    (v.proc 2).pid = 3 ∧ (v.proc 1).pid = 4 := by
  have h : ((kernel ⟨.fcfs, true⟩).exec (passed ⟨.fcfs, true⟩ boot 1)
      [.allocpid 1, .allocproc 1 true, .start 1]).bind (fun r =>
        ((kernel ⟨.fcfs, true⟩).exec (passed ⟨.fcfs, true⟩ r 2)
          [.kexit 2 0, .allocpid 2, .allocproc 2 true, .start 2, .kwait 1, .allocpid 1,
            .allocproc 1 true, .start 1, .sleep 1 (.addr 0)]).map (fun s => (r.cpu 2, s.cpu 1, (pass .fcfs s.proc nproc).1,
              (s.proc 2).state, (s.proc 2).pid, (s.proc 1).pid))) =
      some (.idle, .idle, some 1, .runnable, 3, 4) := by decide +kernel
  obtain ⟨r, hr, h⟩ := bind_eq_some_iff.mp h
  obtain ⟨s, hs, h⟩ := map_eq_some_iff.mp h
  simp only [Prod.mk.injEq] at h
  obtain ⟨hidle, hcpu, hq, hrun, hp2, hp1⟩ := h
  have hrlock : ∀ i, r.lock i = none := by
    rw [lock_of_no_schedule hr (by simp), passed_lock]
    exact fun _ => rfl
  have hslock : ∀ i, s.lock i = none := by
    rw [lock_of_no_schedule hs (by simp), passed_lock]
    exact hrlock
  have hfree : ∀ (u : Kernel) (c : Nat), c = 1 ∨ c = 2 → u.free c = true := by
    rintro u c (rfl | rfl) <;> simp [Control.free, ncpu]
  refine ⟨s, _, ?_, pass_scanned (by simp) (hfree s 1 (.inl rfl)) hcpu hslock hrun hq, hp2, hp1⟩
  refine Machine.exec_append.mpr ⟨_, exec_pass (by simp) (hfree _ _ (.inl rfl)) rfl
    (fun _ => rfl), Machine.exec_append.mpr ⟨r, hr, Machine.exec_append.mpr ⟨_, ?_, hs⟩⟩⟩
  exact exec_pass (by simp) (hfree _ _ (.inr rfl)) hidle hrlock

def recyclingBirths : Births :=
  births ⟨.fcfs, true⟩ (recycling ++ .schedule 1 :: List.replicate nproc (.schedule 1))

theorem recyclingBirths_made : recyclingBirths.made = 4 := by
  decide +kernel

theorem fcfs_serves_oldest_tick_recycling :
    (recyclingBirths.tick 2 = recyclingBirths.tick 1 ∧ 1 < 2) ∨
      recyclingBirths.tick 2 / 2 ^ 32 < recyclingBirths.tick 1 / 2 ^ 32 ∨
      (recyclingBirths.order 2 < recyclingBirths.order 1 ∧
        recyclingBirths.order 1 ≤ recyclingBirths.seen 2 ∧
        recyclingBirths.tick 1 < recyclingBirths.tick 2) := by
  obtain ⟨s, v, hs, hpass, hp2, hp1⟩ := recycling_choice
  have hh := fcfs_serves_oldest_tick true hs (by decide) hpass (g := recyclingBirths) rfl
    (by rw [recyclingBirths_made]; decide)
  exact hh.2.2 (by omega)

theorem fcfs_passes_over_older :
    ¬ ∀ (aging : Bool) (pre es : List Event) (s v : Kernel) (c p q : Nat),
      (kernel ⟨.fcfs, aging⟩).exec boot pre = some s → p < nproc →
      Pass ⟨.fcfs, aging⟩ c p (fun x => x.state = .runnable) s v es q →
      (births ⟨.fcfs, aging⟩ (pre ++ .schedule c :: es)).made < 2 ^ 31 →
      ¬ (v.proc p).pid < (v.proc q).pid := by
  intro hall
  obtain ⟨s, v, hs, hpass, hp2, hp1⟩ := recycling_choice
  exact hall true recycling _ s v 1 2 1 hs (by decide) hpass
    (by rw [← recyclingBirths, recyclingBirths_made]; decide) (by omega)

end Xv6
