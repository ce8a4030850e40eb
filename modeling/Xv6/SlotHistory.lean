import Xv6.Kernel

/-! A run of the kernel as one slot sees it: the sequence of actions on that
slot. Every invariant of a slot and its history follows from what one action
preserves. -/

namespace Xv6

open Option

variable {cfg : Config} {s t : Kernel} {γ : Type*}

theorem clockStep_cases {r : Effect} (h : clockStep s = some r) :
    (∃ k, s.clock = .waking k ∧ k < nproc ∧ s.lock k = none ∧
      r = ({ s.toControl with clock := .waking (k + 1) }, some (k, .wakeup .ticks))) ∨
    (∃ k, s.clock = .walking k ∧ k < nproc ∧ s.lock k = none ∧
      r = ({ s.toControl with clock := .walking (k + 1) }, some (k, .clockVisit))) ∨
    (∃ clk, s.clock ≠ .off ∧ r = ({ s.toControl with clock := clk }, none)) := by
  unfold clockStep at h
  split at h
  · simp at h
  · rename_i k hk
    split at h
    · exact .inr (.inr ⟨_, by simp [hk], by simpa using h.symm⟩)
    · split at h
      · rename_i hn hl
        exact .inl ⟨k, hk, by omega, hl, by simpa using h.symm⟩
      · simp at h
  · rename_i k hk
    split at h
    · exact .inr (.inr ⟨_, by simp [hk], by simpa using h.symm⟩)
    · split at h
      · rename_i hn hl
        exact .inr (.inl ⟨k, hk, by omega, hl, by simpa using h.symm⟩)
      · simp at h

theorem scheduleStep_cases {c : Nat} {r : Effect} (h : scheduleStep cfg s c = some r) :
    (s.cpu c = .idle ∧ r = (s.setCpu c (.scan 0 none 101), none)) ∨
    (∃ k dp, s.cpu c = .scan k none dp ∧ nproc ≤ k ∧ r = (s.setCpu c .idle, none)) ∨
    (∃ k i dp, s.cpu c = .scan k (some i) dp ∧ nproc ≤ k ∧
      r = ({ s.setCpu c (.run i) with lock := Function.update s.lock i none },
        some (i, .dispatch))) ∨
    (∃ k best dp, s.cpu c = .scan k best dp ∧ k < nproc ∧ s.lock k = none ∧
      cfg.scheduler = .rr ∧ (s.proc k).state = .runnable ∧
      r = (s.setCpu c (.run k), some (k, .dispatch))) ∨
    (∃ k best dp, s.cpu c = .scan k best dp ∧ k < nproc ∧ s.lock k = none ∧
      cfg.scheduler = .rr ∧ (s.proc k).state ≠ .runnable ∧
      r = (s.setCpu c (.scan (k + 1) none dp), none)) ∨
    (∃ k best dp, s.cpu c = .scan k best dp ∧ k < nproc ∧ s.lock k = none ∧ cfg.scheduler ≠ .rr ∧
      r = ({ s.setCpu c (.scan (k + 1) (visit cfg.scheduler s.proc (best, dp) k).1
          (visit cfg.scheduler s.proc (best, dp) k).2) with
          lock := relock c best (visit cfg.scheduler s.proc (best, dp) k).1 s.lock }, none)) := by
  unfold scheduleStep at h
  split at h
  · simp at h
  · rename_i hc
    exact .inl ⟨hc, by simpa using h.symm⟩
  · rename_i k best dp hc
    split at h
    · rename_i hk
      cases best with
      | none => exact .inr (.inl ⟨k, dp, hc, hk, by simpa using h.symm⟩)
      | some i => exact .inr (.inr (.inl ⟨k, i, dp, hc, hk, by simpa using h.symm⟩))
    · rename_i hk
      have hk : k < nproc := by omega
      split at h
      · rename_i hl
        cases hs : cfg.scheduler with
        | rr =>
          simp only [hs] at h
          split at h
          · rename_i hr
            exact .inr (.inr (.inr (.inl
              ⟨k, best, dp, hc, hk, hl, rfl, hr, by simpa using h.symm⟩)))
          · rename_i hr
            exact .inr (.inr (.inr (.inr (.inl
              ⟨k, best, dp, hc, hk, hl, rfl, hr, by simpa using h.symm⟩))))
        | fcfs =>
          exact .inr (.inr (.inr (.inr (.inr
            ⟨k, best, dp, hc, hk, hl, by simp, by simpa [hs] using h.symm⟩))))
        | pbs =>
          exact .inr (.inr (.inr (.inr (.inr
            ⟨k, best, dp, hc, hk, hl, by simp, by simpa [hs] using h.symm⟩))))
      · simp at h

/-- The slot and the action an event may lead to, with what the code has tested. -/
inductive Acts (s : Kernel) : Event → Nat → SlotAct → Prop
  | tick (i : Nat) : Acts s .clock i (.wakeup .ticks)
  | clockVisit (i : Nat) : Acts s .clock i .clockVisit
  | dispatch (c i : Nat) : Acts s (.schedule c) i .dispatch
  | yield {c i : Nat} (h : s.cpu c = .run i) : Acts s (.yield c) i .yield
  | sleep {c i : Nat} (chan : Chan) (h : s.cpu c = .run i) : Acts s (.sleep c chan) i (.sleep chan)
  | kexit {c i : Nat} (status : Int) (h : s.cpu c = .run i) :
      Acts s (.kexit c status) i (.kexit status)
  | setkilled {c i : Nat} (h : s.cpu c = .run i) : Acts s (.setkilled c) i .setkilled
  | allocproc {i : Nat} {pid : Int} (ok : Bool) (hpid : s.fresh i = some pid)
      (h : (s.proc i).state = .unused) : Acts s (.allocproc i ok) i (.allocproc ok pid s.ticks)
  | start {i : Nat} (h : (s.proc i).state = .used) : Acts s (.start i) i .start
  | kwait {i : Nat} (h : (s.proc i).state = .zombie) : Acts s (.kwait i) i .kwait
  | wakeup (i : Nat) (chan : Chan) : Acts s (.wakeup i chan) i (.wakeup chan)
  | kkill {i : Nat} {pid : Int} (h : (s.proc i).pid = pid) : Acts s (.kkill i pid) i (.kkill pid)
  | setpriority {i : Nat} {pid pr : Int}
      (h : (s.proc i).pid = pid ∧ minPriority ≤ pr ∧ pr ≤ maxPriority) :
      Acts s (.setpriority i pid pr) i (.setpriority pid pr)

theorem acts_of_target {e : Event} {i : Nat} {a : SlotAct}
    (h : target cfg s e = some (i, a)) : Acts s e i a := by
  obtain ⟨⟨ctl, b⟩, he, hb⟩ := bind_eq_some_iff.mp h
  obtain rfl : b = some (i, a) := hb
  have hrun : ∀ {c next act}, runningStep s c next act = some (ctl, some (i, a)) →
      s.cpu c = .run i ∧ a = act := by
    intro c next act hr
    obtain ⟨j, hc, -, -, hr⟩ := runningStep_eq_some hr
    simp only [Prod.mk.injEq, some.injEq] at hr
    obtain ⟨-, rfl, rfl⟩ := hr
    exact ⟨hc, rfl⟩
  cases e with
  | timer =>
    simp only [effect] at he
    split at he <;> simp at he
  | clock =>
    rcases clockStep_cases he with ⟨k, _, _, _, hr⟩ | ⟨k, _, _, _, hr⟩ | ⟨clk, _, hr⟩ <;>
      simp only [Prod.mk.injEq, some.injEq, reduceCtorEq, and_false] at hr
    · rw [hr.2.2]
      exact .tick i
    · rw [hr.2.2]
      exact .clockVisit i
  | schedule c =>
    have ha : a = .dispatch := by
      simp only [effect] at he
      split at he
      · rcases scheduleStep_cases he with ⟨_, hr⟩ | ⟨_, _, _, _, hr⟩ | ⟨_, _, _, _, _, hr⟩ |
          ⟨_, _, _, _, _, _, _, _, hr⟩ | ⟨_, _, _, _, _, _, _, _, hr⟩ |
          ⟨_, _, _, _, _, _, _, hr⟩ <;> simp_all
      · simp at he
    rw [ha]
    exact .dispatch c i
  | yield c =>
    simp only [effect] at he
    split at he
    · obtain ⟨hc, rfl⟩ := hrun he
      exact .yield hc
    · simp at he
  | sleep c chan =>
    obtain ⟨hc, rfl⟩ := hrun he
    exact .sleep chan hc
  | kexit c status =>
    simp only [effect] at he
    split at he
    · simp at he
    · obtain ⟨hc, rfl⟩ := hrun he
      exact .kexit status hc
  | setkilled c =>
    obtain ⟨hc, rfl⟩ := hrun he
    exact .setkilled hc
  | allocpid j => simpa using (allocpid_eq_some he).2
  | allocproc j ok =>
    obtain ⟨pid, hpid, -, ht, hr⟩ := allocproc_eq_some he
    simp only [Prod.mk.injEq, some.injEq] at hr
    obtain ⟨-, rfl, rfl⟩ := hr
    exact .allocproc ok hpid ht
  | start j | kwait j | wakeup j chan | kkill j pid | setpriority j pid pr =>
    obtain ⟨_, _, ht, hr⟩ := slotStep_eq_some he
    simp only [Prod.mk.injEq, some.injEq] at hr
    obtain ⟨-, rfl, rfl⟩ := hr
    constructor
    all_goals exact ht

theorem enabled_of_target {e : Event} {i : Nat} {a : SlotAct}
    (h : target cfg s e = some (i, a)) : a.Enabled (s.proc i) := by
  cases acts_of_target h with
  | allocproc _ _ htest => exact htest
  | start htest => exact htest
  | kwait htest => exact htest
  | kkill htest => exact htest
  | setpriority htest => exact htest
  | _ => trivial

theorem step_slot {e : Event} (h : step cfg s e = some t) (i : Nat) :
    ((∀ a, target cfg s e ≠ some (i, a)) ∧ t.proc i = s.proc i) ∨
    ∃ a, target cfg s e = some (i, a) ∧ a.Enabled (s.proc i) ∧
      t.proc i = a.apply cfg (s.proc i) := by
  have hp := (step_eq_some h).2
  cases ht : target cfg s e with
  | none =>
    rw [ht] at hp
    exact .inl ⟨by simp, by rw [hp]; rfl⟩
  | some x =>
    obtain ⟨j, a⟩ := x
    rw [ht] at hp
    by_cases hij : i = j
    · subst hij
      exact .inr ⟨a, rfl, enabled_of_target ht, by simp [hp, actOn]⟩
    · refine .inl ⟨?_, by simp [hp, actOn, hij]⟩
      intro b hb
      simp only [some.injEq, Prod.mk.injEq] at hb
      exact hij hb.1.symm

/-- A history variable that only looks at the actions on slot `i`. -/
def slotUpd (cfg : Config) (i : Nat) (upd : γ → Proc → SlotAct → γ) (g : γ) (s : Kernel)
    (e : Event) : γ :=
  match target cfg s e with
  | some (j, a) => if j = i then upd g (s.proc i) a else g
  | none => g

def OnSlot (cfg : Config) (i : Nat) (R : Proc → SlotAct → Prop) (s : Kernel) (e : Event) : Prop :=
  ∀ a, target cfg s e = some (i, a) → R (s.proc i) a

instance (cfg : Config) (i : Nat) (R : Proc → SlotAct → Prop) [∀ p a, Decidable (R p a)]
    (s : Kernel) (e : Event) : Decidable (OnSlot cfg i R s e) :=
  decidable_of_iff (∀ x ∈ target cfg s e, x.1 = i → R (s.proc i) x.2)
    ⟨fun h _ ha => h _ ha rfl, fun h x hx hi => h x.2 (hi ▸ hx)⟩

theorem slotUpd_of_target {i : Nat} {upd : γ → Proc → SlotAct → γ} {g : γ} {e : Event}
    {a : SlotAct} (h : target cfg s e = some (i, a)) :
    slotUpd cfg i upd g s e = upd g (s.proc i) a := by
  simp [slotUpd, h]

theorem slotUpd_of_not_target {i : Nat} {upd : γ → Proc → SlotAct → γ} {g : γ} {e : Event}
    (h : ∀ a, target cfg s e ≠ some (i, a)) : slotUpd cfg i upd g s e = g := by
  unfold slotUpd
  split
  · rename_i j a hj
    split
    · rename_i he
      subst he
      exact absurd hj (h a)
    · rfl
  · rfl

def slotWatch (cfg : Config) (i : Nat) (upd : γ → Proc → SlotAct → γ) (g : γ) (s : Kernel)
    (es : List Event) : γ :=
  (kernel cfg).watch (slotUpd cfg i upd) g s es

/-- The rule for invariants of one slot and its history. -/
theorem slotWatch_inv {i : Nat} {upd : γ → Proc → SlotAct → γ} {R : Proc → SlotAct → Prop}
    {I : Proc → γ → Prop}
    (hact : ∀ p a g, a.Enabled p → R p a → I p g → I (a.apply cfg p) (upd g p a))
    {g : γ} {es : List Event} (hrun : (kernel cfg).exec s es = some t)
    (hR : (kernel cfg).Along (OnSlot cfg i R) s es) (hI : I (s.proc i) g) :
    I (t.proc i) (slotWatch cfg i upd g s es) := by
  refine Machine.watch_inv _ (I := fun s g => I (s.proc i) g) ?_ hrun hR hI
  intro s e t g hs hr hi
  rcases step_slot hs i with ⟨hn, hp⟩ | ⟨a, ha, hen, hp⟩
  · rw [slotUpd_of_not_target hn, hp]
    exact hi
  · rw [slotUpd_of_target ha, hp]
    exact hact (s.proc i) a g hen (hr a ha) hi

theorem slot_inv {i : Nat} {I : Proc → Prop}
    (hact : ∀ p (a : SlotAct), a.Enabled p → I p → I (a.apply cfg p))
    {es : List Event} (hrun : (kernel cfg).exec s es = some t) (hI : I (s.proc i)) :
    I (t.proc i) := by
  refine Machine.inv_exec (m := kernel cfg) (I := fun s => I (s.proc i)) ?_ hrun hI
  intro s e t hs hi
  rcases step_slot hs i with ⟨-, hp⟩ | ⟨a, -, hen, hp⟩
  · rwa [hp]
  · rw [hp]
    exact hact (s.proc i) a hen hi

theorem always_slot {R : Proc → SlotAct → Prop} {I : Proc → Prop}
    (hact : ∀ p a, a.Enabled p → R p a → I p → I (a.apply cfg p)) {i : Nat}
    {es : List Event} (hR : (kernel cfg).Along (OnSlot cfg i R) s es) (hI : I (s.proc i)) :
    (kernel cfg).Always (fun u => I (u.proc i)) s es := by
  refine Machine.always_of_along ?_ hR hI
  intro s e t hs hr hi
  rcases step_slot hs i with ⟨-, hp⟩ | ⟨a, ha, hen, hp⟩
  · rwa [hp]
  · rw [hp]
    exact hact (s.proc i) a hen (hr a ha) hi

theorem boot_proc_ne {i : Nat} (h : i ≠ 0) : boot.proc i = procinit := by
  simp [boot, h]

theorem boot_proc {I : Proc → Prop} (h0 : I (boot.proc 0)) (hn : I procinit) (i : Nat) :
    I (boot.proc i) := by
  by_cases hi : i = 0
  · rw [hi]
    exact h0
  · rw [boot_proc_ne hi]
    exact hn

end Xv6
