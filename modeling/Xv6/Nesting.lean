import Xv6.Smp

/-! `push_off` and `pop_off` in the kernel threads. The counters belong to the harts and the
nesting to the threads, which `sched` and the schedulers move from hart to hart. -/

namespace Xv6.Nesting

open List Option

open Function (update update_apply update_of_ne update_self)

open Smp (Hart Thread)

/-- The `push_off`s that are open, with what `intr_get` returned in each of them (`none` in
that of the scheduler, which `forkret` undoes), and what it has returned in one that is
not through. -/
structure Level where
  opens : List (Option Bool)
  old : Option Bool

/-- A kernel thread: the levels that a trap has interrupted are `below`, `saved` is the
variable of `sched`. -/
structure Task where
  top : Level
  below : List Level
  saved : Option Bool

def Task.depth (t : Task) : Nat := ((t.top :: t.below).map (·.opens.length)).sum

def Task.Ready (t : Task) : Prop := t.top.old = none ∧ t.saved = none

instance (t : Task) : Decidable t.Ready := inferInstanceAs (Decidable (_ ∧ _))

inductive Act
  | intrGet
  | pushOff
  | popOff
  | intrOn
  | intrOff
  | trap
  | sret
  | restore

/-- What the thread on a hart does. `intrGet` is the first statement of `push_off`, and
`restore` the last one of `sched`. -/
def act : Act → Hart → Task → Option (Except String (Hart × Task))
  | .intrGet, c, t =>
    if t.Ready then some (.ok (c, { t with top := { t.top with old := some c.intr } })) else none
  | .pushOff, c, t =>
    match t.top.old with
    | none => none
    | some b => some (.ok
      ({ c with intr := false, intena := if c.noff = 0 then b else c.intena, noff := c.noff + 1 },
        { t with top := ⟨some b :: t.top.opens, none⟩ }))
  | .popOff, c, t =>
    match t.top.opens with
    | [] => none
    | _ :: rest =>
      if t.Ready then
        some (if c.intr = true then .error "pop_off - interruptible"
          else if c.noff < 1 then .error "pop_off"
          else .ok (c.popOff, { t with top := ⟨rest, none⟩ }))
      else none
  | .intrOn, c, t =>
    if t.Ready ∧ t.top.opens = [] then some (.ok ({ c with intr := true }, t)) else none
  | .intrOff, c, t =>
    if t.Ready ∧ t.top.opens = [] then some (.ok ({ c with intr := false }, t)) else none
  | .trap, c, t =>
    if c.intr = true then
      some (.ok ({ c with intr := false }, { t with top := ⟨[], none⟩, below := t.top :: t.below }))
    else none
  | .sret, c, t =>
    match t.below with
    | [] => none
    | l :: ls =>
      if t.Ready ∧ t.top.opens = [] then
        some (.ok ({ c with intr := true }, { t with top := l, below := ls }))
      else none
  | .restore, c, t =>
    match t.saved with
    | none => none
    | some b => some (.ok ({ c with intena := b }, { t with saved := none }))

def Task.fresh : Task := ⟨⟨[none], none⟩, [], none⟩

structure State where
  cpu : Nat → Hart
  task : Thread → Task
  on : Thread → Option Nat

def thread (h : Nat) : Option Nat → Thread
  | none => .sched h
  | some i => .proc i

def State.who (s : State) (h : Nat) : Thread := thread h (s.cpu h).proc

def State.current (s : State) (h : Nat) : Task := s.task (s.who h)

def State.put (s : State) (h : Nat) (c : Hart) (t : Task) : State :=
  { s with
    cpu := Function.update s.cpu h c
    task := Function.update s.task (s.who h) t }

def State.swtch (s : State) (h : Nat) (p : Option Nat) : State :=
  { s with
    cpu := Function.update s.cpu h { s.cpu h with proc := p }
    on := Function.update (Function.update s.on (s.who h) none) (thread h p) (some h) }

inductive Event
  | act (h : Nat) (a : Act)
  | sched (h : Nat)
  | dispatch (h i : Nat)
  | create (i : Nat)

/-- The scheduler of a hart holds one lock when it switches to a process, and the process
holds one lock when it switches back. -/
def step (s : State) : Event → Option (Except String State)
  | .act h a =>
    (Nesting.act a (s.cpu h) (s.current h)).map (fun r => r.map (fun q => s.put h q.1 q.2))
  | .sched h =>
    if (s.cpu h).proc ≠ none ∧ (s.current h).Ready then
      some (if (s.cpu h).noff ≠ 1 then .error "sched locks"
        else if (s.cpu h).intr = true then .error "sched interruptible"
        else .ok ((s.put h (s.cpu h) { s.current h with
          saved := some (s.cpu h).intena }).swtch h none))
    else none
  | .dispatch h i =>
    if (s.cpu h).proc = none ∧ (s.current h).Ready ∧ (s.current h).depth = 1 ∧
        s.on (.proc i) = none then some (.ok (s.swtch h (some i)))
    else none
  | .create i =>
    if s.on (.proc i) = none then
      some (.ok { s with task := Function.update s.task (.proc i) .fresh })
    else none

def machine : Machine State Event where
  step s e :=
    match step s e with
    | some (.ok t) => some t
    | _ => none

def boot (intr intena : Nat → Bool) : State where
  cpu h := ⟨none, 0, intena h, intr h⟩
  task
    | .sched _ => ⟨⟨[], none⟩, [], none⟩
    | .proc _ => .fresh
  on
    | .sched h => some h
    | .proc _ => none

/-- The levels under a trap: interrupts were on, so that nothing was open. -/
def Interrupted (l : Level) : Prop := l.opens = [] ∧ ∀ b, l.old = some b → b = true

def IsProc : Thread → Prop
  | .sched _ => False
  | .proc _ => True

/-- A hart and the thread on it. The flag `intena` is the thread's if the thread is a
process that has come out of `sched`. -/
structure Fits (own : Prop) (c : Hart) (t : Task) : Prop where
  noff : c.noff = t.top.opens.length
  off : t.top.opens ≠ [] → c.intr = false
  old : ∀ b, t.top.old = some b → c.intr = b
  below : ∀ l ∈ t.below, Interrupted l
  intena : own → t.saved = none → ∀ b, t.top.opens.getLast? = some (some b) → c.intena = b
  saved : ∀ b, t.saved = some b → t.top.old = none ∧ t.top.opens.length = 1 ∧
    ∀ x, t.top.opens = [some x] → b = x

structure Parked (own : Prop) (t : Task) : Prop where
  old : t.top.old = none
  one : t.top.opens.length = 1
  below : ∀ l ∈ t.below, Interrupted l
  kept : own → ∀ x, t.top.opens = [some x] → t.saved = some x
  idle : ¬ own → t.saved = none

section Acts

variable {own : Prop} {c c' : Hart} {t t' : Task} {a : Act}

theorem depth_eq (h : ∀ l ∈ t.below, Interrupted l) : t.depth = t.top.opens.length := by
  have hzero : ∀ n ∈ t.below.map (fun l => l.opens.length), n = 0 := by
    intro n hn
    obtain ⟨l, hl, rfl⟩ := mem_map.mp hn
    rw [(h l hl).1]
    rfl
  unfold Task.depth
  rw [map_cons, sum_cons, sum_eq_zero hzero, Nat.add_zero]

theorem Fits.popOff (h : Fits own c t) (hr : t.Ready) {x : Option Bool} {rest : List (Option Bool)}
    (hopens : t.top.opens = x :: rest) : Nesting.act .popOff c t =
      some (.ok (c.popOff, { t with top := ⟨rest, none⟩ })) := by
  have hoff : ¬ c.intr = true := by
    rw [h.off (by rw [hopens]; exact cons_ne_nil _ _)]
    decide
  have hnoff : ¬ c.noff < 1 := by
    rw [h.noff, hopens, length_cons]
    omega
  simp only [Nesting.act, hopens]
  rw [if_pos hr, if_neg hoff, if_neg hnoff]

theorem Fits.saved_none (h : Fits own c t) (hout : t.top.old ≠ none ∨ t.top.opens = []) :
    t.saved = none := by
  by_contra hne
  obtain ⟨b, hb⟩ := ne_none_iff_exists'.mp hne
  obtain ⟨hold, hone, -⟩ := h.saved b hb
  rcases hout with hout | hout
  · exact hout hold
  · rw [hout] at hone
    cases hone

theorem saved_of_none (ht : t.saved = none) (b : Bool) (hb : t.saved = some b) :
    t.top.old = none ∧ t.top.opens.length = 1 ∧ ∀ x, t.top.opens = [some x] → b = x := by
  rw [ht] at hb
  cases hb

theorem Fits.pushed (h : Fits own c t) {b : Bool} (hold : t.top.old = some b) : Fits own { c with
      intr := false, intena := if c.noff = 0 then b else c.intena, noff := c.noff + 1 }
      { t with top := ⟨some b :: t.top.opens, none⟩ } := by
  have hsaved := h.saved_none (.inl (by rw [hold]; nofun))
  refine ⟨congrArg (· + 1) h.noff, fun _ => rfl, nofun, h.below, fun hown _ x hx => ?_,
    saved_of_none hsaved⟩
  cases hopens : t.top.opens with
  | nil =>
    have hzero : c.noff = 0 := by rw [h.noff, hopens, length_nil]
    rw [hopens] at hx
    rw [if_pos hzero]
    exact some.inj (some.inj hx)
  | cons y ys =>
    have hpos : c.noff ≠ 0 := by rw [h.noff, hopens, length_cons]; omega
    rw [if_neg hpos]
    dsimp only at hx
    rw [hopens, getLast?_cons_cons, ← hopens] at hx
    exact h.intena hown hsaved x hx

theorem Fits.popped (h : Fits own c t) (hr : t.Ready) {x : Option Bool} {rest : List (Option Bool)}
    (hopens : t.top.opens = x :: rest) : Fits own c.popOff { t with top := ⟨rest, none⟩ } := by
  have hnoff : c.noff = rest.length + 1 := by rw [h.noff, hopens, length_cons]
  refine ⟨?_, fun hne => ?_, nofun, h.below, fun hown hs b hb => ?_, saved_of_none hr.2⟩
  · simp only [Hart.popOff, hnoff, Nat.add_sub_cancel]
  · have hlen : rest.length ≠ 0 := fun hz => hne (eq_nil_of_length_eq_zero hz)
    simp [Hart.popOff, hnoff, hlen]
  · refine h.intena hown hs b ?_
    cases rest with
    | nil => cases hb
    | cons y ys =>
      rw [hopens, getLast?_cons_cons]
      exact hb

theorem Fits.trapped (h : Fits own c t) (hintr : c.intr = true) :
    Fits own { c with intr := false } { t with top := ⟨[], none⟩, below := t.top :: t.below } := by
  have hopens : t.top.opens = [] := by
    by_contra hne
    rw [h.off hne] at hintr
    cases hintr
  refine ⟨?_, fun _ => rfl, nofun, fun l hl => ?_, fun _ _ => nofun,
    saved_of_none (h.saved_none (.inr hopens))⟩
  · have hnoff := h.noff
    rwa [hopens] at hnoff
  · rcases mem_cons.mp hl with rfl | hl
    · exact ⟨hopens, fun b hb => (h.old b hb).symm.trans hintr⟩
    · exact h.below l hl

theorem Fits.returned (h : Fits own c t) (hr : t.Ready) (hopens : t.top.opens = []) {l : Level}
    {ls : List Level} (hbelow : t.below = l :: ls) :
    Fits own { c with intr := true } { t with top := l, below := ls } := by
  have hl : Interrupted l := h.below l (by rw [hbelow]; exact mem_cons_self)
  refine ⟨?_, fun hne => absurd hl.1 hne, fun b hb => (hl.2 b hb).symm, fun k hk => ?_,
    fun _ _ b hb => ?_, saved_of_none hr.2⟩
  · have hnoff := h.noff
    rw [hopens] at hnoff
    exact hnoff.trans (by rw [hl.1])
  · exact h.below k (by rw [hbelow]; exact mem_cons_of_mem l hk)
  · dsimp only at hb
    rw [hl.1] at hb
    cases hb

theorem Fits.restored (h : Fits own c t) {b : Bool} (hb : t.saved = some b) :
    Fits own { c with intena := b } { t with saved := none } := by
  obtain ⟨-, hone, heq⟩ := h.saved b hb
  refine ⟨h.noff, h.off, h.old, h.below, fun _ _ x hx => ?_, nofun⟩
  obtain ⟨y, hy⟩ := length_eq_one_iff.mp hone
  dsimp only at hx
  rw [hy] at hx
  obtain rfl : y = some x := some.inj hx
  exact heq x hy

theorem Fits.act (h : Fits own c t) (hact : Nesting.act a c t = some (.ok (c', t'))) :
    Fits own c' t' ∧ c'.proc = c.proc := by
  cases a with
  | intrGet =>
    simp only [Nesting.act] at hact
    split_ifs at hact with hr
    cases hact
    exact ⟨⟨h.noff, h.off, fun b hb => some.inj hb, h.below, h.intena, saved_of_none hr.2⟩, rfl⟩
  | pushOff =>
    simp only [Nesting.act] at hact
    split at hact
    · cases hact
    · rename_i b hold
      cases hact
      exact ⟨h.pushed hold, rfl⟩
  | popOff =>
    obtain ⟨x, rest, hopens, hr⟩ : ∃ x rest, t.top.opens = x :: rest ∧ t.Ready := by
      simp only [Nesting.act] at hact
      split at hact
      · cases hact
      · rename_i x rest hopens
        by_cases hr : t.Ready
        · exact ⟨x, rest, hopens, hr⟩
        · rw [if_neg hr] at hact
          cases hact
    rw [h.popOff hr hopens] at hact
    cases hact
    exact ⟨h.popped hr hopens, rfl⟩
  | intrOn =>
    simp only [Nesting.act] at hact
    split_ifs at hact with hr
    cases hact
    exact ⟨⟨h.noff, fun hne => absurd hr.2 hne, fun b hb => absurd hb (by rw [hr.1.1]; nofun),
      h.below, h.intena, h.saved⟩, rfl⟩
  | intrOff =>
    simp only [Nesting.act] at hact
    split_ifs at hact with hr
    cases hact
    exact ⟨⟨h.noff, fun _ => rfl, fun b hb => absurd hb (by rw [hr.1.1]; nofun),
      h.below, h.intena, h.saved⟩, rfl⟩
  | trap =>
    simp only [Nesting.act] at hact
    split_ifs at hact with hintr
    cases hact
    exact ⟨h.trapped hintr, rfl⟩
  | sret =>
    simp only [Nesting.act] at hact
    split at hact
    · cases hact
    · rename_i l ls hbelow
      split_ifs at hact with hr
      cases hact
      exact ⟨h.returned hr.1 hr.2 hbelow, rfl⟩
  | restore =>
    simp only [Nesting.act] at hact
    split at hact
    · cases hact
    · rename_i b hb
      cases hact
      exact ⟨h.restored hb, rfl⟩

theorem Fits.act_ne_error (h : Fits own c t) (e : String) :
    Nesting.act a c t ≠ some (.error e) := by
  intro hact
  cases a with
  | popOff =>
    by_cases hr : t.Ready
    · cases hopens : t.top.opens with
      | nil => simp [Nesting.act, hopens] at hact
      | cons x rest =>
        rw [h.popOff hr hopens] at hact
        cases hact
    · simp only [Nesting.act, if_neg hr] at hact
      split at hact <;> cases hact
  | _ =>
    simp only [Nesting.act] at hact
    split at hact <;> first | cases hact | (split_ifs at hact; cases hact)

theorem Fits.last_popOff (h : Fits own c t) (hown : own) (hr : t.Ready) {b : Bool}
    (hb : t.top.opens = [some b]) : c.popOff.intr = b := by
  have hnoff : c.noff = 1 := by rw [h.noff, hb]; rfl
  have hintena := h.intena hown hr.2 b (by rw [hb]; rfl)
  simp [Hart.popOff, hnoff, hintena]

end Acts

structure Inv (s : State) : Prop where
  fits : ∀ h, Fits (IsProc (s.who h)) (s.cpu h) (s.current h)
  on : ∀ a h, s.on a = some h ↔ s.who h = a
  parked : ∀ a, s.on a = none → Parked (IsProc a) (s.task a)

section Steps

variable {s t : State} {h i : Nat} {c : Hart} {u : Task} {own : Prop}

theorem Parked.fits (hp : Parked own u) (hone : c.noff = 1) (hoff : c.intr = false) :
    Fits own c u := by
  obtain ⟨y, hy⟩ := length_eq_one_iff.mp hp.one
  refine ⟨hone.trans hp.one.symm, fun _ => hoff, fun b hb => ?_, hp.below, fun hown hs b hb => ?_,
    fun b hb => ⟨hp.old, hp.one, fun x hx => ?_⟩⟩
  · rw [hp.old] at hb
    cases hb
  · rw [hy] at hb
    obtain rfl : y = some b := some.inj hb
    rw [hp.kept hown b hy] at hs
    cases hs
  · by_cases hown : own
    · exact some.inj (hb.symm.trans (hp.kept hown x hx))
    · rw [hp.idle hown] at hb
      cases hb

theorem inv_boot (intr intena : Nat → Bool) : Inv (boot intr intena) := by
  refine ⟨fun h => ?_, fun a h => ?_, fun a ha => ?_⟩
  · exact ⟨rfl, fun hne => absurd rfl hne, nofun, nofun, nofun, nofun⟩
  · cases a with
    | sched k => simp [boot, State.who, thread, eq_comm]
    | proc i => exact iff_of_false nofun nofun
  · cases a with
    | sched k => cases ha
    | proc i => exact ⟨rfl, rfl, nofun, fun _ => nofun, fun _ => rfl⟩

theorem Inv.who_ne (hs : Inv s) {k : Nat} (hk : k ≠ h) : s.who k ≠ s.who h := by
  intro he
  exact hk (some.inj (((hs.on _ k).mpr rfl).symm.trans ((hs.on _ h).mpr he.symm)))

theorem put_who (s : State) (u : Task) (hproc : c.proc = (s.cpu h).proc) (k : Nat) :
    (s.put h c u).who k = s.who k := by
  unfold State.who State.put
  dsimp only
  by_cases hk : k = h
  · rw [hk, update_self, hproc]
  · rw [update_of_ne hk]

theorem put_current (s : State) (u : Task) (hproc : c.proc = (s.cpu h).proc) :
    (s.put h c u).current h = u := by
  rw [State.current, put_who s u hproc]
  exact update_self _ _ _

theorem Inv.put (hs : Inv s) (hfits : Fits (IsProc (s.who h)) c u)
    (hproc : c.proc = (s.cpu h).proc) : Inv (s.put h c u) := by
  have hwho := put_who s u hproc
  have hcur : s.on (s.who h) = some h := (hs.on _ h).mpr rfl
  refine ⟨fun k => ?_, fun a k => by rw [hwho]; exact hs.on a k, fun a ha => ?_⟩
  · rw [State.current, hwho]
    unfold State.put
    dsimp only
    by_cases hk : k = h
    · subst hk
      rw [update_self, update_self]
      exact hfits
    · rw [update_of_ne hk, update_of_ne (hs.who_ne hk)]
      exact hs.fits k
  · have ha : s.on a = none := ha
    have hne : a ≠ s.who h := by
      rintro rfl
      rw [hcur] at ha
      cases ha
    unfold State.put
    dsimp only
    rw [update_of_ne hne]
    exact hs.parked a ha

theorem Inv.act (hs : Inv s) {a : Act} (hstep : step s (.act h a) = some (.ok t)) : Inv t := by
  obtain ⟨r, hact, hr⟩ := map_eq_some_iff.mp hstep
  cases r with
  | error e => cases hr
  | ok q =>
    obtain rfl : s.put h q.1 q.2 = t := Except.ok.inj hr
    obtain ⟨hfits, hproc⟩ := (hs.fits h).act hact
    exact hs.put hfits hproc

theorem Inv.swtch (hs : Inv s) {p : Option Nat} (hone : (s.cpu h).noff = 1)
    (hoff : (s.cpu h).intr = false) (hleft : Parked (IsProc (s.who h)) (s.current h))
    (hnext : s.on (thread h p) = none) : Inv (s.swtch h p) := by
  have hself : (s.swtch h p).who h = thread h p := by simp [State.swtch, State.who]
  have hother : ∀ k, k ≠ h → (s.swtch h p).who k = s.who k := by
    intro k hk
    simp [State.swtch, State.who, hk]
  have hcur : s.on (s.who h) = some h := (hs.on _ h).mpr rfl
  have hne : s.who h ≠ thread h p := by
    intro he
    rw [he, hnext] at hcur
    cases hcur
  have hon : ∀ a, (s.swtch h p).on a =
      if a = thread h p then some h else if a = s.who h then none else s.on a := by
    intro a
    simp only [State.swtch, update_apply]
  refine ⟨fun k => ?_, fun a k => ?_, fun a ha => ?_⟩
  · by_cases hk : k = h
    · subst hk
      rw [State.current, hself]
      unfold State.swtch
      dsimp only
      rw [update_self]
      exact (hs.parked _ hnext).fits hone hoff
    · rw [State.current, hother k hk]
      unfold State.swtch
      dsimp only
      rw [update_of_ne hk]
      exact hs.fits k
  · rw [hon]
    by_cases hk : k = h
    · subst hk
      rw [hself]
      split_ifs with h1 h2
      · exact iff_of_true rfl h1.symm
      · exact iff_of_false nofun (Ne.symm h1)
      · exact iff_of_false (fun ha => h2 ((hs.on a k).mp ha).symm) (Ne.symm h1)
    · rw [hother k hk]
      split_ifs with h1 h2
      · refine iff_of_false (fun he => hk (some.inj he).symm) (fun he => ?_)
        rw [← h1, ← he, (hs.on _ k).mpr rfl] at hnext
        cases hnext
      · exact iff_of_false nofun (fun he => hs.who_ne hk (he.trans h2))
      · exact hs.on a k
  · rw [hon] at ha
    split_ifs at ha with h1 h2
    · subst h2
      exact hleft
    · exact hs.parked a ha

theorem Inv.sched_off (hs : Inv s) (hp : (s.cpu h).proc ≠ none) : s.on (.sched h) = none := by
  by_contra hne
  obtain ⟨k, hk⟩ := ne_none_iff_exists'.mp hne
  have hwho := (hs.on _ k).mp hk
  unfold State.who at hwho
  cases hpk : (s.cpu k).proc with
  | none =>
    rw [hpk] at hwho
    obtain rfl : k = h := Thread.sched.inj hwho
    exact hp hpk
  | some i =>
    rw [hpk] at hwho
    cases hwho

theorem isProc_who (hp : (s.cpu h).proc ≠ none) : IsProc (s.who h) := by
  obtain ⟨i, hi⟩ := ne_none_iff_exists'.mp hp
  rw [State.who, hi]
  trivial

theorem Inv.sched (hs : Inv s) (hstep : step s (.sched h) = some (.ok t)) : Inv t := by
  simp only [step] at hstep
  by_cases hg : (s.cpu h).proc ≠ none ∧ (s.current h).Ready
  · rw [if_pos hg] at hstep
    have hok := some.inj hstep
    split_ifs at hok with hone hoff
    obtain rfl := Except.ok.inj hok
    obtain ⟨hp, hr⟩ := hg
    have hone : (s.cpu h).noff = 1 := not_not.mp hone
    have hfits := hs.fits h
    have hown := isProc_who hp
    generalize hu : ({ s.current h with saved := some (s.cpu h).intena } : Task) = u
    have hpark : Parked (IsProc (s.who h)) u := by
      subst hu
      refine ⟨hr.1, hfits.noff.symm.trans hone, hfits.below, fun _ x hx => ?_,
        fun hno => absurd hown hno⟩
      have hx : (s.current h).top.opens = [some x] := hx
      exact congrArg some (hfits.intena hown hr.2 x (by rw [hx]; rfl))
    have hoff : (s.cpu h).intr = false := by simpa using hoff
    have hput := hs.put (hpark.fits hone hoff) rfl
    have hcpu : (s.put h (s.cpu h) u).cpu h = s.cpu h := update_self _ _ _
    refine hput.swtch (by rw [hcpu]; exact hone) (by rw [hcpu]; exact hoff) ?_ (hs.sched_off hp)
    rw [put_who s u rfl, put_current s u rfl]
    exact hpark
  · rw [if_neg hg] at hstep
    cases hstep

theorem Inv.dispatch (hs : Inv s) (hstep : step s (.dispatch h i) = some (.ok t)) : Inv t := by
  simp only [step] at hstep
  split_ifs at hstep with hg
  obtain rfl := Except.ok.inj (some.inj hstep)
  obtain ⟨hp, hr, hdepth, hon⟩ := hg
  have hfits := hs.fits h
  have hlen : (s.current h).top.opens.length = 1 := by rw [← depth_eq hfits.below, hdepth]
  have hown : ¬ IsProc (s.who h) := by
    rw [State.who, hp]
    exact id
  exact hs.swtch (hfits.noff.trans hlen) (hfits.off (ne_nil_of_length_pos (by rw [hlen]; decide)))
    ⟨hr.1, hlen, hfits.below, fun hyes => absurd hyes hown, fun _ => hr.2⟩ hon

theorem Inv.create (hs : Inv s) (hstep : step s (.create i) = some (.ok t)) : Inv t := by
  simp only [step] at hstep
  split_ifs at hstep with hon
  obtain rfl := Except.ok.inj (some.inj hstep)
  refine ⟨fun k => ?_, hs.on, fun a ha => ?_⟩
  · have hne : s.who k ≠ .proc i := by
      intro he
      rw [(hs.on _ k).mpr he] at hon
      cases hon
    have hcur : update s.task (.proc i) .fresh (s.who k) = s.current k :=
      update_of_ne hne _ _
    have hfits := hs.fits k
    rw [← hcur] at hfits
    exact hfits
  · dsimp only
    rw [update_apply]
    split_ifs with hi
    · subst hi
      exact ⟨rfl, rfl, nofun, fun _ => nofun, fun _ => rfl⟩
    · exact hs.parked a ha

theorem Inv.step (hs : Inv s) (e : Event) (hstep : Nesting.step s e = some (.ok t)) : Inv t := by
  cases e with
  | act h a => exact hs.act hstep
  | sched h => exact hs.sched hstep
  | dispatch h i => exact hs.dispatch hstep
  | create i => exact hs.create hstep

theorem Inv.step_error (hs : Inv s) {e : Event} {msg : String}
    (hstep : Nesting.step s e = some (.error msg)) :
    msg = "sched locks" ∨ msg = "sched interruptible" := by
  cases e with
  | act h a =>
    obtain ⟨r, hact, hr⟩ := map_eq_some_iff.mp hstep
    cases r with
    | error e => exact absurd hact ((hs.fits h).act_ne_error e)
    | ok q => cases hr
  | sched h =>
    simp only [Nesting.step] at hstep
    by_cases hg : (s.cpu h).proc ≠ none ∧ (s.current h).Ready
    · rw [if_pos hg] at hstep
      have herr := some.inj hstep
      split_ifs at herr
      · exact .inl (Except.error.inj herr).symm
      · exact .inr (Except.error.inj herr).symm
    · rw [if_neg hg] at hstep
      cases hstep
  | dispatch h i =>
    simp only [Nesting.step] at hstep
    split_ifs at hstep
    cases hstep
  | create i =>
    simp only [Nesting.step] at hstep
    split_ifs at hstep
    cases hstep

theorem machine_step {e : Event} (h : machine.step s e = some t) : step s e = some (.ok t) := by
  simp only [machine] at h
  split at h
  · rename_i u hu
    rw [hu, some.inj h]
  · cases h

theorem reachable_inv {intr intena : Nat → Bool}
    (h : machine.Reachable (boot intr intena) s) : Inv s :=
  h.inv (fun _ e _ hstep hI => Inv.step hI e (machine_step hstep)) (inv_boot intr intena)

end Steps

/-- Every run of the threads on any harts. A process that has one `push_off` open finds
interrupts, after its `pop_off`, as `intr_get` returned them in the `push_off`, and this was
their state when `push_off` turned them off. -/
theorem interrupts_survive {intr intena : Nat → Bool} {s : State}
    (hreach : machine.Reachable (boot intr intena) s) :
    (∀ h, (s.cpu h).noff = (s.current h).depth ∧ (0 < (s.cpu h).noff → (s.cpu h).intr = false)) ∧
    (∀ h b, (s.current h).top.old = some b → (s.cpu h).intr = b) ∧
    (∀ h b, (s.cpu h).proc ≠ none → (s.current h).Ready → (s.current h).depth = 1 →
      (s.current h).top.opens.getLast? = some (some b) →
      ∃ t, step s (.act h .popOff) = some (.ok t) ∧ (t.cpu h).intr = b ∧ (t.current h).depth = 0) ∧
    ∀ e, step s e ≠ some (.error "pop_off") ∧
      step s e ≠ some (.error "pop_off - interruptible") := by
  have hs := reachable_inv hreach
  refine ⟨fun h => ⟨?_, fun hpos => ?_⟩, fun h => (hs.fits h).old, fun h b hp hr hd hb => ?_,
    fun e => ?_⟩
  · rw [depth_eq (hs.fits h).below]
    exact (hs.fits h).noff
  · refine (hs.fits h).off (ne_nil_of_length_pos ?_)
    rwa [← (hs.fits h).noff]
  · have hfits := hs.fits h
    rw [depth_eq hfits.below] at hd
    obtain ⟨y, hy⟩ := length_eq_one_iff.mp hd
    obtain rfl : y = some b := by
      rw [hy] at hb
      exact some.inj hb
    refine ⟨s.put h (s.cpu h).popOff { s.current h with top := ⟨[], none⟩ }, ?_, ?_, ?_⟩
    · simp only [step, hfits.popOff hr hy]
      rfl
    · exact (congrArg Hart.intr (update_self _ _ _)).trans (hfits.last_popOff (isProc_who hp) hr hy)
    · rw [put_current (c := (s.cpu h).popOff) s _ rfl]
      exact depth_eq hfits.below
  · constructor
    · intro he
      rcases hs.step_error he with hm | hm <;> exact absurd hm (by decide)
    · intro he
      rcases hs.step_error he with hm | hm <;> exact absurd hm (by decide)

/-- A process enters `sched` on hart 0, where interrupts were on, and comes out of it on
hart 1, where they were off. -/
def migration : List Event :=
  [.act 0 .intrGet, .act 0 .pushOff, .dispatch 0 5, .act 0 .popOff, .act 0 .intrOn,
    .act 0 .intrGet, .act 0 .pushOff, .sched 0, .act 1 .intrGet, .act 1 .pushOff, .dispatch 1 5,
    .act 1 .restore]

theorem interrupts_survive_migration :
    ∃ s, machine.exec (boot (fun _ => false) (fun _ => false)) migration = some s ∧
      (s.cpu 1).noff = 1 ∧ ∃ t, step s (.act 1 .popOff) = some (.ok t) ∧ (t.cpu 1).intr = true := by
  have hrun : (machine.exec (boot (fun _ => false) (fun _ => false)) migration).map (fun s =>
      decide ((s.cpu 1).noff = 1 ∧ (s.cpu 1).proc ≠ none ∧ (s.current 1).Ready ∧
        (s.current 1).depth = 1 ∧ (s.current 1).top.opens.getLast? = some (some true))) =
      some true := by decide +kernel
  obtain ⟨s, hs, hobs⟩ := map_eq_some_iff.mp hrun
  obtain ⟨hnoff, hp, hr, hdepth, hlast⟩ := of_decide_eq_true hobs
  obtain ⟨t, hstep, hintr, -⟩ := (interrupts_survive ⟨migration, hs⟩).2.2.1 1 true hp hr hdepth hlast
  exact ⟨s, hs, hnoff, t, hstep, hintr⟩

end Xv6.Nesting
