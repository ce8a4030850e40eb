import Xv6.Machine

/-! Processors that run programs. A program takes atomic steps, calls procedures
and switches to other contexts, and an interrupt puts a handler in front of it.
A logic says what a step needs and gives, in terms of the resources of the
processor and of the context on it; programs that are right by the logic keep
an invariant of the whole system. -/

namespace Threads

open Function Option

variable {Act κ π ι σ ω ν ε H K α β : Type} {Res : Act → Type} {Ret : κ → Type}

/-- `swtch` saves the rest of the program in one context and goes on with
another one, `entry` lets a context start with a procedure. -/
inductive Prog {Act κ : Type} (Res : Act → Type) (Ret : κ → Type) (π ι α : Type) : Type where
  | done (a : α)
  | step (a : Act) (k : Res a → Prog Res Ret π ι α)
  | call (c : κ) (k : Ret c → Prog Res Ret π ι α)
  | swtch (save load : π → ι) (k : Prog Res Ret π ι α)
  | entry (x : ι) (c : κ) (k : Prog Res Ret π ι α)

namespace Prog

def bind : Prog Res Ret π ι α → (α → Prog Res Ret π ι β) → Prog Res Ret π ι β
  | .done a, f => f a
  | .step a k, f => .step a (fun r => (k r).bind f)
  | .call c k, f => .call c (fun r => (k r).bind f)
  | .swtch save load k, f => .swtch save load (k.bind f)
  | .entry x c k, f => .entry x c (k.bind f)

instance : Monad (Prog Res Ret π ι) where
  pure := .done
  bind := bind

def act (a : Act) : Prog Res Ret π ι (Res a) := .step a .done

def run (c : κ) : Prog Res Ret π ι (Ret c) := .call c .done

def switch (save load : π → ι) : Prog Res Ret π ι Unit := .swtch save load (.done ())

def start (x : ι) (c : κ) : Prog Res Ret π ι Unit := .entry x c (.done ())

end Prog

/-- Conditions and effects of the steps, for the resources `H` of a processor and
`K` of a context. `back` relates the processor that left a context to one that
resumes it. -/
structure Logic (Res : Act → Type) (Ret : κ → Type) (π ι H K : Type) where
  pre : Act → H → K → Prop
  post : (a : Act) → H → K → Res a → H → K → Prop
  need : κ → H → K → Prop
  give : (c : κ) → H → K → Ret c → H → K → Prop
  leave : (π → ι) → (π → ι) → H → K → Prop
  back : H → H → Prop
  setup : ι → κ → H → K → Prop
  ready : ι → κ → H → K → H → K → Prop

def Right (L : Logic Res Ret π ι H K) : Prog Res Ret π ι α → H → K → (α → H → K → Prop) → Prop
  | .done a, h, k, Q => Q a h k
  | .step a p, h, k, Q => L.pre a h k ∧ ∀ r h' k', L.post a h k r h' k' → Right L (p r) h' k' Q
  | .call c p, h, k, Q => L.need c h k ∧ ∀ r h' k', L.give c h k r h' k' → Right L (p r) h' k' Q
  | .swtch save load p, h, k, Q =>
    L.leave save load h k ∧ ∀ h', L.back h h' → Right L p h' k Q
  | .entry x c p, h, k, Q =>
    L.setup x c h k ∧ ∀ h' k', L.ready x c h k h' k' → Right L p h' k' Q

section Rules

variable {L : Logic Res Ret π ι H K} {p : Prog Res Ret π ι α} {f : α → Prog Res Ret π ι β}
  {h : H} {k : K} {Q Q' : α → H → K → Prop} {R : β → H → K → Prop}

theorem Right.bind (hp : Right L p h k Q) (hf : ∀ a h k, Q a h k → Right L (f a) h k R) :
    Right L (p >>= f) h k R := by
  induction p generalizing h k with
  | done a => exact hf a h k hp
  | step a p ih => exact ⟨hp.1, fun r h' k' hr => ih r (hp.2 r h' k' hr)⟩
  | call c p ih => exact ⟨hp.1, fun r h' k' hr => ih r (hp.2 r h' k' hr)⟩
  | swtch save load p ih => exact ⟨hp.1, fun h' hb => ih (hp.2 h' hb)⟩
  | entry x c p ih => exact ⟨hp.1, fun h' k' hr => ih (hp.2 h' k' hr)⟩

theorem Right.seq (hp : Right L p h k (fun a h' k' => Right L (f a) h' k' R)) :
    Right L (p >>= f) h k R := hp.bind (fun _ _ _ => id)

theorem Right.pure {a : α} (hQ : Q a h k) : Right L (Pure.pure a : Prog Res Ret π ι α) h k Q := hQ

theorem Right.run {c : κ} {Q : Ret c → H → K → Prop} (hneed : L.need c h k)
    (hQ : ∀ r h' k', L.give c h k r h' k' → Q r h' k') : Right L (Prog.run c) h k Q :=
  ⟨hneed, hQ⟩

theorem Right.switch {save load : π → ι} {Q : Unit → H → K → Prop} (hl : L.leave save load h k)
    (hQ : ∀ h', L.back h h' → Q () h' k) : Right L (Prog.switch save load) h k Q := ⟨hl, hQ⟩

theorem Right.start {x : ι} {c : κ} {Q : Unit → H → K → Prop} (hs : L.setup x c h k)
    (hQ : ∀ h' k', L.ready x c h k h' k' → Q () h' k') : Right L (Prog.start x c) h k Q := ⟨hs, hQ⟩

end Rules

structure World (Res : Act → Type) (Ret : κ → Type) (π ι σ : Type) where
  st : σ
  prog : π → Prog Res Ret π ι Unit
  ctx : ι → Prog Res Ret π ι Unit
  cur : π → ι

/-- A step of a processor, with what comes from outside, or an interrupt. -/
inductive Event (π ω ν : Type) where
  | step (p : π) (x : ω)
  | trap (p : π) (v : ν)

/-- A step that cannot be taken yet has no outcome; one that fails ends the run. -/
structure System (Res : Act → Type) (Ret : κ → Type) (π ι σ ω ν ε : Type) where
  exec : π → (a : Act) → ω → σ → Option (Except ε (Res a × σ))
  body : (c : κ) → Prog Res Ret π ι (Ret c)
  trap : π → ν → σ → Option σ
  handler : ν → Prog Res Ret π ι Unit

section Running

variable [DecidableEq π] [DecidableEq ι] (M : System Res Ret π ι σ ω ν ε)

def World.put (w : World Res Ret π ι σ) (p : π) (q : Prog Res Ret π ι Unit) : World Res Ret π ι σ :=
  { w with prog := Function.update w.prog p q }

def advance (w : World Res Ret π ι σ) (p : π) (x : ω) :
    Prog Res Ret π ι Unit → Option (Except ε (World Res Ret π ι σ))
  | .done _ => none
  | .step a k =>
    (M.exec p a x w.st).map (fun r => r.map (fun y => { w.put p (k y.1) with st := y.2 }))
  | .call c k => some (.ok (w.put p (M.body c >>= k)))
  | .swtch save load k =>
    some (.ok { w.put p (w.ctx (load p)) with
      ctx := Function.update w.ctx (save p) k, cur := Function.update w.cur p (load p) })
  | .entry x c k =>
    some (.ok { w.put p k with ctx := Function.update w.ctx x (.call c (fun _ => .done ())) })

def fire (w : World Res Ret π ι σ) : Event π ω ν → Option (Except ε (World Res Ret π ι σ))
  | .step p x => advance M w p x (w.prog p)
  | .trap p v =>
    (M.trap p v w.st).map (fun t => .ok { w.put p (M.handler v >>= fun _ => w.prog p) with st := t })

def machine : Machine (World Res Ret π ι σ) (Event π ω ν) :=
  ⟨fun w e => (fire M w e).bind Except.toOption⟩

/-- The resources of the processors and of the contexts, and how the parked
contexts were left. -/
structure Ghost (π ι H K : Type) where
  held : π → H
  kept : ι → K
  parked : ι → H

def Ghost.set (g : Ghost π ι H K) (p : π) (x : ι) (h : H) (k : K) : Ghost π ι H K :=
  { g with held := Function.update g.held p h, kept := Function.update g.kept x k }

variable (L : Logic Res Ret π ι H K) (Inv : σ → Ghost π ι H K → (π → ι) → Prop) (E : ε → Prop)

structure Sound : Prop where
  fails : ∀ {s g cur p a x e}, Inv s g cur → L.pre a (g.held p) (g.kept (cur p)) →
    M.exec p a x s = some (.error e) → E e
  step : ∀ {s g cur p a x r t}, Inv s g cur → L.pre a (g.held p) (g.kept (cur p)) →
    M.exec p a x s = some (.ok (r, t)) →
    ∃ h k, L.post a (g.held p) (g.kept (cur p)) r h k ∧ Inv t (g.set p (cur p) h k) cur
  swtch : ∀ {s g cur p save load}, Inv s g cur → L.leave save load (g.held p) (g.kept (cur p)) →
    save p = cur p ∧ (∀ q, cur q ≠ load p) ∧
    ∃ h, L.back (g.parked (load p)) h ∧
      Inv s ⟨Function.update g.held p h, g.kept, Function.update g.parked (save p) (g.held p)⟩
        (Function.update cur p (load p))
  entry : ∀ {s g cur p x c}, Inv s g cur → L.setup x c (g.held p) (g.kept (cur p)) →
    (∀ q, cur q ≠ x) ∧
    ∃ h k h₀ k₀, L.ready x c (g.held p) (g.kept (cur p)) h k ∧
      (∀ h', L.back h₀ h' → L.need c h' k₀) ∧
      Inv s ⟨Function.update g.held p h, Function.update (Function.update g.kept (cur p) k) x k₀,
        Function.update g.parked x h₀⟩ cur
  trap : ∀ {s g cur p v t}, Inv s g cur → M.trap p v s = some t →
    Inv t g cur ∧ Right L (M.handler v) (g.held p) (g.kept (cur p))
      (fun _ h k => h = g.held p ∧ k = g.kept (cur p))

def Verified : Prop := ∀ c h k, L.need c h k → Right L (M.body c) h k (L.give c h k)

structure Config (w : World Res Ret π ι σ) (g : Ghost π ι H K) : Prop where
  inv : Inv w.st g w.cur
  inj : Function.Injective w.cur
  prog : ∀ p, Right L (w.prog p) (g.held p) (g.kept (w.cur p)) (fun _ _ _ => True)
  ctx : ∀ x, (∀ p, w.cur p ≠ x) → ∀ h, L.back (g.parked x) h →
    Right L (w.ctx x) h (g.kept x) (fun _ _ _ => True)

variable {M L Inv E} {w : World Res Ret π ι σ} {g : Ghost π ι H K} {p : π}

@[simp] theorem Ghost.set_held_self (g : Ghost π ι H K) (p : π) (x : ι) (h : H) (k : K) :
    (g.set p x h k).held p = h := update_self _ _ _

theorem Ghost.set_held_of_ne (g : Ghost π ι H K) {p q : π} (x : ι) (h : H) (k : K) (hq : q ≠ p) :
    (g.set p x h k).held q = g.held q := update_of_ne hq _ _

@[simp] theorem Ghost.set_kept_self (g : Ghost π ι H K) (p : π) (x : ι) (h : H) (k : K) :
    (g.set p x h k).kept x = k := update_self _ _ _

theorem Ghost.set_kept_of_ne (g : Ghost π ι H K) (p : π) {x y : ι} (h : H) (k : K) (hy : y ≠ x) :
    (g.set p x h k).kept y = g.kept y := update_of_ne hy _ _

theorem Config.put (hc : Config L Inv w g) {h : H} {k : K} {q : Prog Res Ret π ι Unit} {t : σ}
    (hq : Right L q h k (fun _ _ _ => True)) (ht : Inv t (g.set p (w.cur p) h k) w.cur) :
    Config L Inv { w.put p q with st := t } (g.set p (w.cur p) h k) := by
  refine ⟨ht, hc.inj, fun r => ?_, fun x hx h' hb => ?_⟩
  · show Right L (update w.prog p q r) _ _ _
    by_cases hr : r = p
    · subst hr
      rw [update_self, Ghost.set_held_self, World.put, Ghost.set_kept_self]
      exact hq
    · have hne : w.cur r ≠ w.cur p := fun he => hr (hc.inj he)
      rw [update_of_ne hr, Ghost.set_held_of_ne _ _ _ _ hr, World.put,
        Ghost.set_kept_of_ne _ _ _ _ hne]
      exact hc.prog r
  · have hne : x ≠ w.cur p := (hx p).symm
    rw [Ghost.set_kept_of_ne _ _ _ _ hne]
    exact hc.ctx x hx h' hb

theorem Ghost.set_same (g : Ghost π ι H K) (p : π) (x : ι) :
    g.set p x (g.held p) (g.kept x) = g := by
  unfold Ghost.set
  rw [update_eq_self, update_eq_self]

theorem Config.swtch (hc : Config L Inv w g) (hs : Sound M L Inv E) {save load : π → ι}
    {q : Prog Res Ret π ι Unit} (hleave : L.leave save load (g.held p) (g.kept (w.cur p)))
    (hq : ∀ h, L.back (g.held p) h → Right L q h (g.kept (w.cur p)) (fun _ _ _ => True)) :
    ∃ g', Config L Inv { w.put p (w.ctx (load p)) with
      ctx := update w.ctx (save p) q, cur := update w.cur p (load p) } g' := by
  obtain ⟨hsave, hload, h, hback, hinv⟩ := hs.swtch hc.inv hleave
  refine ⟨_, hinv, fun r r' hr => ?_, fun r => ?_, fun x hx h' hb => ?_⟩
  · dsimp only at hr
    by_cases h1 : r = p
    · by_cases h2 : r' = p
      · rw [h1, h2]
      · rw [h1, update_self, update_of_ne h2] at hr
        exact absurd hr.symm (hload r')
    · by_cases h2 : r' = p
      · rw [h2, update_self, update_of_ne h1] at hr
        exact absurd hr (hload r)
      · rw [update_of_ne h1, update_of_ne h2] at hr
        exact hc.inj hr
  · show Right L (update w.prog p (w.ctx (load p)) r) (update g.held p h r)
      (g.kept (update w.cur p (load p) r)) _
    by_cases hr : r = p
    · rw [hr, update_self, update_self, update_self]
      exact hc.ctx _ hload h hback
    · rw [update_of_ne hr, update_of_ne hr, update_of_ne hr]
      exact hc.prog r
  · dsimp only at hx hb ⊢
    by_cases hxs : x = save p
    · rw [hxs, update_self] at hb
      rw [hxs, update_self, hsave]
      exact hq h' hb
    · rw [update_of_ne hxs] at hb ⊢
      refine hc.ctx x (fun r hr => ?_) h' hb
      by_cases hrp : r = p
      · rw [hrp, ← hsave] at hr
        exact hxs hr.symm
      · have := hx r
        rw [update_of_ne hrp] at this
        exact this hr

theorem Config.entry (hc : Config L Inv w g) (hs : Sound M L Inv E) {x : ι} {c : κ}
    {q : Prog Res Ret π ι Unit} (hsetup : L.setup x c (g.held p) (g.kept (w.cur p)))
    (hq : ∀ h k, L.ready x c (g.held p) (g.kept (w.cur p)) h k →
      Right L q h k (fun _ _ _ => True)) :
    ∃ g', Config L Inv { w.put p q with
      ctx := update w.ctx x (.call c (fun _ => .done ())) } g' := by
  obtain ⟨hfree, h, k, h₀, k₀, hready, hneed, hinv⟩ := hs.entry hc.inv hsetup
  refine ⟨_, hinv, hc.inj, fun r => ?_, fun y hy h' hb => ?_⟩
  · show Right L (update w.prog p q r) (update g.held p h r)
      (update (update g.kept (w.cur p) k) x k₀ (w.cur r)) _
    rw [update_of_ne (hfree r)]
    by_cases hr : r = p
    · rw [hr, update_self, update_self, update_self]
      exact hq h k hready
    · have hne : w.cur r ≠ w.cur p := fun he => hr (hc.inj he)
      rw [update_of_ne hr, update_of_ne hr, update_of_ne hne]
      exact hc.prog r
  · dsimp only at hb ⊢
    by_cases hyx : y = x
    · rw [hyx, update_self] at hb
      rw [hyx, update_self, update_self]
      exact ⟨hneed h' hb, fun r h'' k'' hg => trivial⟩
    · have hne : y ≠ w.cur p := (hy p).symm
      rw [update_of_ne hyx] at hb ⊢
      rw [update_of_ne hyx, update_of_ne hne]
      exact hc.ctx y hy h' hb

/-- One event keeps the configuration, or fails as it may. -/
theorem Config.fire (hc : Config L Inv w g) (hs : Sound M L Inv E) (hv : Verified M L)
    {ev : Event π ω ν} {r : Except ε (World Res Ret π ι σ)} (hf : fire M w ev = some r) :
    (∀ e, r = .error e → E e) ∧ ∀ w', r = .ok w' → ∃ g', Config L Inv w' g' := by
  cases ev with
  | trap p v =>
    obtain ⟨t, ht, rfl⟩ := map_eq_some_iff.mp hf
    obtain ⟨hinv, hright⟩ := hs.trap hc.inv ht
    refine ⟨fun e he => by simp at he, fun w' hw => ?_⟩
    obtain rfl := (Except.ok.inj hw).symm
    refine ⟨g.set p (w.cur p) (g.held p) (g.kept (w.cur p)), hc.put ?_ ?_⟩
    · refine hright.bind (fun _ h k hk => ?_)
      rw [hk.1, hk.2]
      exact hc.prog p
    · rw [Ghost.set_same]
      exact hinv
  | step p x =>
    have hp := hc.prog p
    cases hw : w.prog p with
    | done a => simp [Threads.fire, hw, advance] at hf
    | step a q =>
      rw [hw] at hp
      simp only [Threads.fire, hw, advance] at hf
      obtain ⟨o, ho, rfl⟩ := map_eq_some_iff.mp hf
      cases o with
      | error e =>
        refine ⟨fun e' he => ?_, fun w' hw => by simp [Except.map] at hw⟩
        obtain rfl : e = e' := by simpa [Except.map] using he
        exact hs.fails hc.inv hp.1 ho
      | ok y =>
        refine ⟨fun e he => by simp [Except.map] at he, fun w' hw => ?_⟩
        obtain rfl : _ = w' := by simpa [Except.map] using hw
        obtain ⟨h, k, hpost, hinv⟩ := hs.step hc.inv hp.1 ho
        exact ⟨_, hc.put (hp.2 y.1 h k hpost) hinv⟩
    | call c q =>
      rw [hw] at hp
      simp only [Threads.fire, hw, advance, some.injEq] at hf
      subst hf
      refine ⟨fun e he => by simp at he, fun w' hw => ?_⟩
      obtain rfl := (Except.ok.inj hw).symm
      refine ⟨g.set p (w.cur p) (g.held p) (g.kept (w.cur p)), hc.put (t := w.st) ?_ ?_⟩
      · exact (hv c _ _ hp.1).bind hp.2
      · rw [Ghost.set_same]
        exact hc.inv
    | swtch save load q =>
      rw [hw] at hp
      simp only [Threads.fire, hw, advance, some.injEq] at hf
      subst hf
      refine ⟨fun e he => by simp at he, fun w' hw => ?_⟩
      obtain rfl := (Except.ok.inj hw).symm
      exact hc.swtch hs hp.1 hp.2
    | entry y c q =>
      rw [hw] at hp
      simp only [Threads.fire, hw, advance, some.injEq] at hf
      subst hf
      refine ⟨fun e he => by simp at he, fun w' hw => ?_⟩
      obtain rfl := (Except.ok.inj hw).symm
      exact hc.entry hs hp.1 hp.2

theorem Config.step (hs : Sound M L Inv E) (hv : Verified M L) {w' : World Res Ret π ι σ}
    {ev : Event π ω ν} (hc : ∃ g, Config L Inv w g) (hw : (machine M).step w ev = some w') :
    ∃ g, Config L Inv w' g := by
  obtain ⟨g, hc⟩ := hc
  obtain ⟨r, hr, ho⟩ := bind_eq_some_iff.mp hw
  cases r with
  | error e => simp [Except.toOption] at ho
  | ok u =>
    obtain rfl : u = w' := by simpa [Except.toOption] using ho
    exact (hc.fire hs hv hr).2 u rfl

theorem Config.reachable (hs : Sound M L Inv E) (hv : Verified M L) {w' : World Res Ret π ι σ}
    (hc : ∃ g, Config L Inv w g) (hr : (machine M).Reachable w w') : ∃ g, Config L Inv w' g :=
  hr.inv (fun _ _ _ hw hc => Config.step hs hv hc hw) hc

end Running

end Threads
