import Xv6.Pipe

/-! What holds of a pipe in every run: the stream of bytes, the references to its two
ends, the page, and the sleepers. -/

namespace Xv6

namespace Pipes

open WrapRing Function List Option Pipes.World

variable {P : Type} [DecidableEq P]

def Status.uses : Status → Option Bool
  | .writing _ _ _ => some true
  | .reading _ _ => some false
  | _ => none

def Status.closes : Status → Option Bool
  | .closing writable => some writable
  | _ => none

def Pipe.isOpen (pi : Pipe) : Bool → Bool
  | true => pi.writeopen
  | false => pi.readopen

theorem uses_wakeup (b : Bool) (st : Status) : (st.wakeup b).uses = st.uses := by
  cases b <;> cases st <;> rfl

theorem closes_wakeup (b : Bool) (st : Status) : (st.wakeup b).closes = st.closes := by
  cases b <;> cases st <;> rfl

structure Files [Fintype P] (w : World P) : Prop where
  refs : ∀ b, w.ref b = ∑ p, w.fds p b
  inside : ∀ p b, (w.status p).uses = some b → 0 < w.fds p b
  closing : ∀ p b, (w.status p).closes = some b → w.ref b = 0 ∧ w.pipe.isOpen b = true
  alone : ∀ p q b, (w.status p).closes = some b → (w.status q).closes = some b → p = q
  opened : ∀ b, w.pipe.isOpen b = true → 0 < w.ref b ∨ ∃ p, (w.status p).closes = some b
  live : ∀ b, 0 < w.ref b → w.pipe.isOpen b = true
  freed : w.kfreed = if w.pipe.readopen = false ∧ w.pipe.writeopen = false then 1 else 0

def Stream (w : World P) : Prop :=
  ∃ buf, w.accepted = w.delivered ++ buf ∧ w.pipe.Holds buf

def WritersFull (w : World P) : Prop :=
  ∀ p n i, w.status p = .writing n i true →
    w.pipe.nwrite = w.pipe.nread + BitVec.ofNat 32 pipesize ∧ w.pipe.readopen = true

def ReadersEmpty (w : World P) : Prop :=
  ∀ p n, w.status p = .reading n true → w.pipe.nread = w.pipe.nwrite ∧ w.pipe.writeopen = true

section Frames

variable [Fintype P] {w t : World P} {p q : P} {b : Bool} {n : Nat} {x : Section}

omit [DecidableEq P] in
theorem Files.fds_le (h : Files w) (p : P) (b : Bool) : w.fds p b ≤ w.ref b := by
  rw [h.refs b]
  exact Finset.single_le_sum (f := fun p => w.fds p b) (fun _ _ => Nat.zero_le _) (Finset.mem_univ p)

omit [DecidableEq P] in
theorem Files.open_of_uses (h : Files w) (hu : (w.status p).uses = some b) :
    w.pipe.isOpen b = true :=
  h.live b ((h.inside p b hu).trans_le (h.fds_le p b))

omit [DecidableEq P] in
theorem Files.sect (h : Files w) (href : t.ref = w.ref) (hfds : t.fds = w.fds)
    (hfreed : t.kfreed = w.kfreed) (hro : t.pipe.readopen = w.pipe.readopen)
    (hwo : t.pipe.writeopen = w.pipe.writeopen)
    (huses : ∀ q b, (t.status q).uses = some b → 0 < w.fds q b)
    (hcloses : ∀ q, (t.status q).closes = (w.status q).closes) : Files t := by
  have hopen : ∀ b, t.pipe.isOpen b = w.pipe.isOpen b := by
    intro b
    cases b with
    | true => exact hwo
    | false => exact hro
  constructor
  case refs => rw [href, hfds]; exact h.refs
  case inside => rw [hfds]; exact huses
  case closing =>
    intro p b hp
    rw [href, hopen]
    exact h.closing p b (by rwa [← hcloses])
  case alone =>
    intro p q b hp hq
    rw [hcloses] at hp hq
    exact h.alone p q b hp hq
  case opened =>
    intro b hb
    rw [hopen] at hb
    rw [href]
    simp only [hcloses]
    exact h.opened b hb
  case live =>
    intro b hb
    rw [href] at hb
    rw [hopen]
    exact h.live b hb
  case freed => rw [hfreed, hro, hwo, h.freed]

omit [Fintype P] in
theorem leave_status : (w.leave p b n x).status p = x.outcome.status n b := if_pos rfl

omit [Fintype P] in
theorem leave_status_of_ne (hq : q ≠ p) : (w.leave p b n x).status q =
    if x.woke then (w.status q).wakeup (!b) else w.status q := if_neg hq

theorem Files.leave (h : Files w) (hfd : 0 < w.fds p b) (hp : (w.status p).closes = none)
    (hro : x.pipe.readopen = w.pipe.readopen) (hwo : x.pipe.writeopen = w.pipe.writeopen) :
    Files (w.leave p b n x) := by
  refine h.sect rfl rfl rfl hro hwo (fun q c hq => ?_) (fun q => ?_)
  · by_cases hqp : q = p
    · rw [hqp, leave_status] at hq
      obtain rfl : b = c := by
        cases b <;> cases ho : x.outcome <;> simp_all [Outcome.status, Status.uses]
      rw [hqp]
      exact hfd
    · rw [leave_status_of_ne hqp] at hq
      cases hw : x.woke with
      | true => exact h.inside q c (by rwa [hw, if_pos rfl, uses_wakeup] at hq)
      | false => exact h.inside q c (by rwa [hw] at hq)
  · by_cases hqp : q = p
    · rw [hqp, leave_status, hp]
      cases b <;> cases x.outcome <;> rfl
    · rw [leave_status_of_ne hqp]
      cases hw : x.woke with
      | true => rw [if_pos rfl, closes_wakeup]
      | false => rfl

omit [Fintype P] in
theorem Stream.wrote (h : ∃ buf, w.accepted = w.delivered ++ buf ∧ w.pipe.Holds buf ∧
    ∃ more, Wrote w.pipe buf [] x more) : Stream (w.leave p true n x) := by
  obtain ⟨buf, ha, -, more, hx⟩ := h
  refine ⟨buf ++ more, ?_, hx.held⟩
  simp [World.leave, ha, hx.bytes]

omit [Fintype P] in
theorem Stream.read (h : ∃ front back, w.accepted = w.delivered ++ (front ++ back) ∧
    x.bytes = front ∧ Read w.pipe n x front back) : Stream (w.leave p false n x) := by
  obtain ⟨front, back, ha, hb, hx⟩ := h
  refine ⟨back, ?_, hx.held⟩
  simp [World.leave, ha, hb]

omit [Fintype P] in
theorem WritersFull.wrote (h : WritersFull w) {buf more : List Byte} (hh : w.pipe.Holds buf)
    (hx : Wrote w.pipe buf [] x more) : WritersFull (w.leave p true n x) := by
  intro q m i hq
  by_cases hqp : q = p
  · rw [hqp, leave_status] at hq
    cases ho : x.outcome with
    | asleep k => exact ⟨(hx.asleep k ho).1, (hx.asleep k ho).2.1⟩
    | done r =>
      rw [ho] at hq
      cases hq
  · have hold : w.status q = .writing m i true := by
      rw [leave_status_of_ne hqp] at hq
      cases hw : x.woke with
      | true =>
        rw [hw, if_pos rfl] at hq
        cases hst : w.status q <;> rw [hst] at hq <;> first | exact hq | cases hq
      | false => rwa [hw] at hq
    obtain ⟨hfull, hro⟩ := h q m i hold
    have hlen := (hh.full_iff size_lt).mp hfull
    have hfits := hx.held.fits
    rw [length_append] at hfits
    refine ⟨(hx.held.full_iff size_lt).mpr ?_, hx.readopen.trans hro⟩
    rw [length_append]
    omega

omit [Fintype P] in
theorem WritersFull.read (h : WritersFull w) {front back : List Byte}
    (hx : Read w.pipe n x front back) : WritersFull (w.leave p false n x) := by
  intro q m i hq
  by_cases hqp : q = p
  · rw [hqp, leave_status] at hq
    cases ho : x.outcome <;> rw [ho] at hq <;> cases hq
  · rw [leave_status_of_ne hqp] at hq
    cases hw : x.woke with
    | true =>
      rw [hw, if_pos rfl] at hq
      cases hst : w.status q <;> rw [hst] at hq <;> cases hq
    | false =>
      rw [hw] at hq
      have hpipe : (w.leave p false n x).pipe = w.pipe := hx.quiet hw
      rw [hpipe]
      exact h q m i hq

theorem ReadersEmpty.wrote (h : ReadersEmpty w) (hf : Files w)
    (hx : x.woke = false → x.pipe = w.pipe ∨ w.pipe.readopen = false) :
    ReadersEmpty (w.leave p true n x) := by
  intro q m hq
  by_cases hqp : q = p
  · rw [hqp, leave_status] at hq
    cases ho : x.outcome <;> rw [ho] at hq <;> cases hq
  · rw [leave_status_of_ne hqp] at hq
    cases hw : x.woke with
    | true =>
      rw [hw, if_pos rfl] at hq
      cases hst : w.status q <;> rw [hst] at hq <;> cases hq
    | false =>
      rw [hw] at hq
      rcases hx hw with hpipe | hclosed
      · have hpipe : (w.leave p true n x).pipe = w.pipe := hpipe
        rw [hpipe]
        exact h q m hq
      · have hst : w.status q = .reading m true := hq
        have hopen : w.pipe.readopen = true := hf.open_of_uses (b := false) (by rw [hst]; rfl)
        rw [hclosed] at hopen
        cases hopen

omit [Fintype P] in
theorem ReadersEmpty.read (h : ReadersEmpty w) {front back : List Byte}
    (hh : w.pipe.Holds (front ++ back)) (hx : Read w.pipe n x front back) :
    ReadersEmpty (w.leave p false n x) := by
  intro q m hq
  by_cases hqp : q = p
  · rw [hqp, leave_status] at hq
    cases ho : x.outcome with
    | asleep k => exact hx.asleep k ho
    | done r =>
      rw [ho] at hq
      cases hq
  · have hold : w.status q = .reading m true := by
      rw [leave_status_of_ne hqp] at hq
      cases hw : x.woke with
      | true =>
        rw [hw, if_pos rfl] at hq
        cases hst : w.status q <;> rw [hst] at hq <;> first | exact hq | cases hq
      | false => rwa [hw] at hq
    obtain ⟨he, hwo⟩ := h q m hold
    obtain ⟨-, hback⟩ := append_eq_nil_iff.mp ((hh.eq_iff size_lt).mp he)
    exact ⟨(hx.held.eq_iff size_lt).mpr hback, hx.writeopen.trans hwo⟩

theorem sum_update_add (f : P → Nat) (p : P) (k : Nat) :
    ∑ q, update f p k q + f p = ∑ q, f q + k := by
  have hk := Finset.sum_update_of_mem (Finset.mem_univ p) f k
  have hf := Finset.sum_update_of_mem (Finset.mem_univ p) f (f p)
  rw [update_eq_self] at hf
  omega

theorem sum_setFds (w : World P) (p : P) (b : Bool) (k : Nat) :
    ∑ q, (w.setFds p b k).fds q b + w.fds p b = ∑ q, w.fds q b + k := by
  have hup : ∀ q, (w.setFds p b k).fds q b = update (fun q => w.fds q b) p k q := by
    intro q
    by_cases hq : q = p
    · simp [setFds, hq]
    · simp [setFds, hq]
  rw [Finset.sum_congr rfl (fun q _ => hup q)]
  exact sum_update_add (fun q => w.fds q b) p k

omit [Fintype P] in
theorem setFds_of_ne {c : Bool} (hc : c ≠ b) (p q : P) (k : Nat) :
    (w.setFds p b k).fds q c = w.fds q c := by
  by_cases hq : q = p
  · subst hq
    simp [setFds, hc]
  · simp [setFds, hq]

theorem Files.dup (h : Files w) (hp : 0 < w.fds p b) : Files (w.dup q b) := by
  have hpos : 0 < w.ref b := hp.trans_le (h.fds_le p b)
  have href : ∀ c, w.ref c ≤ (w.dup q b).ref c := by
    intro c
    by_cases hc : c = b
    · subst hc
      simp [dup, setFds, setRef]
    · simp [World.dup, World.setFds, World.setRef, hc]
  constructor
  case refs =>
    intro c
    by_cases hc : c = b
    · subst hc
      have hsum := sum_setFds (w.setRef c (w.ref c + 1)) q c (w.fds q c + 1)
      have hr := h.refs c
      have h1 : (w.dup q c).ref c = w.ref c + 1 := by
        simp [dup, setFds, setRef]
      rw [h1, hr]
      simp only [dup, setRef] at hsum ⊢
      omega
    · have h1 : (w.dup q b).ref c = w.ref c := by
        simp [World.dup, World.setFds, World.setRef, hc]
      rw [h1, h.refs c]
      exact Finset.sum_congr rfl (fun x _ => (setFds_of_ne hc q x _).symm)
  case inside =>
    intro x c hx
    have hold := h.inside x c hx
    by_cases hc : c = b
    · subst hc
      by_cases hxq : x = q
      · subst hxq
        simp [dup, setFds]
      · simpa [dup, setFds, setRef, hxq] using hold
    · have := setFds_of_ne (w := w.setRef b (w.ref b + 1)) hc q x (w.fds q b + 1)
      rw [World.dup, this]
      exact hold
  case closing =>
    intro x c hx
    obtain ⟨hz, ho⟩ := h.closing x c hx
    have hc : c ≠ b := by
      rintro rfl
      omega
    exact ⟨by simpa [World.dup, World.setFds, World.setRef, hc] using hz, ho⟩
  case alone => exact h.alone
  case opened =>
    intro c hc
    rcases h.opened c hc with hr | hx
    · exact .inl (hr.trans_le (href c))
    · exact .inr hx
  case live =>
    intro c hc
    by_cases hcb : c = b
    · subst hcb
      exact h.live c hpos
    · refine h.live c ?_
      simpa [World.dup, World.setFds, World.setRef, hcb] using hc
  case freed => exact h.freed

theorem Files.close (h : Files w) (hst : w.status p = .out) (hp : 0 < w.fds p b) :
    Files (w.close p b) := by
  have hpos : 0 < w.ref b := hp.trans_le (h.fds_le p b)
  set u := (w.setRef b (w.ref b - 1)).setFds p b (w.fds p b - 1) with hu
  have hub : u.ref b = w.ref b - 1 := by simp [hu, setFds, setRef]
  have huc : ∀ c, c ≠ b → u.ref c = w.ref c := by
    intro c hc
    simp [hu, setFds, setRef, hc]
  have hrefs : ∀ c, u.ref c = ∑ q, u.fds q c := by
    intro c
    by_cases hc : c = b
    · subst hc
      have hsum := sum_setFds (w.setRef c (w.ref c - 1)) p c (w.fds p c - 1)
      have hr := h.refs c
      rw [hub, hr]
      rw [← hu] at hsum
      simp only [setRef] at hsum
      omega
    · rw [huc c hc, h.refs c]
      exact Finset.sum_congr rfl (fun x _ => (setFds_of_ne hc p x _).symm)
  have hinside : ∀ x c, (w.status x).uses = some c → 0 < u.fds x c := by
    intro x c hx
    have hxp : x ≠ p := by
      rintro rfl
      rw [hst] at hx
      cases hx
    have hfd : u.fds x c = w.fds x c := by simp [hu, setFds, setRef, hxp]
    rw [hfd]
    exact h.inside x c hx
  have hnone : ∀ x, (w.status x).closes ≠ some b := by
    intro x hx
    have := (h.closing x b hx).1
    omega
  by_cases hz : 0 < u.ref b
  · have hclose : w.close p b = u := by rw [World.close, ← hu, if_pos hz]
    rw [hclose]
    refine ⟨hrefs, hinside, fun x c hx => ?_, h.alone, fun c hc => ?_, fun c hc => ?_, h.freed⟩
    · have hcb : c ≠ b := fun he => hnone x (he ▸ hx)
      rw [huc c hcb]
      exact h.closing x c hx
    · by_cases hcb : c = b
      · subst hcb
        exact .inl hz
      · rw [huc c hcb]
        exact h.opened c hc
    · by_cases hcb : c = b
      · subst hcb
        exact h.live c hpos
      · rw [huc c hcb] at hc
        exact h.live c hc
  · have hclose : w.close p b = u.setStatus p (.closing b) := by rw [World.close, ← hu, if_neg hz]
    have hstat : ∀ x c, ((u.setStatus p (.closing b)).status x).closes = some c ↔
        (x = p ∧ c = b) ∨ (x ≠ p ∧ (w.status x).closes = some c) := by
      intro x c
      by_cases hxp : x = p
      · subst hxp
        simp [setStatus, Status.closes, eq_comm]
      · simp [setStatus, hxp, hu, setFds, setRef]
    rw [hclose]
    constructor
    case refs => exact hrefs
    case inside =>
      intro x c hx
      by_cases hxp : x = p
      · subst hxp
        simp [setStatus, Status.uses] at hx
      · refine hinside x c ?_
        simpa [setStatus, hxp, hu, setFds, setRef] using hx
    case closing =>
      intro x c hx
      rcases (hstat x c).mp hx with ⟨-, rfl⟩ | ⟨-, hx⟩
      · exact ⟨Nat.eq_zero_of_not_pos hz, h.live c hpos⟩
      · have hcb : c ≠ b := fun he => hnone x (he ▸ hx)
        obtain ⟨h0, ho⟩ := h.closing x c hx
        exact ⟨(huc c hcb).trans h0, ho⟩
    case alone =>
      intro x y c hx hy
      rcases (hstat x c).mp hx with ⟨hxp, hcb⟩ | ⟨-, hx'⟩
      · rcases (hstat y c).mp hy with ⟨hyp, -⟩ | ⟨-, hy'⟩
        · exact hxp.trans hyp.symm
        · exact absurd (hcb ▸ hy') (hnone y)
      · rcases (hstat y c).mp hy with ⟨-, hcb⟩ | ⟨-, hy'⟩
        · exact absurd (hcb ▸ hx') (hnone x)
        · exact h.alone x y c hx' hy'
    case opened =>
      intro c hc
      by_cases hcb : c = b
      · exact .inr ⟨p, (hstat p c).mpr (.inl ⟨rfl, hcb⟩)⟩
      · rcases h.opened c hc with hr | ⟨x, hx⟩
        · exact .inl (hr.trans_eq (huc c hcb).symm)
        · have hxp : x ≠ p := by
            rintro rfl
            rw [hst] at hx
            cases hx
          exact .inr ⟨x, (hstat x c).mpr (.inr ⟨hxp, hx⟩)⟩
    case live =>
      intro c hc
      by_cases hcb : c = b
      · subst hcb
        exact absurd hc hz
      · exact h.live c (hc.trans_eq (huc c hcb))
    case freed => exact h.freed

theorem isOpen_pipeclose (pi : Pipe) (b c : Bool) :
    (pipeclose pi b).isOpen c = (pi.isOpen c && decide (c ≠ b)) := by
  cases b <;> cases c <;> simp [pipeclose, Pipe.isOpen]

theorem Files.pipeclose (h : Files w) (hp : w.status p = .closing b) : Files (w.pipeclose p b) := by
  have hstat : ∀ x, x ≠ p → (w.pipeclose p b).status x = (w.status x).wakeup (!b) := by
    intro x hx
    simp [World.pipeclose, World.setStatus, World.wakeup, hx]
  have hself : (w.pipeclose p b).status p = .out := by
    simp [World.pipeclose, World.setStatus]
  have hmine : (w.status p).closes = some b := by rw [hp]; rfl
  have hother : ∀ x c, ((w.pipeclose p b).status x).closes = some c →
      (w.status x).closes = some c ∧ c ≠ b := by
    intro x c hx
    have hxp : x ≠ p := by
      rintro rfl
      rw [hself] at hx
      cases hx
    rw [hstat x hxp, closes_wakeup] at hx
    refine ⟨hx, ?_⟩
    rintro rfl
    exact hxp (h.alone x p c hx hmine)
  constructor
  case refs => exact h.refs
  case inside =>
    intro x c hx
    have hxp : x ≠ p := by
      rintro rfl
      rw [hself] at hx
      cases hx
    rw [hstat x hxp, uses_wakeup] at hx
    exact h.inside x c hx
  case closing =>
    intro x c hx
    obtain ⟨hx, hcb⟩ := hother x c hx
    obtain ⟨hr, ho⟩ := h.closing x c hx
    refine ⟨hr, (isOpen_pipeclose w.pipe b c).trans ?_⟩
    simp [ho, hcb]
  case alone => exact fun x y c hx hy => h.alone x y c (hother x c hx).1 (hother y c hy).1
  case opened =>
    intro c hc
    have hop : (Pipes.pipeclose w.pipe b).isOpen c = true := hc
    rw [isOpen_pipeclose, Bool.and_eq_true, decide_eq_true_eq] at hop
    rcases h.opened c hop.1 with hr | ⟨x, hx⟩
    · exact .inl hr
    · have hxp : x ≠ p := by
        rintro rfl
        rw [hmine] at hx
        exact hop.2 (some.inj hx).symm
      refine .inr ⟨x, ?_⟩
      rw [hstat x hxp, closes_wakeup]
      exact hx
  case live =>
    intro c hc
    have hcb : c ≠ b := by
      rintro rfl
      have : 0 < w.ref c := hc
      rw [(h.closing p c hmine).1] at this
      exact absurd this (lt_irrefl 0)
    refine (isOpen_pipeclose w.pipe b c).trans ?_
    simp [h.live c hc, hcb]
  case freed =>
    have hop : w.pipe.isOpen b = true := (h.closing p b hmine).2
    have hz : w.kfreed = 0 := by
      rw [h.freed, if_neg]
      rintro ⟨h1, h2⟩
      cases b with
      | true => exact absurd (h2.symm.trans hop) (by simp)
      | false => exact absurd (h1.symm.trans hop) (by simp)
    simp only [World.pipeclose]
    rw [hz]
    rfl

theorem Files.kill (h : Files w) (p : P) :
    Files (w.setStatus p (((w.status p).wakeup true).wakeup false)) := by
  refine h.sect rfl rfl rfl rfl rfl (fun q b hq => h.inside q b ?_) (fun q => ?_)
  · by_cases hqp : q = p
    · subst hqp
      simpa [setStatus, uses_wakeup] using hq
    · simpa [setStatus, hqp] using hq
  · by_cases hqp : q = p
    · subst hqp
      simp [setStatus, closes_wakeup]
    · simp [setStatus, hqp]

omit [Fintype P] [DecidableEq P] in
theorem WritersFull.of_status (h : WritersFull w) (hpipe : t.pipe = w.pipe)
    (hst : ∀ q n i, t.status q = .writing n i true → w.status q = .writing n i true) :
    WritersFull t := by
  intro q n i hq
  rw [hpipe]
  exact h q n i (hst q n i hq)

omit [Fintype P] [DecidableEq P] in
theorem ReadersEmpty.of_status (h : ReadersEmpty w) (hpipe : t.pipe = w.pipe)
    (hst : ∀ q n, t.status q = .reading n true → w.status q = .reading n true) :
    ReadersEmpty t := by
  intro q n hq
  rw [hpipe]
  exact h q n (hst q n hq)

omit [Fintype P] in
theorem WritersFull.pipeclose (h : WritersFull w) (p : P) (b : Bool) :
    WritersFull (w.pipeclose p b) := by
  intro q n i hq
  have hqp : q ≠ p := by
    rintro rfl
    simp [World.pipeclose, World.setStatus] at hq
  have hq' : (w.status q).wakeup (!b) = .writing n i true := by
    simpa [World.pipeclose, World.setStatus, World.wakeup, hqp] using hq
  cases b with
  | true =>
    cases hst : w.status q <;> rw [hst] at hq' <;> cases hq'
    exact h q n i hst
  | false => cases hst : w.status q <;> rw [hst] at hq' <;> cases hq'

omit [Fintype P] in
theorem ReadersEmpty.pipeclose (h : ReadersEmpty w) (p : P) (b : Bool) :
    ReadersEmpty (w.pipeclose p b) := by
  intro q n hq
  have hqp : q ≠ p := by
    rintro rfl
    simp [World.pipeclose, World.setStatus] at hq
  have hq' : (w.status q).wakeup (!b) = .reading n true := by
    simpa [World.pipeclose, World.setStatus, World.wakeup, hqp] using hq
  cases b with
  | true => cases hst : w.status q <;> rw [hst] at hq' <;> cases hq'
  | false =>
    cases hst : w.status q <;> rw [hst] at hq' <;> cases hq'
    exact h q n hst

end Frames

section Run

variable [Fintype P] {w t : World P} {ev : Event P}

omit [Fintype P] in
theorem kill_status {p q : P} {st : Status}
    (hst : (w.setStatus p (((w.status p).wakeup true).wakeup false)).status q = st)
    (ha : (st.wakeup true).wakeup false ≠ st) : w.status q = st := by
  by_cases hqp : q = p
  · subst hqp
    refine absurd ?_ ha
    rw [← hst]
    simp only [setStatus, update_self]
    cases w.status q <;> rfl
  · simpa [setStatus, hqp] using hst

omit [Fintype P] in
theorem close_status {p q : P} {b : Bool} {st : Status} (hst : (w.close p b).status q = st)
    (hc : st.closes = none) : w.status q = st := by
  unfold close at hst
  by_cases hz : 0 < ((w.setRef b (w.ref b - 1)).setFds p b (w.fds p b - 1)).ref b
  · rw [if_pos hz] at hst
    exact hst
  · rw [if_neg hz] at hst
    by_cases hqp : q = p
    · subst hqp
      simp only [setStatus, update_self] at hst
      subst hst
      cases hc
    · simpa [setStatus, setFds, setRef, hqp] using hst

omit [Fintype P] in
theorem close_pipe (w : World P) (p : P) (b : Bool) : (w.close p b).pipe = w.pipe ∧
    (w.close p b).accepted = w.accepted ∧ (w.close p b).delivered = w.delivered ∧
    (w.close p b).returns = w.returns := by
  unfold close
  by_cases hz : 0 < ((w.setRef b (w.ref b - 1)).setFds p b (w.fds p b - 1)).ref b
  · rw [if_pos hz]
    exact ⟨rfl, rfl, rfl, rfl⟩
  · rw [if_neg hz]
    exact ⟨rfl, rfl, rfl, rfl⟩

structure Inv (w : World P) : Prop where
  files : Files w
  stream : Stream w
  writers : WritersFull w

inductive Step (w : World P) : Event P → World P → Prop
  | write {p : P} {n i rest : Nat} {ev : Event P} {killed : Nat → Bool} {src : Nat → Option Byte}
      (hfd : 0 < w.fds p true) (hc : (w.status p).closes = none)
      (hs : ev.Steady → ∀ i j, killed i = killed j) :
      Step w ev (w.leave p true n (writeLoop killed src rest i w.pipe []))
  | read {p : P} {n : Nat} {ev : Event P} {killed : Bool} {dst : Nat → Bool}
      (hfd : 0 < w.fds p false) (hc : (w.status p).closes = none) :
      Step w ev (w.leave p false n (piperead killed dst n w.pipe))
  | kill (p : P) : Step w (.kill p) (w.setStatus p (((w.status p).wakeup true).wakeup false))
  | dup (p q : P) (b : Bool) (hp : 0 < w.fds p b) : Step w (.dup p q b) (w.dup q b)
  | close (p : P) (b : Bool) (hout : w.status p = .out) (hp : 0 < w.fds p b) :
      Step w (.close p b) (w.close p b)
  | pipeclose (p : P) (b : Bool) (hc : w.status p = .closing b) :
      Step w (.pipeclose p) (w.pipeclose p b)

theorem step_cases (hf : Files w) (h : w.step ev = some t) : Step w ev t := by
  cases ev with
  | write p n killed src =>
    obtain ⟨⟨hst, hfd⟩, he⟩ := ite_none_right_eq_some.mp h
    cases he
    exact .write hfd (by rw [hst]; rfl) id
  | read p n killed dst =>
    obtain ⟨⟨hst, hfd⟩, he⟩ := ite_none_right_eq_some.mp h
    cases he
    exact .read hfd (by rw [hst]; rfl)
  | rewrite p killed src =>
    simp only [World.step] at h
    cases hst : w.status p with
    | writing n i a =>
      cases a with
      | false =>
        rw [hst] at h
        cases h
        exact .write (hf.inside p true (by rw [hst]; rfl)) (by rw [hst]; rfl) id
      | true => rw [hst] at h; cases h
    | out => rw [hst] at h; cases h
    | reading n a => rw [hst] at h; cases h
    | closing b => rw [hst] at h; cases h
  | reread p killed dst =>
    simp only [World.step] at h
    cases hst : w.status p with
    | reading n a =>
      cases a with
      | false =>
        rw [hst] at h
        cases h
        exact .read (hf.inside p false (by rw [hst]; rfl)) (by rw [hst]; rfl)
      | true => rw [hst] at h; cases h
    | out => rw [hst] at h; cases h
    | writing n i a => rw [hst] at h; cases h
    | closing b => rw [hst] at h; cases h
  | kill p =>
    cases h
    exact .kill p
  | dup p q b =>
    obtain ⟨⟨-, -, hfd⟩, he⟩ := ite_none_right_eq_some.mp h
    cases he
    exact .dup p q b hfd
  | close p b =>
    obtain ⟨⟨hst, hfd⟩, he⟩ := ite_none_right_eq_some.mp h
    cases he
    exact .close p b hst hfd
  | pipeclose p =>
    simp only [World.step] at h
    cases hst : w.status p with
    | closing b =>
      rw [hst] at h
      cases h
      exact .pipeclose p b hst
    | out => rw [hst] at h; cases h
    | writing n i a => rw [hst] at h; cases h
    | reading n a => rw [hst] at h; cases h

theorem Inv.step (h : Inv w) (hst : w.step ev = some t) : Inv t := by
  obtain ⟨buf, ha, hh⟩ := h.stream
  cases step_cases h.files hst with
  | @write p n i rest ev killed src hfd hc hs =>
    obtain ⟨more, hx⟩ := writeLoop_wrote [] killed src rest i hh
    exact ⟨h.files.leave hfd hc hx.readopen hx.writeopen, Stream.wrote ⟨buf, ha, hh, more, hx⟩,
      h.writers.wrote hh hx⟩
  | @read p n ev killed dst hfd hc =>
    obtain ⟨front, back, rfl, hb, hx⟩ := piperead_reads dst hh killed n
    exact ⟨h.files.leave hfd hc hx.readopen hx.writeopen, Stream.read ⟨front, back, ha, hb, hx⟩,
      h.writers.read hx⟩
  | kill p =>
    exact ⟨h.files.kill p, h.stream,
      h.writers.of_status rfl (fun q n i hq => kill_status hq (by simp [Status.wakeup]))⟩
  | dup p q b hp => exact ⟨h.files.dup hp, h.stream, h.writers.of_status rfl (fun _ _ _ hq => hq)⟩
  | close p b hout hp =>
    obtain ⟨hpipe, hacc, hdel, -⟩ := close_pipe w p b
    refine ⟨h.files.close hout hp, ⟨buf, ?_, ?_⟩,
      h.writers.of_status hpipe (fun q n i hq => close_status hq rfl)⟩
    · rw [hacc, hdel, ha]
    · rwa [hpipe]
  | pipeclose p b hc =>
    refine ⟨h.files.pipeclose hc, ⟨buf, ha, ?_⟩, h.writers.pipeclose p b⟩
    cases b <;> exact hh

theorem ReadersEmpty.step (hr : ReadersEmpty w) (h : Inv w) (hs : ev.Steady)
    (hst : w.step ev = some t) : ReadersEmpty t := by
  obtain ⟨buf, ha, hh⟩ := h.stream
  cases step_cases h.files hst with
  | write hfd hc hk => exact hr.wrote h.files (fun hw => writeLoop_quiet (hk hs) hw)
  | @read p n ev killed dst hfd hc =>
    obtain ⟨front, back, rfl, -, hx⟩ := piperead_reads dst hh killed n
    exact hr.read hh hx
  | kill p => exact hr.of_status rfl (fun q n hq => kill_status hq (by simp [Status.wakeup]))
  | dup p q b hp => exact hr.of_status rfl (fun _ _ hq => hq)
  | close p b hout hp => exact hr.of_status (close_pipe w p b).1 (fun q n hq => close_status hq rfl)
  | pipeclose p b hc => exact hr.pipeclose p b

theorem boot_inv (p : P) : Inv (boot p) := by
  constructor
  case files =>
    refine ⟨fun b => ?_, fun q b hq => ?_, fun q b hq => ?_, fun q r b hq => ?_, fun b _ => ?_,
      fun b _ => ?_, rfl⟩
    · simp [boot]
    · cases hq
    · cases hq
    · cases hq
    · exact .inl Nat.one_pos
    · cases b <;> rfl
  case stream => exact ⟨[], rfl, WrapRing.Carries.nil _⟩
  case writers =>
    intro q n i hq
    cases hq

theorem read_zero (h : Inv w) (hst : w.step ev = some t) {p : P} {n : Nat} (hn : 0 < n)
    (hret : t.returns = w.returns ++ [⟨p, false, n, 0⟩]) :
    t.pipe.nread = t.pipe.nwrite ∧ t.pipe.writeopen = false := by
  obtain ⟨buf, ha, hh⟩ := h.stream
  cases step_cases h.files hst with
  | @write q m i rest ev killed src hfd hc hk =>
    have hr := append_cancel_left hret
    cases ho : (writeLoop killed src rest i w.pipe []).outcome <;> rw [ho] at hr <;>
      simp [Outcome.returns] at hr
  | @read q m ev killed dst hfd hc =>
    obtain ⟨front, back, rfl, -, hx⟩ := piperead_reads dst hh killed m
    have hr := append_cancel_left hret
    cases ho : (piperead killed dst m w.pipe).outcome with
    | asleep k =>
      rw [ho] at hr
      simp [Outcome.returns] at hr
    | done r =>
      rw [ho] at hr
      obtain ⟨-, rfl, rfl⟩ : q = p ∧ m = n ∧ r = 0 := by simpa [Outcome.returns] using hr
      exact hx.zero ho hn
  | kill q => simp [setStatus] at hret
  | dup q r b hp => simp [dup, setFds, setRef] at hret
  | close q b _ hp =>
    rw [(close_pipe w q b).2.2.2] at hret
    simp at hret
  | pipeclose q b _ => simp [World.pipeclose, World.setStatus, World.wakeup] at hret

omit [DecidableEq P] in
theorem Files.freed_iff (h : Files w) :
    w.kfreed = 1 ↔ ∀ p, w.status p = .out ∧ ∀ b, w.fds p b = 0 := by
  have hclosed : w.kfreed = 1 ↔ ∀ b, w.pipe.isOpen b = false := by
    rw [h.freed, Bool.forall_bool]
    split_ifs with hb
    · exact iff_of_true rfl hb
    · exact iff_of_false (by simp) hb
  rw [hclosed]
  constructor
  · intro hno p
    have hfds : ∀ b, w.fds p b = 0 := by
      intro b
      by_contra hne
      have hopen := h.live b ((Nat.pos_of_ne_zero hne).trans_le (h.fds_le p b))
      rw [hno b] at hopen
      cases hopen
    refine ⟨?_, hfds⟩
    cases hst : w.status p with
    | out => rfl
    | writing n i a => exact absurd (hfds true) (h.inside p true (by rw [hst]; rfl)).ne'
    | reading n a => exact absurd (hfds false) (h.inside p false (by rw [hst]; rfl)).ne'
    | closing b =>
      have hopen := (h.closing p b (by rw [hst]; rfl)).2
      rw [hno b] at hopen
      cases hopen
  · intro hout b
    by_contra hne
    rcases h.opened b (by simpa using hne) with hr | ⟨p, hp⟩
    · rw [h.refs b, Finset.sum_eq_zero (fun p _ => (hout p).2 b)] at hr
      exact absurd hr (lt_irrefl 0)
    · rw [(hout p).1] at hp
      cases hp

/-- The counters are at most a buffer apart, what was delivered is the beginning of
what was stored, a read returns 0 at the end of the stream only, the page is freed
when nobody can use it any more, and a writer sleeps on a full pipe only. If no
writer is killed with the lock held, a reader sleeps on an empty pipe only. -/
theorem pipe_stream (p : P) (es : List (Event P)) (w : World P)
    (hrun : (machine P).exec (boot p) es = some w) :
    (w.pipe.nwrite - w.pipe.nread).toNat ≤ pipesize ∧
    (∃ buf, w.accepted = w.delivered ++ buf ∧ w.pipe.Holds buf) ∧
    (∀ ev t q n, w.step ev = some t → 0 < n → t.returns = w.returns ++ [⟨q, false, n, 0⟩] →
      t.pipe.nread = t.pipe.nwrite ∧ t.pipe.writeopen = false) ∧
    w.kfreed = (if w.pipe.readopen = false ∧ w.pipe.writeopen = false then 1 else 0) ∧
    (w.kfreed = 1 ↔ ∀ q, w.status q = .out ∧ ∀ b, w.fds q b = 0) ∧
    WritersFull w ∧ ((∀ ev ∈ es, ev.Steady) → ReadersEmpty w) := by
  have hinv : Inv w := Machine.inv_exec (fun _ _ _ hst hi => hi.step hst) hrun (boot_inv p)
  obtain ⟨buf, ha, hh⟩ := hinv.stream
  refine ⟨?_, ⟨buf, ha, hh⟩, fun ev t q n hst hn hret => read_zero hinv hst hn hret,
    hinv.files.freed, hinv.files.freed_iff, hinv.writers, fun hs => ?_⟩
  · rw [hh.length_eq size_lt]
    exact hh.fits
  · have hboth : Inv w ∧ ReadersEmpty w :=
      Machine.inv_along (R := fun _ ev => ev.Steady) (I := fun w => Inv w ∧ ReadersEmpty w)
        (fun _ _ _ hst hsteady hi => ⟨hi.1.step hst, hi.2.step hi.1 hsteady hst⟩) hrun
        (Machine.along_of_forall (fun ev hev _ => hs ev hev))
        ⟨boot_inv p, fun q n hq => by cases hq⟩
    exact hboth.2

end Run

/-- Process 0 has made the pipe, process 1 reads and process 2 writes two bytes. It is
killed after the first one, and exits. -/
def killedWriter : List (Event (Fin 3)) :=
  [.dup 0 1 false, .dup 0 2 true, .read 1 1 false (fun _ => true),
    .write 2 2 (fun i => decide (0 < i)) (fun _ => some 7), .close 2 true]

theorem reader_left_asleep : ∃ w, (machine (Fin 3)).exec (boot 0) killedWriter = some w ∧
    w.status 1 = .reading 1 true ∧ (w.pipe.nwrite - w.pipe.nread).toNat = 1 ∧
    w.pipe.writeopen = true ∧ ∀ q, q ≠ 1 → w.status q = .out := by
  refine ⟨_, rfl, rfl, rfl, rfl, ?_⟩
  decide

def twoBytes : List (Event (Fin 3)) :=
  [.dup 0 1 false, .read 1 5 false (fun _ => true),
    .write 0 2 (fun _ => false) (fun i => some (BitVec.ofNat 8 i)), .reread 1 false (fun _ => true),
    .read 1 5 false (fun _ => true)]

/-- A second process sleeps until there is something to read, and once more after it. -/
theorem pipe_stream_twoBytes : ∃ v w, (machine (Fin 3)).exec (boot 0) (twoBytes.take 2) = some v ∧
    v.status 1 = .reading 5 true ∧ (machine (Fin 3)).exec (boot 0) twoBytes = some w ∧
    w.delivered = [0, 1] ∧ w.returns = [⟨0, true, 2, 2⟩, ⟨1, false, 5, 2⟩] ∧
    w.status 1 = .reading 5 true ∧ w.pipe.nread = w.pipe.nwrite := by
  refine ⟨_, _, rfl, rfl, rfl, rfl, rfl, rfl, ?_⟩
  refine ((pipe_stream 0 twoBytes _ rfl).2.2.2.2.2.2 (fun ev hev => ?_) 1 5 rfl).1
  simp only [twoBytes, mem_cons, not_mem_nil, or_false] at hev
  rcases hev with rfl | rfl | rfl | rfl | rfl <;> simp [Event.Steady]

end Pipes

end Xv6
