import Xv6.Virtio

/-! The protocol between driver and device in every run: who owns the descriptors, what
the rings hold, and which buffer a completion is for. -/

namespace Xv6

namespace Virtio

open WrapRing Function Option Virtio.World

open scoped List

variable {P : Type} [DecidableEq P] {w t : World P} {p q : P} {c : Call} {x : Chain} {k : Nat}
  {xs ys : List Nat}

def Phase.job : Phase → Option (Call × Chain × Nat)
  | .filled c x k => some (c, x, k)
  | .waiting c x k => some (c, x, k)
  | _ => none

structure Chains (free : Nat → Bool) (phase : P → Phase) : Prop where
  ok : ∀ p c x k, (phase p).job = some (c, x, k) → x.Ok
  taken : ∀ p c x k i, (phase p).job = some (c, x, k) → x.Has i → free i = false
  apart : ∀ p q c x k c' x' k' i, (phase p).job = some (c, x, k) →
    (phase q).job = some (c', x', k') → x.Has i → x'.Has i → p = q
  cover : ∀ i < num, free i = false → ∃ p c x k, (phase p).job = some (c, x, k) ∧ x.Has i

/-- The heads of the chains that were published and whose completion the driver has
not seen: `xs` in the available ring, those with the device, and `ys` in the used
ring. -/
def World.flight (w : World P) (xs ys : List Nat) : List Nat :=
  xs ++ ((w.dev.pending ++ w.dev.posting.toList).map Request.head ++ ys)

structure Rings (w : World P) (xs ys : List Nat) : Prop where
  avail : Carries num w.disk.availRing w.dev.last w.disk.availIdx xs
  used : Carries num w.disk.usedRing w.disk.seenIdx w.disk.usedIdx ys
  published : w.published = w.consumed ++ xs
  posted : w.posted = w.seen ++ ys
  nodup : (w.flight xs ys).Nodup
  sent : ∀ h ∈ w.flight xs ys, ∃ p c x k, w.phase p = .waiting c x k ∧ x.op = h ∧ w.busy c.b = true
  owed : ∀ p c x k, w.phase p = .waiting c x k → w.busy c.b = true → x.op ∈ w.flight xs ys
  fetched : ∀ r ∈ w.dev.pending ++ w.dev.posting.toList, ∃ p c x k,
    w.phase p = .waiting c x k ∧ r = request c x
  entry : ∀ r, w.dev.posting = some r → w.disk.usedRing (cell num w.disk.usedIdx) = r.head
  success : ∀ h ∈ w.dev.posting.toList.map Request.head ++ ys,
    w.disk.status h = 0 ∧ w.req h ∈ w.completed

structure Inv (w : World P) : Prop where
  chains : Chains w.disk.free w.phase
  bufs : ∀ p q b, (w.phase p).buf = some b → (w.phase q).buf = some b → p = q
  jobs : ∀ p c x k, (w.phase p).job = some (c, x, k) →
    Formatted w.disk c x ∧ w.req x.op = k ∧ k < w.next
  filled : ∀ p c x k, w.phase p = .filled c x k → w.lock = some (.proc p) ∧
    w.busy c.b = true ∧ w.disk.availRing (cell num w.disk.availIdx) = x.op
  rings : ∃ xs ys, Rings w xs ys
  done : ∀ p c x k, w.phase p = .waiting c x k → w.busy c.b = false → k ∈ w.completed
  fresh : ∀ k ∈ w.completed, k < w.next
  returned : ∀ k ∈ w.returned, k ∈ w.completed

omit [DecidableEq P] in
theorem job_of_waiting (h : w.phase p = .waiting c x k) : (w.phase p).job = some (c, x, k) := by
  rw [h]
  rfl

omit [DecidableEq P] in
theorem Inv.jobs_of (h : Inv w) {d : Disk} (hops : d.ops = w.disk.ops)
    (hdesc : d.desc = w.disk.desc) (hinfo : d.infoB = w.disk.infoB) (p : P) (c : Call) (x : Chain)
    (k : Nat) (hp : (w.phase p).job = some (c, x, k)) :
    Formatted d c x ∧ w.req x.op = k ∧ k < w.next := by
  obtain ⟨hf, hk⟩ := h.jobs p c x k hp
  exact ⟨hf.congr (by rw [hops]) (fun _ _ => by rw [hdesc]) (by rw [hinfo]), hk⟩

theorem length_le_of_lt {l : List Nat} {n : Nat} (hl : l.Nodup) (hlt : ∀ a ∈ l, a < n) :
    l.length ≤ n := by
  have hsub := hl.subperm (fun a ha => List.mem_range.mpr (hlt a ha))
  simpa using hsub.length_le

omit [DecidableEq P] in
theorem Rings.lt (hr : Rings w xs ys) (hc : Chains w.disk.free w.phase) {h : Nat}
    (hh : h ∈ w.flight xs ys) : h < num := by
  obtain ⟨p, c, x, k, hp, rfl, -⟩ := hr.sent h hh
  exact (hc.ok p c x k (job_of_waiting hp)).op_lt

omit [DecidableEq P] in
theorem Rings.avail_lt (hr : Rings w xs ys) (hc : Chains w.disk.free w.phase)
    {i : Nat} (hi : i < num) (hn : i ∉ w.flight xs ys) : xs.length < num := by
  have hlen := length_le_of_lt (l := i :: w.flight xs ys) (n := num)
    (List.nodup_cons.mpr ⟨hn, hr.nodup⟩) (fun a ha => ?_)
  · rw [List.length_cons, flight, List.length_append] at hlen
    omega
  · rcases List.mem_cons.mp ha with rfl | ha
    · exact hi
    · exact hr.lt hc ha

omit [DecidableEq P] in
theorem Chains.congr {free free' : Nat → Bool} {phase phase' : P → Phase} (h : Chains free phase)
    (hfree : free' = free) (hjob : ∀ q, (phase' q).job = (phase q).job) : Chains free' phase' := by
  subst hfree
  refine ⟨fun p c x k hp => ?_, fun p c x k i hp => ?_, fun p q c x k c' x' k' i hp hq => ?_,
    fun i hi hf => ?_⟩
  · exact h.ok p c x k ((hjob p).symm.trans hp)
  · exact h.taken p c x k i ((hjob p).symm.trans hp)
  · exact h.apart p q c x k c' x' k' i ((hjob p).symm.trans hp) ((hjob q).symm.trans hq)
  · obtain ⟨p, c, x, k, hp, hx⟩ := h.cover i hi hf
    exact ⟨p, c, x, k, (hjob p).trans hp, hx⟩

omit [DecidableEq P] in
theorem head_mem_flight {r : Request} (hr : r ∈ w.dev.pending ++ w.dev.posting.toList) :
    r.head ∈ w.flight xs ys :=
  List.mem_append_right _ (List.mem_append_left _ (List.mem_map_of_mem hr))

omit [DecidableEq P] in
theorem Rings.congr (hr : Rings w xs ys)
    (havail : Carries num t.disk.availRing w.dev.last w.disk.availIdx xs)
    (hidx : t.disk.availIdx = w.disk.availIdx) (hring : t.disk.usedRing = w.disk.usedRing)
    (huidx : t.disk.usedIdx = w.disk.usedIdx) (hsidx : t.disk.seenIdx = w.disk.seenIdx)
    (hstatus : ∀ h ∈ w.flight xs ys, t.disk.status h = w.disk.status h)
    (hreq : ∀ h ∈ w.flight xs ys, t.req h = w.req h) (hdev : t.dev = w.dev)
    (hhist : t.published = w.published ∧ t.consumed = w.consumed ∧ t.posted = w.posted ∧
      t.seen = w.seen ∧ t.completed = w.completed)
    (hold : ∀ q c x k, t.phase q = .waiting c x k → w.phase q = .waiting c x k)
    (hkeep : ∀ q c x k, w.phase q = .waiting c x k → x.op ∈ w.flight xs ys →
      t.phase q = .waiting c x k)
    (hbusy : ∀ q c x k, w.phase q = .waiting c x k → t.busy c.b = w.busy c.b) : Rings t xs ys := by
  obtain ⟨h1, h2, h3, h4, h5⟩ := hhist
  have hfl : t.flight xs ys = w.flight xs ys := by rw [flight, hdev, flight]
  constructor
  case avail => rw [hdev, hidx]; exact havail
  case used => rw [hring, hsidx, huidx]; exact hr.used
  case published => rw [h1, h2]; exact hr.published
  case posted => rw [h3, h4]; exact hr.posted
  case nodup => rw [hfl]; exact hr.nodup
  case sent =>
    intro h hh
    rw [hfl] at hh
    obtain ⟨p, c, x, k, hp, rfl, hb⟩ := hr.sent h hh
    exact ⟨p, c, x, k, hkeep p c x k hp hh, rfl, (hbusy p c x k hp).trans hb⟩
  case owed =>
    intro p c x k hp hb
    have hp' := hold p c x k hp
    rw [hfl]
    exact hr.owed p c x k hp' ((hbusy p c x k hp').symm.trans hb)
  case fetched =>
    intro r hr'
    rw [hdev] at hr'
    obtain ⟨p, c, x, k, hp, rfl⟩ := hr.fetched r hr'
    exact ⟨p, c, x, k, hkeep p c x k hp (head_mem_flight hr'), rfl⟩
  case entry => rw [hdev, hring, huidx]; exact hr.entry
  case success =>
    intro h hh
    rw [hdev] at hh
    obtain ⟨hs, hc⟩ := hr.success h hh
    have hin : h ∈ w.flight xs ys := by
      simp only [flight, List.map_append, List.mem_append] at hh ⊢
      tauto
    rw [hstatus h hin, hreq h hin, h5]
    exact ⟨hs, hc⟩

theorem update_iff {phase : P → Phase} {y z : Phase} (hz : z ≠ y) (hp : phase p ≠ y) :
    update phase p z q = y ↔ phase q = y := by
  rw [update_apply]
  split_ifs with hq
  · rw [hq]
    exact iff_of_false hz hp
  · rfl

theorem job_update {phase : P → Phase} {z : Phase} {o : Option (Call × Chain × Nat)}
    (h : (update phase p z q).job = o) :
    (q = p ∧ z.job = o) ∨ (q ≠ p ∧ (phase q).job = o) := by
  by_cases hq : q = p
  · rw [hq, update_self] at h
    exact .inl ⟨hq, h⟩
  · rw [update_of_ne hq] at h
    exact .inr ⟨hq, h⟩

theorem bufs_update {phase : P → Phase} {z : Phase}
    (h : ∀ p q b, (phase p).buf = some b → (phase q).buf = some b → p = q)
    (hb : ∀ q, q ≠ p → ∀ b, z.buf = some b → (phase q).buf ≠ some b) (q r : P) (b : Nat)
    (hq : (update phase p z q).buf = some b)
    (hr : (update phase p z r).buf = some b) : q = r := by
  simp only [update_apply] at hq hr
  split_ifs at hq hr with h1 h2 h2
  · rw [h1, h2]
  · exact absurd hr (hb r h2 b hq)
  · exact absurd hq (hb q h1 b hr)
  · exact h q r b hq hr

omit [DecidableEq P] in
theorem ne_waiting (hjob : (w.phase p).job = none) : w.phase p ≠ .waiting c x k := by
  intro hp
  rw [hp] at hjob
  cases hjob

theorem Inv.start (h : Inv w) {desc : Nat → Desc} (hjob : (w.phase p).job = none)
    (hb : ∀ q, q ≠ p → (w.phase q).buf ≠ some c.b)
    (hd : ∀ i, w.disk.free i = false → desc i = w.disk.desc i) :
    Inv { w.setPhase p (.start c) with disk := { w.disk with desc := desc } } := by
  have hjobs : ∀ q, (update w.phase p (.start c) q).job = (w.phase q).job := by
    intro q
    rw [update_apply]
    split_ifs with hq
    · rw [hq, hjob]
      rfl
    · rfl
  have hwait : ∀ q c' x' k', update w.phase p (.start c) q = .waiting c' x' k' ↔
      w.phase q = .waiting c' x' k' := fun q c' x' k' => update_iff (by simp) (ne_waiting hjob)
  constructor
  case chains => exact h.chains.congr rfl hjobs
  case bufs =>
    refine bufs_update h.bufs (fun q hq b he => ?_)
    obtain rfl : c.b = b := some.inj he
    exact hb q hq
  case jobs =>
    intro q c' x' k' hq
    have hq' : (w.phase q).job = some (c', x', k') := (hjobs q).symm.trans hq
    obtain ⟨hf, hk⟩ := h.jobs q c' x' k' hq'
    exact ⟨hf.congr rfl (fun i hi => hd i (h.chains.taken q c' x' k' i hq' hi)) rfl, hk⟩
  case filled =>
    intro q c' x' k' hq
    refine h.filled q c' x' k' ((update_iff (by simp) (fun hp => ?_)).mp hq)
    rw [hp] at hjob
    cases hjob
  case rings =>
    obtain ⟨xs, ys, hr⟩ := h.rings
    exact ⟨xs, ys, hr.congr hr.avail rfl rfl rfl rfl (fun _ _ => rfl) (fun _ _ => rfl) rfl
      ⟨rfl, rfl, rfl, rfl, rfl⟩ (fun q c x k => (hwait q c x k).mp)
      (fun q c x k hq _ => (hwait q c x k).mpr hq) (fun _ _ _ _ _ => rfl)⟩
  case done =>
    intro q c' x' k' hq
    exact h.done q c' x' k' ((hwait q c' x' k').mp hq)
  case fresh => exact h.fresh
  case returned => exact h.returned

omit [DecidableEq P] in
theorem Chains.not_has {free : Nat → Bool} {phase : P → Phase} (h : Chains free phase)
    (hj : (phase q).job = some (c, x, k)) {i : Nat} (hi : free i = true) : ¬ x.Has i := by
  intro hx
  rw [h.taken q c x k i hj hx] at hi
  cases hi

theorem Chains.take {free : Nat → Bool} {phase : P → Phase} {z : Phase} (h : Chains free phase)
    (hjob : (phase p).job = none) (hz : z.job = some (c, x, k)) (hx : x.Ok)
    (hfree : ∀ i, x.Has i → free i = true) :
    Chains (fun i => free i && !decide (x.Has i)) (update phase p z) := by
  have hcase : ∀ q c' x' k', (update phase p z q).job = some (c', x', k') →
      (q = p ∧ x' = x) ∨ (q ≠ p ∧ (phase q).job = some (c', x', k')) := by
    intro q c' x' k' hq
    refine (job_update hq).imp_left (fun hq => ?_)
    have he := hz.symm.trans hq.2
    cases he
    exact ⟨hq.1, rfl⟩
  constructor
  case ok =>
    intro q c' x' k' hq
    rcases hcase q c' x' k' hq with ⟨-, rfl⟩ | ⟨-, hq⟩
    · exact hx
    · exact h.ok q c' x' k' hq
  case taken =>
    intro q c' x' k' i hq hi
    rcases hcase q c' x' k' hq with ⟨-, rfl⟩ | ⟨-, hq⟩
    · simp [hi]
    · simp [h.taken q c' x' k' i hq hi]
  case apart =>
    intro q r c1 x1 k1 c2 x2 k2 i hq hr h1 h2
    rcases hcase q c1 x1 k1 hq with ⟨rfl, rfl⟩ | ⟨-, hq'⟩
    · rcases hcase r c2 x2 k2 hr with ⟨rfl, rfl⟩ | ⟨-, hr'⟩
      · rfl
      · exact absurd h2 (h.not_has hr' (hfree i h1))
    · rcases hcase r c2 x2 k2 hr with ⟨rfl, rfl⟩ | ⟨-, hr'⟩
      · exact absurd h1 (h.not_has hq' (hfree i h2))
      · exact h.apart q r c1 x1 k1 c2 x2 k2 i hq' hr' h1 h2
  case cover =>
    intro i hi hf
    by_cases hxi : x.Has i
    · exact ⟨p, c, x, k, by rw [update_self, hz], hxi⟩
    · have hold : free i = false := by simpa [hxi] using hf
      obtain ⟨q, c', x', k', hq, hx'⟩ := h.cover i hi hold
      have hqp : q ≠ p := by
        rintro rfl
        rw [hjob] at hq
        cases hq
      exact ⟨q, c', x', k', by rw [update_of_ne hqp, hq], hx'⟩

theorem Chains.give {free : Nat → Bool} {phase : P → Phase} {z : Phase} (h : Chains free phase)
    (hjob : (phase p).job = some (c, x, k)) (hz : z.job = none) :
    Chains (fun i => free i || decide (x.Has i)) (update phase p z) := by
  have hcase : ∀ q c' x' k', (update phase p z q).job = some (c', x', k') →
      q ≠ p ∧ (phase q).job = some (c', x', k') := by
    intro q c' x' k' hq
    refine (job_update hq).resolve_left (fun hq => ?_)
    cases hz.symm.trans hq.2
  constructor
  case ok => exact fun q c' x' k' hq => h.ok q c' x' k' (hcase q c' x' k' hq).2
  case taken =>
    intro q c' x' k' i hq hi
    obtain ⟨hqp, hq'⟩ := hcase q c' x' k' hq
    have hno : ¬ x.Has i := fun hx => hqp (h.apart q p c' x' k' c x k i hq' hjob hi hx)
    simp [h.taken q c' x' k' i hq' hi, hno]
  case apart =>
    intro q r c1 x1 k1 c2 x2 k2 i hq hr
    exact h.apart q r c1 x1 k1 c2 x2 k2 i (hcase q c1 x1 k1 hq).2 (hcase r c2 x2 k2 hr).2
  case cover =>
    intro i hi hf
    rw [Bool.or_eq_false_iff, decide_eq_false_iff_not] at hf
    obtain ⟨q, c', x', k', hq, hx'⟩ := h.cover i hi hf.1
    have hqp : q ≠ p := by
      rintro rfl
      rw [hjob] at hq
      cases hq
      exact hf.2 hx'
    exact ⟨q, c', x', k', by rw [update_of_ne hqp, hq], hx'⟩

omit [DecidableEq P] in
theorem Inv.not_filled (h : Inv w) (hl : w.lock = none) : w.phase p ≠ .filled c x k := by
  intro hp
  have := (h.filled p c x k hp).1
  rw [hl] at this
  cases this

theorem Inv.fill (h : Inv w) (hl : w.lock = none) (hjob : (w.phase p).job = none)
    (hb : ∀ q, q ≠ p → (w.phase q).buf ≠ some c.b) (hx : x.Ok)
    (hfree : ∀ i, x.Has i → w.disk.free i = true) :
    Inv { w.setPhase p (.filled c x w.next) with
      disk := format c x { w.disk with free := fun i => w.disk.free i && !decide (x.Has i) }
      busy := update w.busy c.b true
      lock := some (.proc p)
      req := update w.req x.op w.next
      next := w.next + 1 } := by
  obtain ⟨xs, ys, hr⟩ := h.rings
  have hwait : ∀ q c' x' k', update w.phase p (.filled c x w.next) q = .waiting c' x' k' ↔
      w.phase q = .waiting c' x' k' := fun q c' x' k' => update_iff (by simp) (ne_waiting hjob)
  have hnot : x.op ∉ w.flight xs ys := by
    intro hin
    obtain ⟨q, c', x', k', hq, he, -⟩ := hr.sent _ hin
    exact h.chains.not_has (job_of_waiting hq) (hfree _ (.inl rfl)) (.inl he.symm)
  have hlen := hr.avail_lt h.chains hx.op_lt hnot
  have hbusy : ∀ q c' x' k', w.phase q = .waiting c' x' k' →
      update w.busy c.b true c'.b = w.busy c'.b := by
    intro q c' x' k' hq
    have hqp : q ≠ p := fun he => ne_waiting hjob (he ▸ hq)
    have hne : c'.b ≠ c.b := fun he => hb q hqp (by rw [hq]; exact congrArg some he)
    rw [update_of_ne hne]
  constructor
  case chains => exact h.chains.take hjob rfl hx hfree
  case bufs =>
    refine bufs_update h.bufs (fun q hq b he => ?_)
    obtain rfl : c.b = b := some.inj he
    exact hb q hq
  case jobs =>
    intro q c' x' k' hq
    by_cases hqp : q = p
    · subst hqp
      simp only [setPhase, update_self, Phase.job] at hq
      cases hq
      exact ⟨Formatted.of_format hx, update_self .., Nat.lt_succ_self _⟩
    · simp only [setPhase, update_of_ne hqp] at hq
      obtain ⟨hf, hk, hlt⟩ := h.jobs q c' x' k' hq
      have hno : ∀ i, x.Has i → ¬ x'.Has i := fun i hi => h.chains.not_has hq (hfree i hi)
      have hop : x'.op ≠ x.op := fun he => hno x.op (.inl rfl) (.inl he.symm)
      refine ⟨hf.congr ?_ (fun i hi => ?_) ?_, ?_, Nat.lt_succ_of_lt hlt⟩
      · simp [format, hop]
      · have h1 : i ≠ x.op := fun he => hno i (.inl he) hi
        have h2 : i ≠ x.data := fun he => hno i (.inr (.inl he)) hi
        have h3 : i ≠ x.status := fun he => hno i (.inr (.inr he)) hi
        simp [format, h1, h2, h3]
      · simp [format, hop]
      · simpa [hop] using hk
  case filled =>
    intro q c' x' k' hq
    by_cases hqp : q = p
    · subst hqp
      simp only [setPhase, update_self] at hq
      cases hq
      exact ⟨rfl, update_self .., update_self ..⟩
    · simp only [setPhase, update_of_ne hqp] at hq
      exact absurd hq (h.not_filled hl)
  case rings =>
    refine ⟨xs, ys, hr.congr (hr.avail.stage (by decide) hlen _) rfl rfl rfl rfl (fun i hi => ?_)
      (fun i hi => ?_) rfl ⟨rfl, rfl, rfl, rfl, rfl⟩ (fun q c x k => (hwait q c x k).mp)
      (fun q c x k hq _ => (hwait q c x k).mpr hq) hbusy⟩
    · have hne : i ≠ x.op := fun he => hnot (he ▸ hi)
      simp [format, hne]
    · have hne : i ≠ x.op := fun he => hnot (he ▸ hi)
      simp [hne]
  case done =>
    intro q c' x' k' hq hfalse
    have hq' := (hwait q c' x' k').mp hq
    exact h.done q c' x' k' hq' ((hbusy q c' x' k' hq').symm.trans hfalse)
  case fresh => exact fun k hk => Nat.lt_succ_of_lt (h.fresh k hk)
  case returned => exact h.returned

omit [DecidableEq P] in
theorem Inv.not_flight (h : Inv w) (hr : Rings w xs ys) (hp : (w.phase p).job = some (c, x, k))
    (hn : ∀ c x k, w.phase p = .waiting c x k → w.busy c.b = false) : x.op ∉ w.flight xs ys := by
  intro hin
  obtain ⟨q, c', x', k', hq, he, hb⟩ := hr.sent _ hin
  obtain rfl := h.chains.apart q p c' x' k' c x k x.op (job_of_waiting hq) hp (.inl he.symm)
    (.inl rfl)
  rw [hn c' x' k' hq] at hb
  cases hb

theorem Inv.publish (h : Inv w) (hp : w.phase p = .filled c x k) : Inv (w.publish p c x k) := by
  obtain ⟨xs, ys, hr⟩ := h.rings
  obtain ⟨hl, hb, hslot⟩ := h.filled p c x k hp
  have hjob : (w.phase p).job = some (c, x, k) := by
    rw [hp]
    rfl
  have hnot : x.op ∉ w.flight xs ys := by
    refine h.not_flight hr hjob (fun c' x' k' hw => ?_)
    rw [hp] at hw
    cases hw
  have hlen := hr.avail_lt h.chains (h.chains.ok p c x k hjob).op_lt hnot
  have hjobs : ∀ q, ((w.publish p c x k).phase q).job = (w.phase q).job := by
    intro q
    by_cases hqp : q = p
    · subst hqp
      rw [hp]
      simp [publish, setPhase, Phase.job]
    · simp [World.publish, World.setPhase, hqp]
  have hwait : ∀ q c' x' k', (w.publish p c x k).phase q = .waiting c' x' k' →
      (q = p ∧ c' = c ∧ x' = x ∧ k' = k) ∨ w.phase q = .waiting c' x' k' := by
    intro q c' x' k' hq
    by_cases hqp : q = p
    · subst hqp
      simp only [World.publish, World.setPhase, update_self, Phase.waiting.injEq] at hq
      exact .inl ⟨rfl, hq.1.symm, hq.2.1.symm, hq.2.2.symm⟩
    · simp only [World.publish, World.setPhase, update_of_ne hqp] at hq
      exact .inr hq
  have hkeep : ∀ q c' x' k', w.phase q = .waiting c' x' k' →
      (w.publish p c x k).phase q = .waiting c' x' k' := by
    intro q c' x' k' hq
    have hqp : q ≠ p := by
      rintro rfl
      rw [hp] at hq
      cases hq
    simp only [World.publish, World.setPhase, update_of_ne hqp, hq]
  have hnew : (w.publish p c x k).phase p = .waiting c x k := by
    simp [World.publish, World.setPhase]
  have hperm : (w.publish p c x k).flight (xs ++ [x.op]) ys ~ x.op :: w.flight xs ys := by
    simp only [flight, World.publish, World.setPhase, List.append_assoc]
    exact List.perm_middle
  constructor
  case chains => exact h.chains.congr rfl hjobs
  case bufs =>
    have hbuf : ∀ q, ((w.publish p c x k).phase q).buf = (w.phase q).buf := by
      intro q
      by_cases hqp : q = p
      · subst hqp
        rw [hp]
        simp [publish, setPhase, Phase.buf]
      · simp [World.publish, World.setPhase, hqp]
    intro q r b hq hr
    rw [hbuf] at hq hr
    exact h.bufs q r b hq hr
  case jobs =>
    intro q c' x' k' hq
    exact h.jobs_of (d := (w.publish p c x k).disk) rfl rfl rfl q c' x' k' ((hjobs q).symm.trans hq)
  case filled =>
    intro q c' x' k' hq
    by_cases hqp : q = p
    · subst hqp
      rw [hnew] at hq
      cases hq
    · simp only [World.publish, World.setPhase, update_of_ne hqp] at hq
      have := (h.filled q c' x' k' hq).1
      rw [hl] at this
      cases this
      exact absurd rfl hqp
  case rings =>
    refine ⟨xs ++ [x.op], ys, ?_⟩
    constructor
    case avail => exact hr.avail.extend hlen hslot
    case used => exact hr.used
    case published =>
      have := hr.published
      simp [World.publish, World.setPhase, this]
    case posted => exact hr.posted
    case nodup => exact hperm.nodup_iff.mpr (List.nodup_cons.mpr ⟨hnot, hr.nodup⟩)
    case sent =>
      intro i hi
      rcases List.mem_cons.mp (hperm.mem_iff.mp hi) with rfl | hi
      · exact ⟨p, c, x, k, hnew, rfl, hb⟩
      · obtain ⟨q, c', x', k', hq, he, hb'⟩ := hr.sent i hi
        exact ⟨q, c', x', k', hkeep q c' x' k' hq, he, hb'⟩
    case owed =>
      intro q c' x' k' hq hb'
      refine hperm.mem_iff.mpr ?_
      rcases hwait q c' x' k' hq with ⟨-, -, rfl, -⟩ | hq'
      · exact List.mem_cons_self
      · exact List.mem_cons_of_mem _ (hr.owed q c' x' k' hq' hb')
    case fetched =>
      intro r hr'
      obtain ⟨q, c', x', k', hq, he⟩ := hr.fetched r hr'
      exact ⟨q, c', x', k', hkeep q c' x' k' hq, he⟩
    case entry => exact hr.entry
    case success => exact hr.success
  case done =>
    intro q c' x' k' hq hfalse
    rcases hwait q c' x' k' hq with ⟨-, rfl, -, -⟩ | hq'
    · have : w.busy c'.b = false := hfalse
      rw [hb] at this
      cases this
    · exact h.done q c' x' k' hq' hfalse
  case fresh => exact h.fresh
  case returned => exact h.returned

theorem Inv.return (h : Inv w) (hl : w.lock = none) (hp : w.phase p = .waiting c x k)
    (hb : w.busy c.b = false) : ∃ t, w.wake p c x k = .ok t ∧ Inv t := by
  obtain ⟨xs, ys, hr⟩ := h.rings
  have hjob := job_of_waiting hp
  have hx := h.chains.ok p c x k hjob
  obtain ⟨hf, -, -⟩ := h.jobs p c x k hjob
  obtain ⟨desc, hfree, hdesc⟩ := freeChain_ok (c := c)
    (d := { w.disk with infoB := update w.disk.infoB x.op none }) hx hf.first hf.second
    hf.third (fun i hi => h.chains.taken p c x k i hjob hi)
  have hwait : ∀ q c' x' k', update w.phase p .out q = .waiting c' x' k' →
      q ≠ p ∧ w.phase q = .waiting c' x' k' := by
    intro q c' x' k' hq
    by_cases hqp : q = p
    · rw [hqp, update_self] at hq
      cases hq
    · rw [update_of_ne hqp] at hq
      exact ⟨hqp, hq⟩
  have hnot : x.op ∉ w.flight xs ys := by
    refine h.not_flight hr hjob (fun c' x' k' hw => ?_)
    rw [hp] at hw
    cases hw
    exact hb
  refine ⟨_, by rw [wake, if_neg (by simp [hb]), hfree]; rfl, ?_⟩
  constructor
  case chains => exact h.chains.give hjob rfl
  case bufs => exact bufs_update h.bufs (fun q hq b he => by cases he)
  case jobs =>
    intro q c' x' k' hq
    obtain ⟨hqp, hq⟩ := (job_update hq).resolve_left (fun hq => by cases hq.2)
    obtain ⟨hf', hk⟩ := h.jobs q c' x' k' hq
    have hno : ∀ i, x'.Has i → ¬ x.Has i :=
      fun i hi hi' => hqp (h.chains.apart q p c' x' k' c x k i hq hjob hi hi')
    have hop : x'.op ≠ x.op := fun he => hno x'.op (.inl rfl) (.inl he)
    refine ⟨hf'.congr rfl (fun i hi => hdesc i (hno i hi)) ?_, hk⟩
    simp [hop]
  case filled =>
    intro q c' x' k' hq
    refine absurd ((update_iff (by simp) ?_).mp hq) (h.not_filled hl)
    rw [hp]
    simp
  case rings =>
    refine ⟨xs, ys, hr.congr hr.avail rfl rfl rfl rfl (fun _ _ => rfl) (fun _ _ => rfl) rfl
      ⟨rfl, rfl, rfl, rfl, rfl⟩ (fun q c' x' k' hq => (hwait q c' x' k' hq).2)
      (fun q c' x' k' hq hin => ?_) (fun _ _ _ _ _ => rfl)⟩
    have hqp : q ≠ p := by
      rintro rfl
      rw [hp] at hq
      cases hq
      exact hnot hin
    exact (update_of_ne hqp _ _).trans hq
  case done => exact fun q c' x' k' hq => h.done q c' x' k' (hwait q c' x' k' hq).2
  case fresh => exact h.fresh
  case returned =>
    intro k' hk'
    rcases List.mem_append.mp hk' with hk' | hk'
    · exact h.returned k' hk'
    · rw [List.mem_singleton.mp hk']
      exact h.done p c x k hp hb

omit [DecidableEq P] in
theorem Inv.relock (h : Inv w) (hl : ∀ p, w.lock ≠ some (.proc p)) (l : Option (Owner P)) :
    Inv { w with lock := l } := by
  refine ⟨h.chains, h.bufs, h.jobs, fun p c x k hp => ?_, ?_, h.done, h.fresh, h.returned⟩
  · exact absurd (h.filled p c x k hp).1 (hl p)
  · obtain ⟨xs, ys, hr⟩ := h.rings
    exact ⟨xs, ys, hr.congr hr.avail rfl rfl rfl rfl (fun _ _ => rfl) (fun _ _ => rfl) rfl
      ⟨rfl, rfl, rfl, rfl, rfl⟩ (fun _ _ _ _ => id) (fun _ _ _ _ hq _ => hq)
      (fun _ _ _ _ _ => rfl)⟩

omit [DecidableEq P] in
theorem Inv.next_used (h : Inv w) (hne : w.disk.seenIdx ≠ w.disk.usedIdx) :
    ∃ p c x k, w.phase p = .waiting c x k ∧
      w.disk.usedRing (cell num w.disk.seenIdx) = x.op ∧ w.disk.status x.op = 0 ∧
      w.disk.infoB x.op = some c.b ∧ w.busy c.b = true ∧ k ∈ w.completed := by
  obtain ⟨xs, ys, hr⟩ := h.rings
  cases ys with
  | nil => exact absurd ((hr.used.eq_iff (by decide)).mpr rfl) hne
  | cons i ys =>
    have hin : i ∈ w.flight xs (i :: ys) := by simp [flight]
    obtain ⟨p, c, x, k, hp, rfl, hb⟩ := hr.sent i hin
    obtain ⟨hs, hc⟩ := hr.success x.op (by simp)
    obtain ⟨hf, hk, -⟩ := h.jobs p c x k (job_of_waiting hp)
    exact ⟨p, c, x, k, hp, hr.used.head, hs, hf.info, hb, hk ▸ hc⟩

omit [DecidableEq P] in
theorem World.poll_eq (hne : w.disk.seenIdx ≠ w.disk.usedIdx)
    (hu : w.disk.usedRing (cell num w.disk.seenIdx) = x.op) (hs : w.disk.status x.op = 0)
    (hi : w.disk.infoB x.op = some c.b) : w.poll = .ok { w with
      disk := { w.disk with seenIdx := w.disk.seenIdx + 1 }
      busy := update w.busy c.b false
      seen := w.seen ++ [x.op] } := by
  unfold poll
  rw [if_neg hne]
  simp only [hu, hi]
  rw [if_neg (by simp [hs])]
  rfl

theorem Inv.complete (h : Inv w) (hp : w.phase p = .waiting c x k)
    (hne : w.disk.seenIdx ≠ w.disk.usedIdx)
    (hu : w.disk.usedRing (cell num w.disk.seenIdx) = x.op) :
    Inv { w with
      disk := { w.disk with seenIdx := w.disk.seenIdx + 1 }
      busy := update w.busy c.b false
      seen := w.seen ++ [x.op] } := by
  obtain ⟨xs, ys, hr⟩ := h.rings
  cases ys with
  | nil => exact absurd ((hr.used.eq_iff (by decide)).mpr rfl) hne
  | cons i ys =>
  obtain rfl : x.op = i := hu.symm.trans hr.used.head
  have hjob := job_of_waiting hp
  have hperm : w.flight xs (x.op :: ys) ~ x.op :: w.flight xs ys := by
    simp only [flight, ← List.append_assoc]
    exact List.perm_middle
  have hnd := List.nodup_cons.mp (hperm.nodup_iff.mp hr.nodup)
  have hbuf : ∀ q b, (w.phase q).buf = some b → q ≠ p → update w.busy c.b false b = w.busy b := by
    intro q b hq hqp
    refine update_of_ne (fun hb => hqp (h.bufs q p b hq ?_)) _ _
    rw [hp, hb]
    rfl
  constructor
  case chains => exact h.chains
  case bufs => exact h.bufs
  case jobs => exact h.jobs_of rfl rfl rfl
  case filled =>
    intro q c' x' k' hq
    obtain ⟨h1, h2, h3⟩ := h.filled q c' x' k' hq
    have hqp : q ≠ p := by
      rintro rfl
      cases hp.symm.trans hq
    exact ⟨h1, (hbuf q c'.b (by rw [hq]; rfl) hqp).trans h2, h3⟩
  case rings =>
    refine ⟨xs, ys, ?_⟩
    constructor
    case avail => exact hr.avail
    case used => exact hr.used.pop
    case published => exact hr.published
    case posted =>
      have := hr.posted
      rw [this, List.append_assoc]
      rfl
    case nodup => exact hnd.2
    case sent =>
      intro i hi
      have hi' : i ∈ w.flight xs ys := hi
      obtain ⟨q, c', x', k', hq, he, hb⟩ := hr.sent i (hperm.mem_iff.mpr (List.mem_cons_of_mem _ hi'))
      have hqp : q ≠ p := by
        rintro rfl
        rw [hp] at hq
        cases hq
        exact hnd.1 (he ▸ hi')
      exact ⟨q, c', x', k', hq, he, (hbuf q c'.b (by rw [hq]; rfl) hqp).trans hb⟩
    case owed =>
      intro q c' x' k' hq hb
      have hqp : q ≠ p := by
        rintro rfl
        rw [hp] at hq
        cases hq
        simp at hb
      have hin := hr.owed q c' x' k' hq ((hbuf q c'.b (by rw [hq]; rfl) hqp).symm.trans hb)
      rcases List.mem_cons.mp (hperm.mem_iff.mp hin) with he | hin
      · exact absurd (h.chains.apart q p c' x' k' c x k x.op (job_of_waiting hq) hjob
          (.inl he.symm) (.inl rfl)) hqp
      · exact hin
    case fetched => exact hr.fetched
    case entry => exact hr.entry
    case success =>
      intro i hi
      refine hr.success i ?_
      simp only [List.mem_append, List.mem_cons] at hi ⊢
      tauto
  case done =>
    intro q c' x' k' hq hfalse
    by_cases hqp : q = p
    · subst hqp
      rw [hp] at hq
      cases hq
      obtain ⟨hs, hc⟩ := hr.success x.op (by simp)
      obtain ⟨-, hk, -⟩ := h.jobs q c x k hjob
      exact hk ▸ hc
    · exact h.done q c' x' k' hq ((hbuf q c'.b (by rw [hq]; rfl) hqp).symm.trans hfalse)
  case fresh => exact h.fresh
  case returned => exact h.returned

omit [DecidableEq P] in
theorem Inv.consume (h : Inv w) (hne : w.dev.last ≠ w.disk.availIdx) :
    ∃ t, w.consume = .ok t ∧ Inv t := by
  obtain ⟨xs, ys, hr⟩ := h.rings
  cases xs with
  | nil => exact absurd ((hr.avail.eq_iff (by decide)).mpr rfl) hne
  | cons i xs =>
  have hin : i ∈ w.flight (i :: xs) ys := by simp [flight]
  obtain ⟨p, c, x, k, hp, rfl, hb⟩ := hr.sent i hin
  obtain ⟨hf, -, -⟩ := h.jobs p c x k (job_of_waiting hp)
  refine ⟨_, by unfold World.consume; simp only [hr.avail.head, hf.fetch]; rfl, ?_⟩
  have hperm : xs ++ ((w.dev.pending ++ [request c x] ++ w.dev.posting.toList).map Request.head ++ ys)
      ~ w.flight (x.op :: xs) ys := by
    simp only [flight, List.map_append, List.map_cons, List.append_assoc,
      List.cons_append, List.nil_append]
    have hhead : (request c x).head = x.op := rfl
    rw [hhead, ← List.append_assoc, ← List.append_assoc]
    exact List.perm_middle
  refine ⟨h.chains, h.bufs, h.jobs, h.filled, ⟨xs, ys, ?_⟩, h.done, h.fresh, h.returned⟩
  constructor
  case avail => exact hr.avail.pop
  case used => exact hr.used
  case published =>
    have := hr.published
    rw [this, List.append_assoc]
    rfl
  case posted => exact hr.posted
  case nodup => exact hperm.nodup_iff.mpr hr.nodup
  case sent => exact fun i hi => hr.sent i (hperm.mem_iff.mp hi)
  case owed => exact fun q c' x' k' hq hb' => hperm.mem_iff.mpr (hr.owed q c' x' k' hq hb')
  case fetched =>
    intro r hr'
    simp only [List.mem_append, List.mem_singleton] at hr'
    rcases hr' with (hr' | rfl) | hr'
    · exact hr.fetched r (List.mem_append_left _ hr')
    · exact ⟨p, c, x, k, hp, rfl⟩
    · exact hr.fetched r (List.mem_append_right _ hr')
  case entry => exact hr.entry
  case success => exact hr.success

omit [DecidableEq P] in
theorem Inv.finish (h : Inv w) {r : Request} (hmem : r ∈ w.dev.pending)
    (hn : w.dev.posting = none) : Inv (w.finish r) := by
  obtain ⟨xs, ys, hr⟩ := h.rings
  obtain ⟨p, c, x, k, hp, rfl⟩ := hr.fetched r (List.mem_append_left _ hmem)
  have hjob := job_of_waiting hp
  obtain ⟨-, hk, hlt⟩ := h.jobs p c x k hjob
  have hperm : (w.finish (request c x)).flight xs ys ~ w.flight xs ys := by
    simp only [World.flight, World.finish, hn, toList_some, toList_none, List.append_nil]
    refine List.Perm.append_left xs (List.Perm.append_right ys (List.Perm.map _ ?_))
    exact (List.perm_append_singleton _ _).trans (List.perm_cons_erase hmem).symm
  have hys : ys.length < num := by
    have hall := length_le_of_lt hr.nodup (fun a ha => hr.lt h.chains ha)
    have hpos := List.length_pos_of_mem hmem
    simp only [World.flight, List.length_append, List.length_map] at hall
    omega
  refine ⟨h.chains, h.bufs, h.jobs_of rfl rfl rfl, h.filled, ⟨xs, ys, ?_⟩,
    fun q c' x' k' hq hfalse => ?_, fun k' hk' => ?_,
    fun k' hk' => List.mem_append_left _ (h.returned k' hk')⟩
  · constructor
    case avail => exact hr.avail
    case used => exact hr.used.stage (by decide) hys _
    case published => exact hr.published
    case posted => exact hr.posted
    case nodup => exact hperm.nodup_iff.mpr hr.nodup
    case sent => exact fun i hi => hr.sent i (hperm.mem_iff.mp hi)
    case owed => exact fun q c' x' k' hq hb' => hperm.mem_iff.mpr (hr.owed q c' x' k' hq hb')
    case fetched =>
      intro r hr'
      simp only [World.finish, toList_some, List.mem_append, List.mem_singleton] at hr'
      rcases hr' with hr' | rfl
      · exact hr.fetched r (List.mem_append_left _ (List.mem_of_mem_erase hr'))
      · exact ⟨p, c, x, k, hp, rfl⟩
    case entry =>
      intro r he
      obtain rfl : request c x = r := some.inj he
      exact update_self ..
    case success =>
      intro i hi
      simp only [World.finish, toList_some, List.map_cons, List.map_nil, List.mem_append,
        List.mem_singleton] at hi ⊢
      rcases hi with rfl | hi
      · exact ⟨update_self .., .inr rfl⟩
      · obtain ⟨hs, hc⟩ := hr.success i (List.mem_append_right _ hi)
        refine ⟨?_, .inl hc⟩
        by_cases hix : i = (request c x).status
        · rw [hix, update_self]
        · rw [update_of_ne hix]
          exact hs
  · exact List.mem_append_left _ (h.done q c' x' k' hq hfalse)
  · rcases List.mem_append.mp hk' with hk' | hk'
    · exact h.fresh k' hk'
    · rw [List.mem_singleton.mp hk']
      have hreq : w.req (request c x).head = k := hk
      exact hreq ▸ hlt

omit [DecidableEq P] in
theorem Inv.post (h : Inv w) {r : Request} (hp : w.dev.posting = some r) : Inv (w.post r) := by
  obtain ⟨xs, ys, hr⟩ := h.rings
  have hperm : (w.post r).flight xs (ys ++ [r.head]) ~ w.flight xs ys := by
    simp only [World.flight, World.post, hp, toList_some, toList_none,
      List.append_nil, List.map_append, List.map_cons, List.map_nil, List.append_assoc]
    refine List.Perm.append_left xs (List.Perm.append_left _ ?_)
    exact List.perm_append_comm
  have hys : ys.length < num := by
    have hall := length_le_of_lt hr.nodup (fun a ha => hr.lt h.chains ha)
    simp only [World.flight, List.length_append, List.length_map, hp, toList_some,
      List.length_singleton] at hall
    omega
  refine ⟨h.chains, h.bufs, h.jobs_of rfl rfl rfl, h.filled, ⟨xs, ys ++ [r.head], ?_⟩, h.done,
    h.fresh, h.returned⟩
  constructor
  case avail => exact hr.avail
  case used => exact hr.used.extend hys (hr.entry r hp)
  case published => exact hr.published
  case posted =>
    have := hr.posted
    simp [World.post, this]
  case nodup => exact hperm.nodup_iff.mpr hr.nodup
  case sent => exact fun i hi => hr.sent i (hperm.mem_iff.mp hi)
  case owed => exact fun q c' x' k' hq hb' => hperm.mem_iff.mpr (hr.owed q c' x' k' hq hb')
  case fetched =>
    intro r' hr'
    refine hr.fetched r' (List.mem_append_left _ ?_)
    simpa [World.post] using hr'
  case entry =>
    intro r' he
    cases he
  case success =>
    intro i hi
    refine hr.success i ?_
    simp only [World.post, toList_none, List.map_nil, List.nil_append, List.mem_append,
      List.mem_singleton] at hi
    simp only [hp, toList_some, List.map_cons, List.map_nil, List.mem_append, List.mem_singleton]
    exact hi.symm

theorem Inv.submit (h : Inv w) (hl : w.lock = none) (hjob : (w.phase p).job = none)
    (hb : ∀ q, q ≠ p → (w.phase q).buf ≠ some c.b) : ∃ t, w.submit p c = .ok t ∧ Inv t := by
  unfold World.submit
  rcases alloc3Desc_spec w.disk with ⟨desc, he, hd⟩ | ⟨x, he, hx, h1, h2, h3⟩
  · rw [he]
    exact ⟨_, rfl, h.start hjob hb hd⟩
  · rw [he]
    refine ⟨_, rfl, h.fill hl hjob hb hx ?_⟩
    rintro i (rfl | rfl | rfl)
    · exact h1
    · exact h2
    · exact h3

theorem Inv.step (h : Inv w) {ev : Event P} {o : Except String (World P)} (hs : Step w ev o) :
    ∃ t, o = .ok t ∧ Inv t := by
  cases hs with
  | rw p c hl hp hb => exact h.submit hl (by rw [hp]; rfl) (fun q _ => hb q)
  | retry p c hl hp =>
    refine h.submit hl (by rw [hp]; rfl) (fun q hqp hq => hqp (h.bufs q p c.b hq ?_))
    rw [hp]
    rfl
  | publish p c x k hp => exact ⟨_, rfl, h.publish hp⟩
  | wake p c x k hl hp =>
    cases hb : w.busy c.b with
    | true => exact ⟨w, by rw [wake, if_pos hb]; rfl, h⟩
    | false => exact h.return hl hp hb
  | intr hl => exact ⟨_, rfl, h.relock (fun p => by simp [hl]) _⟩
  | poll hl =>
    by_cases he : w.disk.seenIdx = w.disk.usedIdx
    · exact ⟨_, by rw [poll, if_pos he]; rfl, h.relock (fun p => by simp [hl]) _⟩
    · obtain ⟨p, c, x, k, hp, hu, hst, hi, -, -⟩ := h.next_used he
      exact ⟨_, poll_eq he hu hst hi, h.complete hp he hu⟩
  | consume hne => exact h.consume hne
  | finish i r hr hn => exact ⟨_, rfl, h.finish hr hn⟩
  | post r hr => exact ⟨_, rfl, h.post hr⟩

omit [DecidableEq P] in
theorem boot_inv : Inv (boot P) := by
  constructor
  case chains =>
    refine ⟨fun p c x k hp => ?_, fun p c x k i hp => ?_, fun p q c x k c' x' k' i hp => ?_,
      fun i hi hf => ?_⟩
    · cases hp
    · cases hp
    · cases hp
    · cases hf
  case bufs => exact fun p q b hp => by cases hp
  case jobs => exact fun p c x k hp => by cases hp
  case filled => exact fun p c x k hp => by cases hp
  case rings =>
    refine ⟨[], [], Carries.nil _, Carries.nil _, rfl, rfl, List.nodup_nil, ?_, ?_, ?_, ?_, ?_⟩
    · exact fun i hi => by cases hi
    · exact fun p c x k hp => by cases hp
    · exact fun r hr => by cases hr
    · exact fun r hr => by cases hr
    · exact fun i hi => by cases hi
  case done => exact fun p c x k hp => by cases hp
  case fresh => exact fun k hk => by cases hk
  case returned => exact fun k hk => by cases hk

theorem reachable_inv [Fintype P] (hr : (machine P).Reachable (boot P) w) : Inv w := by
  refine hr.inv (fun s ev t hst hi => ?_) boot_inv
  obtain ⟨o, ho, hok⟩ := bind_eq_some_iff.mp hst
  obtain ⟨t', rfl, hi'⟩ := hi.step (step_cases ho)
  cases hok
  exact hi'

structure Owned (w : World P) : Prop where
  apart : ∀ p q c x k c' x' k' i, (w.phase p).job = some (c, x, k) →
    (w.phase q).job = some (c', x', k') → x.Has i → x'.Has i → p = q
  three : ∀ p c x k, (w.phase p).job = some (c, x, k) → x.Ok
  cover : ∀ i < num, w.disk.free i = true ∨ ∃ p c x k, (w.phase p).job = some (c, x, k) ∧ x.Has i
  busy : ∀ i p c x k, (w.phase p).job = some (c, x, k) → x.Has i → w.disk.free i = false

omit [DecidableEq P] in
theorem Inv.owned (h : Inv w) : Owned w := by
  refine ⟨h.chains.apart, h.chains.ok, fun i hi => ?_, fun i p c x k => h.chains.taken p c x k i⟩
  cases hf : w.disk.free i with
  | true => exact .inl rfl
  | false => exact .inr (h.chains.cover i hi hf)

/-- Descriptors have one owner, the rings hold what was put into them and not yet taken
out, a completion clears `disk` of the buffer whose request was completed, a call
returns after its request was completed, and there is no panic. -/
theorem ring_protocol [Fintype P] (w : World P) (hr : (machine P).Reachable (boot P) w) : Owned w ∧
    (∃ xs, w.published = w.consumed ++ xs ∧
      Carries num w.disk.availRing w.dev.last w.disk.availIdx xs) ∧
    (∃ ys, w.posted = w.seen ++ ys ∧ Carries num w.disk.usedRing w.disk.seenIdx w.disk.usedIdx ys) ∧
    (w.lock = some .intr → w.disk.seenIdx ≠ w.disk.usedIdx → ∃ p c x k t,
      w.phase p = .waiting c x k ∧ w.disk.usedRing (cell num w.disk.seenIdx) = x.op ∧
      k ∈ w.completed ∧ w.busy c.b = true ∧ w.step .poll = some (.ok t) ∧
      t.busy = Function.update w.busy c.b false) ∧
    (∀ p c x k, w.phase p = .waiting c x k → w.busy c.b = false → k ∈ w.completed) ∧
    (∀ k ∈ w.returned, k ∈ w.completed) ∧
    ∀ ev e, w.step ev ≠ some (.error e) := by
  have h := reachable_inv hr
  obtain ⟨xs, ys, hrings⟩ := h.rings
  refine ⟨h.owned, ⟨xs, hrings.published, hrings.avail⟩, ⟨ys, hrings.posted, hrings.used⟩,
    fun hl hne => ?_, h.done, h.returned, fun ev e he => ?_⟩
  · obtain ⟨p, c, x, k, hp, hu, hst, hi, hb, hk⟩ := h.next_used hne
    have hstep : w.step .poll = some w.poll := by rw [World.step, if_pos hl]
    rw [hstep, poll_eq hne hu hst hi]
    exact ⟨p, c, x, k, _, hp, hu, hk, hb, rfl, rfl⟩
  · obtain ⟨t, ht, -⟩ := h.step (step_cases he)
    cases ht

/-- Two processes read one block each; the device completes the second request first. -/
def twoReads : List (Event (Fin 2)) :=
  [.rw 0 ⟨5, 40, false⟩, .publish 0, .consume, .rw 1 ⟨6, 41, false⟩, .publish 1, .consume,
    .finish 1, .post, .intr, .poll, .poll, .wake 0, .wake 1]

theorem ring_protocol_twoReads : ∃ w, (machine (Fin 2)).exec (boot (Fin 2)) twoReads = some w ∧
    w.returned = [1] ∧ ∀ k ∈ w.returned, k ∈ w.completed := by
  obtain ⟨w, hw⟩ := isSome_iff_exists.mp
    (show ((machine (Fin 2)).exec (boot (Fin 2)) twoReads).isSome = true from rfl)
  refine ⟨w, hw, ?_, (ring_protocol w ⟨_, hw⟩).2.2.2.2.2.1⟩
  exact Option.some.inj (congrArg (Option.map returned) hw).symm

end Virtio

end Xv6
