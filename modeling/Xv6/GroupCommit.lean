import Xv6.CommitStages

/-! What the log and its cache give to any interleaving of operations: an
operation belongs to one commit, and which operations find the cache too small. -/

namespace Xv6

open List

/-- While the log commits no operation is in progress, what an operation logs
belongs to the transaction that is open until `commit` returns, and when
`write_log` is done the log holds the blocks of that transaction, each with what
its last writer left. -/
theorem group_commit (start : BlockNo) (d : Disk) {es : List CacheEvent} {s : LogCache}
    (hrun : cacheMachine.exec (cacheInit start d) es = some s) :
    (s.world.log.committing ≠ 0 → s.world.log.outstanding = 0 ∧ s.ops = ∅) ∧
    s.panic ≠ some "log.committing" ∧
    (∀ t, cacheStep s .commit = some t → s.ops = ∅) ∧
    (∀ p ∈ s.ops, s.written p ⊆ s.since) ∧ (∀ w ∈ s.ended, w ⊆ s.since) ∧
    ∀ p, s.stage = .head p → (∀ b, b ∈ s.since ↔ s.world.log.lh.Logged b) ∧
      ∀ i : Nat, (i : Int) < s.world.log.lh.n →
        s.world.disk (logBlock s.world.log.start i) = s.last (s.world.log.lh.block i) := by
  obtain ⟨⟨a, bs, h⟩, hpanic⟩ := Machine.inv_exec
    (I := fun u => (∃ a bs, CacheInv u a bs) ∧ u.panic ≠ some "log.committing")
    (fun _ _ _ hst ⟨⟨_, _, hi⟩, _⟩ => ⟨(step_cacheInv hst hi).1, (step_cacheInv hst hi).2.2⟩) hrun
    ⟨⟨_, _, cacheInv_init start d⟩, by simp [cacheInit]⟩
  refine ⟨fun hc => ?_, hpanic, fun t ht => ?_, h.history.written, h.history.ended,
    fun p hs => ⟨fun b => ?_, fun i hi => ?_⟩⟩
  · have hops := h.log.quiet (fun hidle => hc (h.log.committing.mpr hidle))
    exact ⟨by simp [h.log.outstanding, hops], hops⟩
  · refine h.log.quiet (fun hidle => ?_)
    unfold cacheStep at ht
    split at ht
    · simp at ht
    · simp at ht
  · rw [h.history.since (by simp [hs]), mem_toFinset, h.log.lists.logged]
  · have hlen : i < bs.length := by
      have hn := h.log.lists.1
      omega
    rw [h.cache.store.disk_eq, h.log.lists.2 i hlen]
    exact h.history.copied i hlen (by rw [hs]; exact hlen)

/-- Two operations write the same block in one transaction, up to its commit. -/
def sharedBlock (v w : Block) : List CacheEvent :=
  [.beginOp 0, .beginOp 1, .bread 0 100, .write 0 v, .brelse 0, .bread 1 100, .write 1 w,
    .brelse 1, .endOp 0, .endOp 1, .commit, .commit, .commit, .commit]

theorem group_commit_sharedBlock : ∃ s,
    cacheMachine.exec (cacheInit 2 (fun _ _ => 0)) (sharedBlock (fun _ => 7) (fun _ => 8)) =
      some s ∧ s.stage = .head 1 ∧ s.world.log.lh.n = 1 ∧ s.world.disk (logBlock 2 0) 5 = 8 := by
  have h : (cacheMachine.exec (cacheInit 2 (fun _ _ => 0))
      (sharedBlock (fun _ => 7) (fun _ => 8))).map (fun s =>
        (s.stage, s.world.log.lh.n, s.world.log.start, s.last (s.world.log.lh.block 0) 5)) =
      some (.head 1, 1, 2, 8) := by decide +kernel
  obtain ⟨s, hs, hv⟩ := Option.map_eq_some_iff.mp h
  obtain ⟨hstage, hn, hstart, hlast⟩ : s.stage = .head 1 ∧ s.world.log.lh.n = 1 ∧
      s.world.log.start = 2 ∧ s.last (s.world.log.lh.block 0) 5 = 8 := by simpa using hv
  have hlog := ((group_commit 2 _ hs).2.2.2.2.2 1 hstage).2 0 (by simp [hn])
  rw [hstart] at hlog
  exact ⟨s, hs, hstage, hn, by rw [hlog, hlast]⟩

/-- The blocks whose buffers cannot be recycled while operations run. -/
def LogCache.inUse (s : LogCache) : Finset BlockNo :=
  ((List.range s.world.log.lh.n.toNat).map s.world.log.lh.block).toFinset ∪
    s.ops.biUnion (fun p => (s.held p).toFinset)

def CacheRoom (s : LogCache) : CacheEvent → Prop
  | .bread _ b => b ∈ s.inUse ∨ s.inUse.card < nbuf
  | .commit => s.world.log.lh.n < nbuf
  | _ => True

instance (s : LogCache) : (e : CacheEvent) → Decidable (CacheRoom s e)
  | .bread _ b => inferInstanceAs (Decidable (b ∈ s.inUse ∨ s.inUse.card < nbuf))
  | .commit => inferInstanceAs (Decidable (s.world.log.lh.n < nbuf))
  | .beginOp _ | .write _ _ | .brelse _ | .endOp _ => isTrue trivial

def OpBudget (s : LogCache) : CacheEvent → Prop
  | .write p _ => (s.written p ∪ (s.held p).toFinset).card ≤ maxOpBlocks
  | _ => True

instance (s : LogCache) : (e : CacheEvent) → Decidable (OpBudget s e)
  | .write p _ =>
    inferInstanceAs (Decidable ((s.written p ∪ (s.held p).toFinset).card ≤ maxOpBlocks))
  | .beginOp _ | .bread _ _ | .brelse _ | .endOp _ | .commit => isTrue trivial

theorem CacheInv.mem_inUse {s : LogCache} {a : Store} {bs : List BlockNo} (h : CacheInv s a bs)
    (hidle : s.stage = .idle) (b : BlockNo) : b ∈ s.inUse ↔ b ∈ a.refs := by
  have hn : s.world.log.lh.n = bs.length := h.log.lists.1
  have hbs : (range s.world.log.lh.n.toNat).map s.world.log.lh.block = bs := by
    refine ext_getElem (by simp [hn]) (fun i hi hi' => ?_)
    simp [h.log.lists.2 i hi']
  have hrefs := h.cache.refs
  rw [hidle] at hrefs
  have hheld : b ∈ s.ops.biUnion (fun p => (s.held p).toFinset) ↔ b ∈ heldRefs s.ops s.held := by
    rw [mem_heldRefs, Finset.mem_biUnion]
    simp
  rw [LogCache.inUse, hbs, Finset.mem_union, hheld, hrefs]
  simp [Stage.pins, Stage.buffer]

theorem CacheInv.room_iff {s : LogCache} {a : Store} {bs : List BlockNo} (h : CacheInv s a bs)
    {p : Nat} (hp : p ∈ s.ops) (b : BlockNo) :
    CacheRoom s (.bread p b) ↔ ¬ (b ∉ a.refs ∧ nbuf ≤ a.refs.toFinset.card) := by
  have hidle := h.log.idle hp
  have hset : s.inUse = a.refs.toFinset := by
    ext b'
    rw [h.mem_inUse hidle, Multiset.mem_toFinset]
  rw [CacheRoom, hset, Multiset.mem_toFinset, not_and_or, not_not, not_le]

theorem breadStep_panic {s t : LogCache} {a : Store} {bs : List BlockNo} {p : Nat} {b : BlockNo}
    (h : CacheInv s a bs) (hst : cacheStep s (.bread p b) = some t) :
    t.panic = some "bget: no buffers" ↔ ¬ CacheRoom s (.bread p b) := by
  have hp := (step_cacheInv hst h).2.1
  unfold cacheStep at hst
  rw [if_neg (not_not.mpr hp)] at hst
  dsimp only at hst
  split at hst
  · rename_i hin
    rw [h.room_iff hin.1, not_not]
    cases hb : bread s.world.disk s.world.bcache b with
    | error m =>
      rw [hb] at hst
      obtain rfl := Option.some.inj hst
      obtain ⟨rfl, hfull⟩ := h.cache.store.bread_error_iff.mp hb
      simpa using hfull
    | ok c =>
      rw [hb] at hst
      obtain rfl := Option.some.inj hst
      simp only [hp, reduceCtorEq, false_iff]
      intro hfull
      simp [h.cache.store.bread_full hfull.1 hfull.2] at hb
  · simp at hst

theorem commitStep_room {s t : LogCache} {a : Store} {bs : List BlockNo} (h : CacheInv s a bs)
    (hst : cacheStep s .commit = some t) (hroom : CacheRoom s .commit) : t.panic = none := by
  have hp := (step_cacheInv hst h).2.1
  have hn := h.log.lists.1
  have hlt : s.world.log.lh.n < nbuf := hroom
  unfold cacheStep at hst
  rw [if_neg (not_not.mpr hp)] at hst
  dsimp only at hst
  split at hst
  · simp at hst
  · rename_i hstage
    obtain ⟨-, -, hhalt⟩ := h.stage_spec hstage s.world ⟨h.cache.store, rfl⟩
    cases hf : (DiskProg.commitStage s.world.log s.stage s.world).final with
    | none =>
      have hle := hhalt hf
      omega
    | some r =>
      rw [hf] at hst
      obtain rfl := Option.some.inj hst
      unfold LogCache.advance
      split <;> exact hp

theorem step_room {s t : LogCache} {a : Store} {bs : List BlockNo} {e : CacheEvent}
    (h : CacheInv s a bs) (hst : cacheStep s e = some t) (hroom : CacheRoom s e) :
    t.panic ≠ some "bget: no buffers" := by
  have hp := (step_cacheInv hst h).2.1
  cases e with
  | bread p b => exact fun hpanic => (breadStep_panic h hst).mp hpanic hroom
  | commit => simp [commitStep_room h hst hroom]
  | write p v =>
    unfold cacheStep at hst
    rw [if_neg (not_not.mpr hp)] at hst
    dsimp only at hst
    split at hst
    · split at hst
      · simp at hst
      · split at hst
        · rename_i m hl
          obtain rfl := Option.some.inj hst
          rcases logWrite_error hl with rfl | rfl <;> simp
        · obtain rfl := Option.some.inj hst
          simp [hp]
    · simp at hst
  | beginOp p =>
    unfold cacheStep at hst
    rw [if_neg (not_not.mpr hp)] at hst
    dsimp only at hst
    split at hst
    · simp at hst
    · obtain ⟨l, -, rfl⟩ := Option.map_eq_some_iff.mp hst
      simp [hp]
  | brelse p =>
    unfold cacheStep at hst
    rw [if_neg (not_not.mpr hp)] at hst
    dsimp only at hst
    split at hst
    · split at hst
      · simp at hst
      · obtain rfl := Option.some.inj hst
        simp [hp]
    · simp at hst
  | endOp p =>
    unfold cacheStep at hst
    rw [if_neg (not_not.mpr hp)] at hst
    dsimp only at hst
    split at hst
    · rename_i hin
      rw [endOp_eq (h.log.committing.mpr (h.log.idle hin.1))] at hst
      split at hst
      · rename_i m hl
        split at hl <;> simp at hl
      · obtain rfl := Option.some.inj hst
        simp [hp]
    · simp at hst

theorem commitStep_full {s t : LogCache} {a : Store} {bs : List BlockNo} {p : Nat}
    (h : CacheInv s a bs) (hs : s.stage = .logTo p 0) (hst : cacheStep s .commit = some t)
    (hfull : ¬ CacheRoom s .commit) : t.panic = some "bget: no buffers" := by
  have hp := (step_cacheInv hst h).2.1
  have hn : s.world.log.lh.n = bs.length := h.log.lists.1
  have hge : (nbuf : Int) ≤ s.world.log.lh.n := not_lt.mp hfull
  have hrefs := h.stage_refs (by simp [hs])
  rw [hs] at hrefs
  have hrefs : a.refs = ↑bs := by simpa [Stage.pins, Stage.buffer] using hrefs
  have hcard : nbuf ≤ a.refs.toFinset.card := by
    rw [hrefs, toFinset_coe, toFinset_card_of_nodup h.log.nodup]
    omega
  have hlog : logBlock s.world.log.start 0 ∉ a.refs := by
    rw [hrefs]
    exact fun hm => (h.log.home _ hm).ne_logBlock (by decide) rfl
  have hbread := h.cache.store.bread_full hlog hcard
  have hpos : ((0 : Nat) : Int) < s.world.log.lh.n := lt_of_lt_of_le (by decide) hge
  have hhalt : (DiskProg.commitStage s.world.log s.stage s.world).final = none := by
    rw [hs]
    simp only [DiskProg.commitStage, if_pos hpos]
    simp [Bind.bind, DiskProg.bread, Prog.attempt, hbread, Except.map]
  unfold cacheStep at hst
  rw [if_neg (not_not.mpr hp)] at hst
  dsimp only at hst
  rw [if_neg (by simp [hs]), hhalt] at hst
  obtain rfl := Option.some.inj hst
  rfl

/-- No `bread` finds the cache without a buffer in a run in which operations read
new blocks only while fewer than `NBUF` are logged or held, and which commits
fewer than `NBUF`; where either fails, the `bread` does panic. -/
theorem cache_fits_log (start : BlockNo) (d : Disk) {es : List CacheEvent} {s : LogCache}
    (hrun : cacheMachine.exec (cacheInit start d) es = some s) :
    (cacheMachine.Along CacheRoom (cacheInit start d) es → s.panic ≠ some "bget: no buffers") ∧
    (∀ p b t, cacheStep s (.bread p b) = some t →
      (t.panic = some "bget: no buffers" ↔ ¬ CacheRoom s (.bread p b))) ∧
    ∀ p t, s.stage = .logTo p 0 → cacheStep s .commit = some t →
      (t.panic = some "bget: no buffers" ↔ ¬ CacheRoom s .commit) := by
  obtain ⟨a, bs, h⟩ := cacheInv_run start d hrun
  refine ⟨fun hroom => ?_, fun p b t hst => breadStep_panic h hst, fun p t hs hst => ?_⟩
  · refine (Machine.inv_along (I := fun u => (∃ a bs, CacheInv u a bs) ∧
      u.panic ≠ some "bget: no buffers") ?_ hrun hroom
      ⟨⟨_, _, cacheInv_init start d⟩, by simp [cacheInit]⟩).2
    rintro u e v hst hr ⟨⟨a, bs, hi⟩, -⟩
    exact ⟨(step_cacheInv hst hi).1, step_room hi hst hr⟩
  · refine ⟨fun hpanic hroom => ?_, commitStep_full h hs hst⟩
    simp [commitStep_room h hst hroom] at hpanic

/-- Three operations that log ten blocks each, one buffer at a time, and the
beginning of their commit. -/
def fullCommit : List CacheEvent :=
  [.beginOp 0, .beginOp 1, .beginOp 2] ++
    (List.range 30).flatMap (fun k => [.bread (k / 10) (BitVec.ofNat 32 (100 + k)),
      .write (k / 10) (fun _ => 1), .brelse (k / 10)]) ++
    [.endOp 0, .endOp 1, .endOp 2, .commit, .commit]

theorem cache_fits_log_sharedBlock : ∃ s,
    cacheMachine.exec (cacheInit 2 (fun _ _ => 0)) (sharedBlock (fun _ => 7) (fun _ => 8)) =
      some s ∧ s.panic ≠ some "bget: no buffers" := by
  have h : (cacheMachine.exec (cacheInit 2 (fun _ _ => 0))
      (sharedBlock (fun _ => 7) (fun _ => 8))).isSome := by decide +kernel
  obtain ⟨s, hs⟩ := Option.isSome_iff_exists.mp h
  exact ⟨s, hs, (cache_fits_log 2 _ hs).1 (by decide +kernel)⟩

theorem cache_panics_within_budget :
    ¬ ∀ (start : BlockNo) (d : Disk) (es : List CacheEvent) (s : LogCache),
      cacheMachine.exec (cacheInit start d) es = some s →
      cacheMachine.Along OpBudget (cacheInit start d) es →
      s.panic ≠ some "bget: no buffers" := by
  intro hall
  have h : (cacheMachine.exec (cacheInit 2 (fun _ _ => 0)) fullCommit).map (fun s => s.panic) =
      some (some "bget: no buffers") := by decide +kernel
  obtain ⟨s, hs, hp⟩ := Option.map_eq_some_iff.mp h
  exact hall 2 _ fullCommit s hs (by decide +kernel) hp

end Xv6
