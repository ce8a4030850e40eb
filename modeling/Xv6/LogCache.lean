import Xv6.LogReservation
import Xv6.LogDisk

/-! The log together with its buffer cache, under any number of operations. An
operation has at most one buffer at a time; `commit` goes from one `bread` to the
next. -/

namespace Xv6

open Prog DiskProg Function List

instance (start b : BlockNo) : Decidable (Home start b) :=
  inferInstanceAs (Decidable (∀ i ≤ logBlocks, b ≠ start + BitVec.ofNat 32 i))

/-- Where the process that `end_op` has sent into `commit` stands. -/
inductive Stage where
  | idle
  | start (p : Nat)
  | logTo (p tail : Nat)
  | logFrom (p tail : Nat)
  | head (p : Nat)
  | installFrom (p tail : Nat)
  | installTo (p tail : Nat)
  | clear (p : Nat)
  | done (p : Nat)
deriving DecidableEq

namespace DiskProg

def logCopy (dst src : BlockNo) : DiskProg Unit := do
  bread src
  memmove dst src
  bwrite dst
  brelse src
  brelse dst

/-- A round of `install_trans(0)` after it has got its log block. -/
def installCopy (lbuf dbuf : BlockNo) : DiskProg Unit := do
  bread dbuf
  memmove dbuf lbuf
  bwrite dbuf
  bunpin dbuf
  brelse lbuf
  brelse dbuf

/-- `commit` from one `bread` to the next, and at the end the store of `end_op`
that lets operations in again. -/
def commitStage (l : Log) : Stage → DiskProg Stage
  | .idle => pure .idle
  | .start p => pure (if l.lh.n > 0 then .logTo p 0 else .done p)
  | .logTo p tail =>
    if (tail : Int) < l.lh.n then do
      bread (logBlock l.start tail)
      pure (.logFrom p tail)
    else pure (.head p)
  | .logFrom p tail => do
    logCopy (logBlock l.start tail) (l.lh.block tail)
    pure (.logTo p (tail + 1))
  | .head p => do
    writeHead
    pure (.installFrom p 0)
  | .installFrom p tail =>
    if (tail : Int) < l.lh.n then do
      bread (logBlock l.start tail)
      pure (.installTo p tail)
    else pure (.clear p)
  | .installTo p tail => do
    installCopy (logBlock l.start tail) (l.lh.block tail)
    pure (.installFrom p (tail + 1))
  | .clear p => do
    clearHead
    writeHead
    pure (.done p)
  | .done _ => do
    setLog (fun l => { l with committing := 0 })
    pure .idle

end DiskProg

/-- `held` is the buffer that the operation of a process has got from `bget`.
The kernel does not record the rest: what each operation has logged, what has
been logged since the last commit, by which ended operations, and what the last
writer left in each block. -/
structure LogCache where
  world : World
  ops : Finset Nat
  held : Nat → Option BlockNo
  stage : Stage
  panic : Option String
  written : Nat → Finset BlockNo
  since : Finset BlockNo
  ended : List (Finset BlockNo)
  last : BlockNo → Block

inductive CacheEvent where
  | beginOp (p : Nat)
  | bread (p : Nat) (b : BlockNo)
  | write (p : Nat) (v : Block)
  | brelse (p : Nat)
  | endOp (p : Nat)
  | commit

/-- After a stage of `commit`; with the last one a new transaction begins. -/
def LogCache.advance (s : LogCache) (st : Stage) (w : World) : LogCache :=
  match st with
  | .idle => { s with world := w, stage := .idle, since := ∅, ended := [] }
  | st => { s with world := w, stage := st }

/-- Operations keep to the home blocks, and `write` is a store into the buffer
followed by `log_write`. -/
def cacheStep (s : LogCache) (e : CacheEvent) : Option LogCache :=
  if s.panic ≠ none then none
  else
    match e with
    | .beginOp p =>
      if p ∈ s.ops then none
      else (beginOp s.world.log).map (fun l => { s with
        world := { s.world with log := l }
        ops := insert p s.ops
        written := Function.update s.written p ∅ })
    | .bread p b =>
      if p ∈ s.ops ∧ s.held p = none ∧ Home s.world.log.start b then
        match bread s.world.disk s.world.bcache b with
        | .error m => some { s with panic := some m }
        | .ok c => some { s with
            world := { s.world with bcache := c }
            held := Function.update s.held p (some b) }
      else none
    | .write p v =>
      if p ∈ s.ops then
        match s.held p with
        | none => none
        | some b =>
          match logWrite s.world.log b with
          | .error m => some { s with panic := some m }
          | .ok (l, pin) =>
            let c := setData s.world.bcache b v
            some { s with
              world := { s.world with log := l, bcache := if pin then bpin c b else c }
              written := Function.update s.written p (insert b (s.written p))
              since := insert b s.since
              last := Function.update s.last b v }
      else none
    | .brelse p =>
      if p ∈ s.ops then
        match s.held p with
        | none => none
        | some b => some { s with
            world := { s.world with bcache := brelse s.world.bcache b }
            held := Function.update s.held p none }
      else none
    | .endOp p =>
      if p ∈ s.ops ∧ s.held p = none then
        match endOp s.world.log with
        | .error m => some { s with panic := some m }
        | .ok (l, doCommit) => some { s with
            world := { s.world with log := l }
            ops := s.ops.erase p
            stage := if doCommit then .start p else s.stage
            ended := s.written p :: s.ended }
      else none
    | .commit =>
      if s.stage = .idle then none
      else
        match (DiskProg.commitStage s.world.log s.stage s.world).final with
        | none => some { s with panic := some "bget: no buffers" }
        | some (st, w) => some (s.advance st w)

abbrev cacheMachine : Machine LogCache CacheEvent := ⟨cacheStep⟩

def cacheInit (start : BlockNo) (d : Disk) : LogCache where
  world := { reset d with log := { (reset d).log with start := start } }
  ops := ∅
  held := fun _ => none
  stage := .idle
  panic := none
  written := fun _ => ∅
  since := ∅
  ended := []
  last := d

namespace Stage

def pins (bs : List BlockNo) : Stage → List BlockNo
  | .installFrom _ tail | .installTo _ tail => bs.drop tail
  | .clear _ => []
  | _ => bs

def buffer (start : BlockNo) : Stage → Multiset BlockNo
  | .logFrom _ tail | .installTo _ tail => {logBlock start tail}
  | _ => 0

def copied (bs : List BlockNo) : Stage → Nat
  | .logTo _ tail | .logFrom _ tail => tail
  | .head _ => bs.length
  | _ => 0

def Within (bs : List BlockNo) : Stage → Prop
  | .logTo _ tail | .installFrom _ tail => tail ≤ bs.length
  | .logFrom _ tail | .installTo _ tail => tail < bs.length
  | .done _ => bs = []
  | _ => True

def Filling : Stage → Prop
  | .idle | .start _ | .logTo _ _ | .logFrom _ _ | .head _ => True
  | _ => False

end Stage

def holding : Option BlockNo → Multiset BlockNo
  | none => 0
  | some b => {b}

def heldRefs (ops : Finset Nat) (held : Nat → Option BlockNo) : Multiset BlockNo :=
  ∑ p ∈ ops, holding (held p)

/-- The operations and the in-memory log, with `bs` the blocks it lists. -/
structure LogOpen (s : LogCache) (bs : List BlockNo) : Prop where
  lists : s.world.log.lh.Lists bs
  nodup : bs.Nodup
  fits : bs.length ≤ logBlocks
  home : ∀ b ∈ bs, Home s.world.log.start b
  within : s.stage.Within bs
  outstanding : s.world.log.outstanding = s.ops.card
  committing : s.world.log.committing = 0 ↔ s.stage = .idle
  quiet : s.stage ≠ .idle → s.ops = ∅
  released : ∀ p ∉ s.ops, s.held p = none
  held_home : ∀ p b, s.held p = some b → Home s.world.log.start b

/-- The cache: every reference is a pin of the log or the buffer of an operation
or of `commit`, and only pinned blocks differ from the disk. -/
structure CacheHolds (s : LogCache) (a : Store) (bs : List BlockNo) : Prop where
  store : Represents a s.world.disk s.world.bcache
  refs : a.refs = ↑(s.stage.pins bs) + s.stage.buffer s.world.log.start + heldRefs s.ops s.held
  clean : ∀ b, b ∉ s.stage.pins bs → a.view b = a.disk b

structure LogHistory (s : LogCache) (a : Store) (bs : List BlockNo) : Prop where
  since : (∀ p, s.stage ≠ .done p) → s.since = bs.toFinset
  written : ∀ p ∈ s.ops, s.written p ⊆ s.since
  ended : ∀ w ∈ s.ended, w ⊆ s.since
  view : s.stage.Filling → ∀ b ∈ bs, a.view b = s.last b
  copied : ∀ i (_ : i < bs.length), i < s.stage.copied bs →
    a.disk (logBlock s.world.log.start i) = s.last bs[i]

structure CacheInv (s : LogCache) (a : Store) (bs : List BlockNo) : Prop where
  log : LogOpen s bs
  cache : CacheHolds s a bs
  history : LogHistory s a bs

theorem cacheInv_init (start : BlockNo) (d : Disk) : CacheInv (cacheInit start d) ⟨d, d, 0⟩ [] where
  log := ⟨LogHeader.lists_nil.mpr rfl, List.nodup_nil, by simp, by simp, trivial, rfl,
    by simp [cacheInit, reset], by simp [cacheInit], by simp [cacheInit], by simp [cacheInit]⟩
  cache := ⟨represents_binit d, by simp [cacheInit, heldRefs, Stage.pins, Stage.buffer],
    fun _ _ => rfl⟩
  history := ⟨by simp [cacheInit], by simp [cacheInit], by simp [cacheInit], by simp, by simp⟩

section Steps

variable {s t : LogCache} {a : Store} {bs : List BlockNo} {p : Nat} {b : BlockNo}

theorem LogOpen.idle (h : LogOpen s bs) (hp : p ∈ s.ops) : s.stage = .idle := by
  by_contra hn
  simp [h.quiet hn] at hp

theorem LogOpen.one_le_outstanding (h : LogOpen s bs) (hp : p ∈ s.ops) :
    1 ≤ s.world.log.outstanding := by
  have hpos : 0 < s.ops.card := Finset.card_pos.mpr ⟨p, hp⟩
  rw [h.outstanding]
  omega

theorem heldRefs_update {ops : Finset Nat} (hp : p ∈ ops) (held : Nat → Option BlockNo)
    (o : Option BlockNo) :
    heldRefs ops (update held p o) + holding (held p) = heldRefs ops held + holding o := by
  have hsame : ∑ q ∈ ops.erase p, holding (update held p o q) =
      ∑ q ∈ ops.erase p, holding (held q) :=
    Finset.sum_congr rfl (fun q hq => by
      rw [update_of_ne (Finset.ne_of_mem_erase hq)])
  rw [heldRefs, heldRefs, ← Finset.add_sum_erase ops _ hp,
    ← Finset.add_sum_erase ops (fun q => holding (held q)) hp, hsame, update_self]
  abel

theorem mem_heldRefs {ops : Finset Nat} {held : Nat → Option BlockNo} :
    b ∈ heldRefs ops held ↔ ∃ p ∈ ops, held p = some b := by
  rw [heldRefs, Multiset.mem_sum]
  refine exists_congr (fun p => and_congr_right (fun _ => ?_))
  cases held p <;> simp [holding, eq_comm]

theorem CacheInv.beginOp (h : CacheInv s a bs) (hp : p ∉ s.ops) {l : Log}
    (hl : beginOp s.world.log = some l) :
    CacheInv { s with
      world := { s.world with log := l }
      ops := insert p s.ops
      written := update s.written p ∅ } a bs := by
  obtain ⟨hc, -, rfl⟩ := beginOp_eq_some hl
  have hidle := h.log.committing.mp hc
  have hcard : (insert p s.ops).card = s.ops.card + 1 := Finset.card_insert_of_notMem hp
  have hout : s.world.log.outstanding + 1 = ((insert p s.ops).card : Int) := by
    rw [hcard, h.log.outstanding]
    push_cast
    rfl
  have hrefs : heldRefs (insert p s.ops) s.held = heldRefs s.ops s.held := by
    rw [heldRefs, Finset.sum_insert hp, h.log.released p hp]
    exact zero_add _
  have hwritten : ∀ q ∈ insert p s.ops, update s.written p ∅ q ⊆ s.since := by
    intro q hq
    by_cases hqp : q = p
    · simp [hqp]
    · rw [update_of_ne hqp]
      exact h.history.written q (Finset.mem_of_mem_insert_of_ne hq hqp)
  exact ⟨⟨h.log.lists, h.log.nodup, h.log.fits, h.log.home, h.log.within, hout, h.log.committing,
      fun hn => absurd hidle hn, fun q hq => h.log.released q (by simp_all), h.log.held_home⟩,
    ⟨h.cache.store, h.cache.refs.trans (by rw [hrefs]), h.cache.clean⟩,
    ⟨h.history.since, hwritten, h.history.ended, h.history.view, h.history.copied⟩⟩

theorem LogOpen.setHeld (h : LogOpen s bs) (hp : p ∈ s.ops) {o : Option BlockNo}
    (ho : ∀ b, o = some b → Home s.world.log.start b) (c : Bcache) :
    LogOpen { s with
      world := { s.world with bcache := c }
      held := update s.held p o } bs := by
  have hreleased : ∀ q ∉ s.ops, update s.held p o q = none := by
    intro q hq
    have hqp : q ≠ p := fun he => hq (he ▸ hp)
    rw [update_of_ne hqp]
    exact h.released q hq
  have hhomes : ∀ q b, update s.held p o q = some b → Home s.world.log.start b := by
    intro q b hq
    by_cases hqp : q = p
    · rw [hqp, update_self] at hq
      exact ho b hq
    · rw [update_of_ne hqp] at hq
      exact h.held_home q b hq
  exact ⟨h.lists, h.nodup, h.fits, h.home, h.within, h.outstanding, h.committing, h.quiet,
    hreleased, hhomes⟩

theorem CacheInv.bread (h : CacheInv s a bs) (hp : p ∈ s.ops) (hheld : s.held p = none)
    (hhome : Home s.world.log.start b) {c : Bcache}
    (hc : bread s.world.disk s.world.bcache b = .ok c) :
    CacheInv { s with
      world := { s.world with bcache := c }
      held := update s.held p (some b) } (a.hold b) bs := by
  have hupd := heldRefs_update hp s.held (some b)
  rw [hheld, holding, add_zero] at hupd
  have hrefs : (a.hold b).refs = ↑(s.stage.pins bs) + s.stage.buffer s.world.log.start +
      heldRefs s.ops (update s.held p (some b)) := by
    rw [hupd, holding, Store.hold, h.cache.refs, ← add_assoc, ← Multiset.singleton_add]
    abel_nf
  exact ⟨h.log.setHeld hp (by simpa using hhome) c, ⟨h.cache.store.bread hc, hrefs, h.cache.clean⟩,
    ⟨h.history.since, h.history.written, h.history.ended, h.history.view, h.history.copied⟩⟩

theorem CacheInv.brelse (h : CacheInv s a bs) (hp : p ∈ s.ops) (hheld : s.held p = some b) :
    CacheInv { s with
      world := { s.world with bcache := brelse s.world.bcache b }
      held := update s.held p none } (a.drop b) bs := by
  have hmem : b ∈ heldRefs s.ops s.held := mem_heldRefs.mpr ⟨p, hp, hheld⟩
  have hin : b ∈ a.refs := h.cache.refs ▸ Multiset.mem_add.mpr (.inr hmem)
  have hupd := heldRefs_update hp s.held none
  rw [hheld, holding, holding, add_zero] at hupd
  have hrefs : (a.drop b).refs = ↑(s.stage.pins bs) + s.stage.buffer s.world.log.start +
      heldRefs s.ops (update s.held p none) := by
    have hcons : a.refs = b ::ₘ (↑(s.stage.pins bs) + s.stage.buffer s.world.log.start +
        heldRefs s.ops (update s.held p none)) := by
      rw [h.cache.refs, ← hupd, ← Multiset.singleton_add]
      abel
    simp only [Store.drop, hcons, Multiset.erase_cons_head]
  have hlast : b ∉ a.refs.erase b → a.view b = a.disk b := by
    intro hn
    refine h.cache.clean b (fun hpin => hn ?_)
    have hle : b ∈ (a.drop b).refs := by
      rw [hrefs]
      exact Multiset.mem_add.mpr (.inl (Multiset.mem_add.mpr (.inl hpin)))
    exact hle
  exact ⟨h.log.setHeld hp (by simp) _, ⟨h.cache.store.brelse hin hlast, hrefs, h.cache.clean⟩,
    ⟨h.history.since, h.history.written, h.history.ended, h.history.view, h.history.copied⟩⟩

theorem LogHistory.write (h : LogHistory s a bs) (hidle : s.stage = .idle) {a' : Store}
    {bs' : List BlockNo} {w : World} {v : Block} (hbs : bs'.toFinset = insert b bs.toFinset)
    (hview : a'.view = update a.view b v) :
    LogHistory { s with
      world := w
      written := update s.written p (insert b (s.written p))
      since := insert b s.since
      last := update s.last b v } a' bs' := by
  have hsince := h.since (by simp [hidle])
  have hmem : ∀ b' ∈ bs', b' = b ∨ b' ∈ bs := by
    intro b' hb'
    have hin : b' ∈ bs'.toFinset := mem_toFinset.mpr hb'
    rw [hbs] at hin
    simpa using hin
  have hwritten : ∀ q ∈ s.ops,
      update s.written p (insert b (s.written p)) q ⊆ insert b s.since := by
    intro q hq
    rw [update_apply]
    split_ifs with hqp
    · subst hqp
      exact Finset.insert_subset_insert b (h.written q hq)
    · exact (h.written q hq).trans (Finset.subset_insert b _)
  have hlast : ∀ b' ∈ bs', a'.view b' = update s.last b v b' := by
    intro b' hb'
    rw [hview]
    by_cases hbb : b' = b
    · rw [hbb, update_self, update_self]
    · rw [update_of_ne hbb, update_of_ne hbb]
      exact h.view (by rw [hidle]; trivial) b' ((hmem b' hb').resolve_left hbb)
  refine ⟨fun _ => by rw [hbs, ← hsince], hwritten, fun w' hw' => ?_, fun _ => hlast, ?_⟩
  · exact (h.ended w' hw').trans (Finset.subset_insert b _)
  · intro i _ hi
    simp [hidle, Stage.copied] at hi

theorem CacheInv.write (h : CacheInv s a bs) (hp : p ∈ s.ops) (hheld : s.held p = some b)
    {l : Log} {pin : Bool} (hl : logWrite s.world.log b = .ok (l, pin)) (v : Block) :
    ∃ a' bs', CacheInv { s with
      world := { s.world with
        log := l
        bcache := if pin then bpin (setData s.world.bcache b v) b
          else setData s.world.bcache b v }
      written := update s.written p (insert b (s.written p))
      since := insert b s.since
      last := update s.last b v } a' bs' := by
  have hidle := h.log.idle hp
  have hpins : ∀ bs', s.stage.pins bs' = bs' := fun bs' => by rw [hidle]; rfl
  have hn : s.world.log.lh.n = bs.length := h.log.lists.1
  have hlt : s.world.log.lh.n < logBlocks := by
    by_contra hfull
    rw [logWrite_full b (by omega)] at hl
    simp at hl
  have hin : b ∈ a.refs := h.cache.refs ▸
    Multiset.mem_add.mpr (.inr (mem_heldRefs.mpr ⟨p, hp, hheld⟩))
  have hset := h.cache.store.setData hin v
  have hoff : ∀ b', b' ≠ b → b' ∉ bs → (a.set b v).view b' = a.disk b' := by
    intro b' hne hb'
    simp only [Store.set, update_of_ne hne]
    exact h.cache.clean b' (by rwa [hpins])
  rcases logWrite_cases (b := b) (by omega) hlt (h.log.one_le_outstanding hp) with
    ⟨hlog, hw⟩ | ⟨hlog, hw⟩
  · rw [hw] at hl
    obtain ⟨rfl, rfl⟩ := Prod.mk.inj (Except.ok.inj hl)
    have hb : b ∈ bs := (h.log.lists.logged b).mp hlog
    refine ⟨a.set b v, bs, ?_, ⟨hset, h.cache.refs, fun b' hb' => ?_⟩,
      h.history.write hidle (by simp [hb]) rfl⟩
    · exact ⟨h.log.lists, h.log.nodup, h.log.fits, h.log.home, h.log.within, h.log.outstanding,
        h.log.committing, h.log.quiet, h.log.released, h.log.held_home⟩
    · rw [hpins] at hb'
      exact hoff b' (fun he => hb' (he ▸ hb)) hb'
  · rw [hw] at hl
    obtain ⟨rfl, rfl⟩ := Prod.mk.inj (Except.ok.inj hl)
    have hb : b ∉ bs := fun hm => hlog ((h.log.lists.logged b).mpr hm)
    have hrefs : ((a.set b v).hold b).refs = ↑(s.stage.pins (bs ++ [b])) +
        s.stage.buffer s.world.log.start + heldRefs s.ops s.held := by
      have hr := h.cache.refs
      rw [hpins] at hr ⊢
      simp only [Store.hold, Store.set, hr, ← Multiset.coe_add, ← Multiset.singleton_add,
        Multiset.coe_singleton]
      abel
    refine ⟨(a.set b v).hold b, bs ++ [b], ?_, ⟨hset.bpin hin, hrefs, fun b' hb' => ?_⟩,
      h.history.write hidle (by ext x; simp) rfl⟩
    · refine ⟨h.log.lists.snoc b, ?_, by simp; omega, ?_, by rw [hidle]; trivial,
        h.log.outstanding, h.log.committing, h.log.quiet, h.log.released, h.log.held_home⟩
      · exact nodup_append.mpr ⟨h.log.nodup, nodup_singleton b, by
          intro x hx y hy
          rw [mem_singleton] at hy
          exact fun he => hb (hy ▸ he ▸ hx)⟩
      · intro b' hb'
        rcases mem_append.mp hb' with hb' | hb'
        · exact h.log.home b' hb'
        · rw [mem_singleton.mp hb']
          exact h.log.held_home p b hheld
    · rw [hpins, mem_append, not_or, mem_singleton] at hb'
      exact hoff b' hb'.2 hb'.1

theorem CacheInv.endOp (h : CacheInv s a bs) (hp : p ∈ s.ops) (hheld : s.held p = none) {l : Log}
    {doCommit : Bool} (hl : endOp s.world.log = .ok (l, doCommit)) :
    CacheInv { s with
      world := { s.world with log := l }
      ops := s.ops.erase p
      stage := if doCommit then .start p else s.stage
      ended := s.written p :: s.ended } a bs := by
  have hidle := h.log.idle hp
  have hcard : (s.ops.erase p).card + 1 = s.ops.card := Finset.card_erase_add_one hp
  have hout := h.log.outstanding
  have hsince := h.history.since (by simp [hidle])
  have hreleased : ∀ q ∉ s.ops.erase p, s.held q = none := by
    intro q hq
    by_cases hqp : q = p
    · rw [hqp, hheld]
    · exact h.log.released q (fun hin => hq (Finset.mem_erase.mpr ⟨hqp, hin⟩))
  have hrefs : heldRefs (s.ops.erase p) s.held = heldRefs s.ops s.held := by
    rw [heldRefs, heldRefs, ← Finset.add_sum_erase s.ops _ hp, hheld, holding, zero_add]
  have hpins : a.refs = ↑bs + 0 + heldRefs (s.ops.erase p) s.held := by
    have hr := h.cache.refs
    rw [hidle] at hr
    rw [hrefs]
    exact hr
  have hclean : ∀ b, b ∉ bs → a.view b = a.disk b := by
    have hc := h.cache.clean
    rw [hidle] at hc
    exact hc
  have hview := h.history.view (by rw [hidle]; trivial)
  have hended : ∀ w ∈ s.written p :: s.ended, w ⊆ s.since :=
    forall_mem_cons.mpr ⟨h.history.written p hp, h.history.ended⟩
  have hwritten : ∀ q ∈ s.ops.erase p, s.written q ⊆ s.since := fun q hq =>
    h.history.written q (Finset.mem_of_mem_erase hq)
  rw [endOp_eq (h.log.committing.mpr hidle)] at hl
  split at hl
  · obtain ⟨rfl, rfl⟩ := Prod.mk.inj (Except.ok.inj hl)
    have hnone : s.ops.erase p = ∅ := Finset.card_eq_zero.mp (by omega)
    refine ⟨⟨h.log.lists, h.log.nodup, h.log.fits, h.log.home, trivial, by dsimp only; omega,
        by simp, fun _ => hnone, hreleased, h.log.held_home⟩, ⟨h.cache.store, hpins, hclean⟩,
      ⟨fun _ => hsince, hwritten, hended, fun _ => hview, ?_⟩⟩
    intro i _ hi
    simp [Stage.copied] at hi
  · obtain ⟨rfl, rfl⟩ := Prod.mk.inj (Except.ok.inj hl)
    simp only [Bool.false_eq_true, if_false]
    rw [hidle]
    refine ⟨⟨h.log.lists, h.log.nodup, h.log.fits, h.log.home, trivial, by dsimp only; omega,
        by simpa [hidle] using h.log.committing, by simp, hreleased, h.log.held_home⟩,
      ⟨h.cache.store, hpins, hclean⟩, ⟨fun _ => hsince, hwritten, hended, fun _ => hview, ?_⟩⟩
    intro i _ hi
    simp [Stage.copied] at hi

end Steps

end Xv6
