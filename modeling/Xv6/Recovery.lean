import Xv6.LogDisk

/-! Crash atomicity of the log. Wherever a transaction is stopped, the disk
leads recovery to the home blocks before it or to those after it, and a recovery
that is itself stopped leaves such a disk again. -/

namespace Xv6

open Prog DiskProg Function List Store

/-- Home blocks and their new contents, no more than the log has room for. -/
structure Txn (start : BlockNo) where
  writes : Tx
  distinct : (writes.map Prod.fst).Nodup
  fits : writes.length ≤ logBlocks
  home : ∀ b ∈ writes.map Prod.fst, Home start b

def applyTx (t : Tx) (d : Disk) : Disk := t.foldl (fun d p => Function.update d p.1 p.2) d

def applyAll {start : BlockNo} (ts : List (Txn start)) (d : Disk) : Disk :=
  ts.foldl (fun d t => applyTx t.writes d) d

structure Mounted (start : BlockNo) (R : Disk) (w : World) : Prop where
  cache : ∃ a : Store, a.refs = 0 ∧ Represents a w.disk w.bcache
  log_start : w.log.start = start
  outstanding : w.log.outstanding = 0
  committing : w.log.committing = 0
  lh_n : w.log.lh.n = 0
  clear : Clear start R w.disk

section Loops

variable {H : Prop} {C : Disk → Prop} {a : Store} {l : Log} {bs : List BlockNo} {R R' : Disk}

theorem card_refs_lt {k : Nat} (hfits : bs.length ≤ logBlocks) (hH : bs.length = logBlocks → H)
    (h : nbuf ≤ (↑(bs.drop k) : Multiset BlockNo).toFinset.card) : H := by
  refine hH (le_antisymm hfits ?_)
  have hle := Multiset.toFinset_card_le (↑(bs.drop k) : Multiset BlockNo)
  rw [Multiset.coe_card, length_drop] at hle
  have hn : nbuf = logBlocks := rfl
  omega

def pins (recovering : Bool) (bs : List BlockNo) (k : Nat) : Multiset BlockNo :=
  if recovering then 0 else ↑(bs.drop k)

theorem home_of_mem_pins {recovering : Bool} {start b : BlockNo} {k : Nat}
    (hhome : ∀ b ∈ bs, Home start b) (h : b ∈ pins recovering bs k) : Home start b := by
  cases recovering with
  | true => simp [pins] at h
  | false => exact hhome b (mem_of_mem_drop (by simpa [pins] using h))

theorem pins_round {k : Nat} (hk : k < bs.length) :
    (pins false bs k).erase bs[k] = pins false bs (k + 1) := by
  simp only [pins, Bool.false_eq_true, if_false, drop_eq_getElem_cons hk]
  rw [Multiset.coe_erase, erase_cons_head]

theorem installTrans_spec {recovering : Bool} (hl : l.lh.Lists bs)
    (h : Installing l.start bs R 0 a.disk) (hrefs : a.refs = pins recovering bs 0)
    (hH : recovering = false → bs.length = logBlocks → H)
    (hC : ∀ d, Recoverable l.start R d → C d) :
    Spec H (At a l) (installTrans recovering)
      (fun _ w => ∃ a' : Store, a'.refs = pins recovering bs bs.length ∧
        Installing l.start bs R bs.length a'.disk ∧ At a' l w) C := by
  have hn : l.lh.n.toNat = bs.length := by rw [hl.1, Int.toNat_natCast]
  refine getLog_bind ?_
  rw [hn]
  refine (Spec.loop (I := fun k w => ∃ a' : Store, a'.refs = pins recovering bs k ∧
    Installing l.start bs R k a'.disk ∧ At a' l w) (fun k hk => ?_)).conseq id
    (fun w hw => ⟨a, hrefs, h, hw⟩) (fun _ _ => id) (fun _ => id)
  refine Spec.of_forall (fun a' => Spec.of_and (fun hrefs' => Spec.of_and (fun hinst => ?_)))
  have hhome : Home l.start bs[k] := hinst.home _ (getElem_mem hk)
  have hlog : logBlock l.start k ∉ a'.refs := fun hm =>
    (home_of_mem_pins hinst.home (hrefs' ▸ hm)).ne_logBlock (lt_of_lt_of_le hk hinst.fits) rfl
  have hpin : recovering = false → bs[k] ∈ a'.refs := by
    rintro rfl
    rw [hrefs', pins, if_neg (by decide), Multiset.mem_coe, drop_eq_getElem_cons hk]
    exact mem_cons_self
  have hfull : nbuf ≤ a'.refs.toFinset.card → H := by
    intro hle
    cases recovering with
    | true => simp [hrefs', pins, nbuf, maxOpBlocks] at hle
    | false => exact card_refs_lt hinst.fits (hH rfl) (hrefs' ▸ hle)
  rw [hl.2 k hk]
  refine (installTrans_round (hhome.ne_logBlock (lt_of_lt_of_le hk hinst.fits)).symm hlog hpin
    hfull (fun hn hle => ?_) (hC _ hinst.recoverable)).post
    (fun _ w hw => ⟨_, ?_, ?_, hw⟩)
  · cases recovering with
    | true => simp [hrefs', pins, hold, nbuf, maxOpBlocks] at hle
    | false => exact absurd (hpin rfl) hn
  · cases recovering with
    | true => simp [put, hrefs', pins]
    | false => simpa [Store.put, Store.drop, hrefs'] using pins_round hk
  · have hround := hinst.round hk
    split_ifs
    · exact hround
    · exact hround

/-- The cache has the new contents `R'` of the blocks `bs`, the home blocks have
the old ones, and the first `k` blocks of the log have been written. -/
structure Logging (start : BlockNo) (bs : List BlockNo) (R R' : Disk) (k : Nat) (a : Store) :
    Prop where
  refs : a.refs = ↑bs
  clear : Clear start R a.disk
  view : ∀ b, Home start b → a.view b = R' b
  logged : ∀ i (_ : i < bs.length), i < k → a.disk (logBlock start i) = R' bs[i]

theorem Logging.round {start : BlockNo} {k : Nat} (h : Logging start bs R R' k a)
    (hfits : bs.length ≤ logBlocks) (hhome : ∀ b ∈ bs, Home start b) (hk : k < bs.length) :
    Logging start bs R R' (k + 1) (a.put (logBlock start k) (a.view bs[k])) := by
  have hklt : k < logBlocks := lt_of_lt_of_le hk hfits
  have hclear : Clear start R (update a.disk (logBlock start k) (a.view bs[k])) :=
    h.clear.write (logBlock_ne_start hklt) (fun hh => hh.ne_logBlock hklt rfl) _
  have hview : ∀ b, Home start b → (a.put (logBlock start k) (a.view bs[k])).view b = R' b := by
    intro b hb
    simp only [put, update_of_ne (hb.ne_logBlock hklt)]
    exact h.view b hb
  have hlogged : ∀ i (_ : i < bs.length), i < k + 1 →
      (a.put (logBlock start k) (a.view bs[k])).disk (logBlock start i) = R' bs[i] := by
    intro i hi hik
    by_cases hki : i = k
    · subst hki
      simp only [put, update_self]
      exact h.view _ (hhome _ (getElem_mem hi))
    · have hne : logBlock start i ≠ logBlock start k := fun he =>
        hki (logBlock_inj (lt_of_lt_of_le hi hfits) hklt he)
      simp only [put, update_of_ne hne]
      exact h.logged i hi (by omega)
  exact ⟨h.refs, hclear, hview, hlogged⟩

theorem writeLog_spec (hl : l.lh.Lists bs) (hfits : bs.length ≤ logBlocks)
    (hhome : ∀ b ∈ bs, Home l.start b) (h : Logging l.start bs R R' 0 a)
    (hH : bs.length = logBlocks → H) (hC : ∀ d, Clear l.start R d → C d) :
    Spec H (At a l) writeLog
      (fun _ w => ∃ a', Logging l.start bs R R' bs.length a' ∧ At a' l w) C := by
  have hn : l.lh.n.toNat = bs.length := by rw [hl.1, Int.toNat_natCast]
  refine getLog_bind ?_
  rw [hn]
  refine (Spec.loop (I := fun k w => ∃ a', Logging l.start bs R R' k a' ∧ At a' l w)
    (fun k hk => ?_)).conseq id (fun w hw => ⟨a, h, hw⟩) (fun _ _ => id) (fun _ => id)
  refine Spec.of_forall (fun a' => Spec.of_and (fun hlog => ?_))
  have hsrc : bs[k] ∈ a'.refs := by
    rw [hlog.refs]
    exact getElem_mem hk
  rw [hl.2 k hk]
  refine (writeLog_round hsrc (fun _ hle => ?_) (hC _ hlog.clear)).post
    (fun _ w hw => ⟨_, hlog.round hfits hhome hk, hw⟩)
  rw [hlog.refs] at hle
  exact card_refs_lt (k := 0) hfits hH hle

def Settled (l : Log) (R : Disk) (w : World) : Prop :=
  ∃ (a : Store) (lh : LogHeader), (a.refs = 0 ∧ lh.n = 0 ∧ Clear l.start R a.disk) ∧
    At a { l with lh := lh } w

theorem clear_spec (hrefs : a.refs = 0) (h : Installing l.start bs R bs.length a.disk)
    (hC : ∀ d, Recoverable l.start R d → C d) :
    Spec H (At a l) (do clearHead; writeHead) (fun _ => Settled l R) C := by
  refine (setLog_spec _).bind (fun _ => ?_)
  refine (writeHead_spec (by simp [hrefs]) (fun hle => ?_) (hC _ h.recoverable)).post
    (fun _ w hw => ⟨_, { l.lh with n := 0 }, ?_, hw⟩)
  · simp [hrefs, nbuf, maxOpBlocks] at hle
  · exact ⟨hrefs, rfl, h.clear rfl _⟩

theorem recoverFromLog_spec (hrefs : a.refs = 0) (h : Recoverable l.start R a.disk) :
    Spec H (At a l) recoverFromLog (fun _ => Settled l R) (Recoverable l.start R) := by
  obtain ⟨bs, hinst⟩ := id h
  refine (readHead_spec (by simp [hrefs]) (fun hle => ?_) h).bind (fun _ => ?_)
  · simp [hrefs, nbuf, maxOpBlocks] at hle
  · refine (installTrans_spec (by exact hinst.lists.take l.lh) (by exact hinst) hrefs
      (by simp) (fun _ => id)).bind
      (fun _ => Spec.of_forall (fun a' => Spec.of_and (fun hrefs' =>
        Spec.of_and (fun hdone => ?_))))
    exact clear_spec hrefs' hdone (fun _ => id)

theorem commit_spec (hl : l.lh.Lists bs) (hfits : bs.length ≤ logBlocks)
    (hhome : ∀ b ∈ bs, Home l.start b) (h : Logging l.start bs R R' 0 a)
    (hH : bs.length = logBlocks → H)
    (hC : ∀ d, Recoverable l.start R d ∨ Recoverable l.start R' d → C d) :
    Spec H (At a l) commit (fun _ => Settled l R') C := by
  have hstart : ∀ {a' : Store}, a'.refs = ↑bs → l.start ∉ a'.refs := fun hrefs hm =>
    (hhome _ (by rw [hrefs] at hm; exact hm)).ne_start rfl
  have hfull : ∀ {a' : Store}, a'.refs = ↑bs → nbuf ≤ a'.refs.toFinset.card → H :=
    fun hrefs hle => card_refs_lt (k := 0) hfits hH (by rw [hrefs] at hle; exact hle)
  refine getLog_bind ?_
  split_ifs with hpos
  · refine (writeLog_spec hl hfits hhome h hH (fun d hd => hC d (.inl hd.recoverable))).bind
      (fun _ => Spec.of_forall (fun a₁ => Spec.of_and (fun hlog => Spec.assume (fun w hw => ?_))))
    -- off the logged blocks the two contents agree, because the cache is clean there
    have hR : ∀ b, Home l.start b → b ∉ bs → R b = R' b := fun b hb hn => by
      rw [← hlog.clear.home b hb, ← hlog.view b hb]
      exact (hw.1.clean b (by rw [hlog.refs]; exact hn)).symm
    have hcommit := hlog.clear.commit hl hfits hhome (fun i hi => hlog.logged i hi hi) hR
    refine (writeHead_spec (hstart hlog.refs) (hfull hlog.refs)
      (hC _ (.inl hlog.clear.recoverable))).bind (fun _ => ?_)
    refine (installTrans_spec hl (by exact hcommit _) (by exact hlog.refs) (fun _ => hH)
      (fun d hd => hC d (.inr hd))).bind (fun _ => Spec.of_forall (fun a₂ =>
      Spec.of_and (fun hrefs => Spec.of_and (fun hinst => ?_))))
    exact clear_spec (by simpa [pins] using hrefs) hinst (fun d hd => hC d (.inr hd))
  · have hnil : bs = [] := by
      have hn := hl.1
      exact length_eq_zero_iff.mp (by omega)
    subst hnil
    refine Spec.pure (fun w hw => ⟨a, l.lh, ⟨h.refs, hl.1, h.clear.empty, fun b hb => ?_⟩, hw⟩)
    rw [← h.view b hb]
    exact (hw.1.clean b (by rw [h.refs]; simp)).symm

end Loops

theorem applyTx_snoc (t : Tx) (p : BlockNo × Block) (d : Disk) :
    applyTx (t ++ [p]) d = update (applyTx t d) p.1 p.2 := by
  simp [applyTx]

theorem applyAll_snoc {start : BlockNo} (ts : List (Txn start)) (t : Txn start) (d : Disk) :
    applyAll (ts ++ [t]) d = applyTx t.writes (applyAll ts d) := by
  simp [applyAll]

section Operations

variable {H : Prop} {C : Disk → Prop} {a : Store} {l : Log} {R : Disk} {start : BlockNo}

theorem writeBlocks_spec (t u : Tx) (hnd : ((u ++ t).map Prod.fst).Nodup)
    (hfits : (u ++ t).length ≤ logBlocks) (hl : l.lh.Lists (u.map Prod.fst))
    (hop : l.outstanding = 1) (h : Logging start (u.map Prod.fst) R (applyTx u R) 0 a)
    (hC : ∀ d, Clear start R d → C d) :
    Spec H (At a l) (writeBlocks t)
      (fun _ w => ∃ (a' : Store) (lh' : LogHeader), (lh'.Lists ((u ++ t).map Prod.fst) ∧
        Logging start ((u ++ t).map Prod.fst) R (applyTx (u ++ t) R) 0 a') ∧
        At a' { l with lh := lh' } w) C := by
  induction t generalizing u a l with
  | nil =>
    rw [append_nil] at *
    exact Spec.pure (fun w hw => ⟨a, l.lh, ⟨hl, h⟩, hw⟩)
  | cons p t ih =>
    obtain ⟨b, v⟩ := p
    have hlen : u.length < logBlocks := by
      simp only [length_append, length_cons] at hfits
      omega
    have hnew : b ∉ u.map Prod.fst := by
      intro hm
      rw [map_append, nodup_append] at hnd
      exact hnd.2.2 b hm b (by simp) rfl
    have hassoc : u ++ (b, v) :: t = u ++ [(b, v)] ++ t := by simp
    have hn : l.lh.n = u.length := by simpa using hl.1
    have hwrite : logWrite l b = .ok ({ l with lh :=
        { n := l.lh.n + 1, block := update l.lh.block l.lh.n.toNat b } }, true) := by
      rcases logWrite_cases (l := l) (b := b) (by omega) (by omega) (by omega) with hw | hw
      · exact absurd ((hl.logged b).mp hw.1) hnew
      · exact hw.2
    have hfree : nbuf ≤ a.refs.toFinset.card → H := by
      intro hle
      rw [h.refs] at hle
      exact card_refs_lt (k := 0) (by simpa using hlen.le) (fun he => by simp at he; omega) hle
    have hrefs : ((a.set b v).hold b).refs = ↑((u ++ [(b, v)]).map Prod.fst) := by
      simp only [Store.hold, Store.set, h.refs, Multiset.cons_coe, map_append]
      exact Multiset.coe_eq_coe.mpr (perm_append_singleton _ _).symm
    have hview : ∀ b', Home start b' →
        ((a.set b v).hold b).view b' = applyTx (u ++ [(b, v)]) R b' := by
      intro b' hb'
      rw [applyTx_snoc]
      by_cases hbb : b' = b
      · simp [Store.hold, Store.set, hbb]
      · simp only [Store.hold, Store.set, update_of_ne hbb]
        exact h.view b' hb'
    rw [hassoc] at hnd hfits ⊢
    refine (writeBlock_spec hwrite hfree (hC _ h.clear) v).bind (fun _ => ?_)
    refine ih (u ++ [(b, v)]) hnd hfits ?_ hop ⟨hrefs, h.clear, hview, by simp⟩
    simpa using hl.snoc b

theorem Settled.mounted {w : World} (h : Settled l R w) (hop : l.outstanding = 0) :
    Mounted l.start R { w with log := { w.log with committing := 0 } } := by
  obtain ⟨a, lh, ⟨hrefs, hn, hclear⟩, hat⟩ := h
  have hstart : w.log.start = l.start := by rw [hat.2]
  have hout : w.log.outstanding = 0 := by simp only [hat.2, hop]
  have hlh : w.log.lh.n = 0 := by simp only [hat.2, hn]
  exact ⟨⟨a, hrefs, hat.1⟩, hstart, hout, rfl, hlh, hat.1.disk_eq ▸ hclear⟩

theorem Mounted.at {w : World} (h : Mounted start R w) :
    ∃ a : Store, Logging start [] R R 0 a ∧ At a w.log w := by
  obtain ⟨a, hrefs, ha⟩ := h.cache
  have hdisk : Clear start R a.disk := ha.disk_eq ▸ h.clear
  have hview : ∀ b, Home start b → a.view b = R b := by
    intro b hb
    rw [ha.clean b (by simp [hrefs]), hdisk.home b hb]
  exact ⟨a, ⟨hrefs, hdisk, hview, by simp⟩, ha, rfl⟩

/-- A transaction ends unless it fills the log: then no buffer is left to
`write_log`. -/
theorem transaction_spec (t : Txn start) :
    Spec (t.writes.length = logBlocks) (Mounted start R) (transaction t.writes)
      (fun _ => Mounted start (applyTx t.writes R))
      (fun d => Recoverable start R d ∨ Recoverable start (applyTx t.writes R) d) := by
  intro w hw
  obtain ⟨a, hlog, hat⟩ := hw.at
  obtain ⟨-, rfl, hout, hcom, hlh, -⟩ := hw
  refine Spec.bind (beginOp_spec (r := { w.log with outstanding := 1 }) ?_) (fun _ => ?_) w hat
  · simp [beginOp, hcom, hlh, hout, logBlocks, maxOpBlocks]
  · refine (writeBlocks_spec (l := { w.log with outstanding := 1 }) t.writes [] t.distinct t.fits
      (LogHeader.lists_nil.mpr hlh) rfl hlog (fun d hd => .inl hd.recoverable)).bind
      (fun _ => Spec.of_forall (fun a' => Spec.of_forall (fun lh' => Spec.of_and ?_)))
    rintro ⟨hl, hlog'⟩
    rw [nil_append] at hl hlog'
    have hlen : (t.writes.map Prod.fst).length = t.writes.length := length_map _
    refine (endOp_spec (r := { w.log with outstanding := 0, committing := 1, lh := lh' }) ?_
      (commit_spec hl (hlen ▸ t.fits) t.home hlog' (fun he => hlen ▸ he) (fun _ => id))).post ?_
    · simp [endOp, hcom]
    · rintro _ w' ⟨w₁, hset, rfl⟩
      exact hset.mounted rfl

theorem initlog_spec (start : BlockNo) (R : Disk) :
    Spec False (fun w => ∃ d, Recoverable start R d ∧ w = reset d) (initlog start)
      (fun _ => Mounted start R) (Recoverable start R) := by
  refine Spec.of_forall (fun d => Spec.of_and (fun hrec => ?_))
  rintro w rfl
  unfold initlog
  rw [if_neg (by decide)]
  refine Spec.bind (setLog_spec _) (fun _ => ?_) (reset d) ⟨represents_binit d, rfl⟩
  refine (recoverFromLog_spec rfl hrec).post (fun _ w' hset => ?_)
  have hcom : w'.log.committing = 0 := by
    obtain ⟨a, lh, -, hat⟩ := hset
    rw [hat.2]
    rfl
  have hm := hset.mounted rfl
  rwa [← hcom] at hm

theorem transactions_spec (ts : List (Txn start)) :
    Spec (∃ t ∈ ts, t.writes.length = logBlocks) (Mounted start R)
      (transactions (ts.map Txn.writes)) (fun _ => Mounted start (applyAll ts R))
      (fun _ => True) := by
  induction ts generalizing R with
  | nil => exact Spec.pure (fun _ h => h)
  | cons t ts ih =>
    refine ((transaction_spec t).conseq (fun h => ⟨t, by simp, h⟩) (fun _ => id) (fun _ _ => id)
      (fun _ _ => trivial)).bind (fun _ => ?_)
    refine ih.conseq ?_ (fun _ => id) (fun _ _ => id) (fun _ => id)
    rintro ⟨t', ht', he⟩
    exact ⟨t', mem_cons_of_mem t ht', he⟩

theorem transactions_return {w : World} (ts : List (Txn start)) (h : Mounted start R w)
    (hts : ∀ t ∈ ts, t.writes.length < logBlocks) :
    ∃ w', (transactions (ts.map Txn.writes) w).final = some ((), w') := by
  cases hf : (transactions (ts.map Txn.writes) w).final with
  | none =>
    obtain ⟨t, ht, he⟩ := (transactions_spec ts w h).2.2 hf
    exact absurd he (hts t ht).ne
  | some x => exact ⟨x.2, rfl⟩

end Operations

/-- After a crash that left `d`, recovery ends, and whenever it does, through
any number of crashes of its own, the log is empty and the home blocks are those of `R`. -/
def Restores (start : BlockNo) (R d : Disk) : Prop :=
  (∃ r, Recovers World.disk reset (initlog start) d r) ∧
    ∀ r, Recovers World.disk reset (initlog start) d r → Clear start R r

theorem Recoverable.restores {start : BlockNo} {R d : Disk} (h : Recoverable start R d) :
    Restores start R d := by
  have hspec := initlog_spec start R
  refine ⟨?_, fun r hr => ?_⟩
  · cases hf : (initlog start (reset d)).final with
    | none => exact absurd hf (fun hn => (hspec (reset d) ⟨d, h, rfl⟩).2.2 hn)
    | some x => exact ⟨_, Recovers.done hf⟩
  · exact hr.post (hspec.post (fun _ _ hm => hm.clear)) (fun _ => Clear.recoverable) h

/-- A crash after the transactions `done` have returned keeps them all; a crash
during the next one keeps them, and all or nothing of it. -/
theorem log_crash_atomic {start : BlockNo} {w₀ w : World} (h₀ : Mounted start w₀.disk w₀)
    {done : List (Txn start)}
    (hdone : (transactions (done.map Txn.writes) w₀).final = some ((), w)) :
    Restores start (applyAll done w₀.disk) w.disk ∧
      ∀ (t : Txn start) (d : Disk), StopsAt World.disk (transaction t.writes) w d →
        Restores start (applyAll done w₀.disk) d ∨
          Restores start (applyAll (done ++ [t]) w₀.disk) d := by
  have hw : Mounted start (applyAll done w₀.disk) w :=
    (transactions_spec done w₀ h₀).2.1 () w hdone
  refine ⟨hw.clear.recoverable.restores, fun t d hd => ?_⟩
  rw [applyAll_snoc]
  have hrec := (transaction_spec t).stopsAt hw (fun _ w' h => .inr h.clear.recoverable) hd
  exact hrec.imp Recoverable.restores Recoverable.restores

def blank : World where
  disk := fun _ _ => 0
  bcache := binit
  log := { start := 2, outstanding := 0, committing := 0, lh := { n := 0, block := fun _ => 0 } }

theorem mounted_blank : Mounted 2 blank.disk blank where
  cache := ⟨⟨_, _, 0⟩, rfl, represents_binit _⟩
  log_start := rfl
  outstanding := rfl
  committing := rfl
  lh_n := rfl
  clear := ⟨by simp [logHeader, LittleEndian.word, LittleEndian.byteAt, blank], fun _ _ => rfl⟩

def twoBlocks : Txn 2 where
  writes := [(40, fun _ => 1), (41, fun _ => 2)]
  distinct := by decide
  fits := by decide
  home := by
    intro b hb
    have hb : b = 40 ∨ b = 41 := by simpa using hb
    rcases hb with rfl | rfl
    · exact home_of_lt (by decide)
    · exact home_of_lt (by decide)

theorem log_crash_atomic_two_blocks :
    ∃ w, (transactions [twoBlocks.writes] blank).final = some ((), w) ∧
      Restores 2 (applyAll [twoBlocks] blank.disk) w.disk ∧
      ∀ (t : Txn 2) (d : Disk), StopsAt World.disk (transaction t.writes) w d →
        Restores 2 (applyAll [twoBlocks] blank.disk) d ∨
          Restores 2 (applyAll [twoBlocks, t] blank.disk) d := by
  obtain ⟨w, hw⟩ := transactions_return [twoBlocks] mounted_blank (by decide)
  exact ⟨w, hw, log_crash_atomic mounted_blank hw⟩

end Xv6
