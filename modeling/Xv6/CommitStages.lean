import Xv6.LogCache

/-! The stages of `commit` keep the invariant of the log and its cache; a stage
halts only when the logged blocks fill the cache. -/

namespace Xv6

open Prog DiskProg Function List Option Multiset Store

section Steps

variable {s t : LogCache} {a : Store} {bs : List BlockNo} {p : Nat} {b : BlockNo}

theorem LogCache.advance_eq {st : Stage} (hst : st ≠ .idle) (w : World) :
    s.advance st w = { s with world := w, stage := st } := by
  cases st <;> first | rfl | exact absurd rfl hst

theorem CacheInv.advance (h : CacheInv s a bs) (hs : s.stage ≠ .idle)
    (hdone : ∀ p, s.stage ≠ .done p) {st : Stage} (hst : st ≠ .idle) {w : World} {a' : Store}
    (hat : At a' s.world.log w) (hwithin : st.Within bs)
    (hrefs : a'.refs = ↑(st.pins bs) + st.buffer s.world.log.start)
    (hclean : ∀ b, b ∉ st.pins bs → a'.view b = a'.disk b)
    (hview : st.Filling → ∀ b ∈ bs, a'.view b = s.last b)
    (hcopied : ∀ i (_ : i < bs.length), i < st.copied bs →
      a'.disk (logBlock s.world.log.start i) = s.last bs[i]) :
    CacheInv (s.advance st w) a' bs := by
  obtain ⟨hrep, hlog⟩ := hat
  have hops := h.log.quiet hs
  have hcom : s.world.log.committing ≠ 0 := fun hc => hs (h.log.committing.mp hc)
  have hheld : heldRefs s.ops s.held = 0 := by
    rw [hops]
    rfl
  rw [LogCache.advance_eq hst]
  refine ⟨⟨?_, h.log.nodup, h.log.fits, ?_, hwithin, ?_, ?_, fun _ => hops, h.log.released, ?_⟩,
    ⟨hrep, ?_, hclean⟩,
    ⟨fun _ => h.history.since hdone, h.history.written, h.history.ended, hview, ?_⟩⟩
  · simpa only [hlog] using h.log.lists
  · simpa only [hlog] using h.log.home
  · simpa only [hlog] using h.log.outstanding
  · simp only [hlog]
    exact iff_of_false hcom hst
  · simpa only [hlog] using h.log.held_home
  · simp only [hlog, hheld, add_zero]
    exact hrefs
  · simpa only [hlog] using hcopied

theorem pins_card (hle : nbuf ≤ a.refs.toFinset.card)
    (hrefs : a.refs = ↑(s.stage.pins bs)) : nbuf ≤ bs.length := by
  have hcard := toFinset_card_le a.refs
  rw [hrefs, coe_card] at hcard
  have hpins : (s.stage.pins bs).length ≤ bs.length := by
    cases s.stage <;> simp [Stage.pins]
  rw [hrefs] at hle
  omega

theorem CacheInv.stage_refs (h : CacheInv s a bs) (hs : s.stage ≠ .idle) :
    a.refs = ↑(s.stage.pins bs) + s.stage.buffer s.world.log.start := by
  have hheld : heldRefs s.ops s.held = 0 := by
    rw [h.log.quiet hs]
    rfl
  rw [h.cache.refs, hheld, add_zero]

/-- What a stage has to establish; it halts only when the log fills the cache. -/
def StageSpec (s : LogCache) (a : Store) (bs : List BlockNo) : Prop :=
  Spec (nbuf ≤ bs.length) (At a s.world.log) (commitStage s.world.log s.stage)
    (fun st w => ∃ a' bs', CacheInv (s.advance st w) a' bs') (fun _ => True)

theorem CacheInv.start_spec (h : CacheInv s a bs) (hs : s.stage = .start p) : StageSpec s a bs := by
  have hrefs := h.stage_refs (by simp [hs])
  have hclean := h.cache.clean
  have hview := h.history.view (by rw [hs]; trivial)
  unfold StageSpec
  rw [hs] at hrefs hclean ⊢
  refine Spec.pure (fun w hat => ?_)
  split_ifs with hpos
  · exact ⟨a, bs, h.advance (by simp [hs]) (by simp [hs]) (by simp) hat (Nat.zero_le _) hrefs
      hclean (fun _ => hview) (by simp [Stage.copied])⟩
  · have hnil : bs = [] := by
      have hn := h.log.lists.1
      exact length_eq_zero_iff.mp (by omega)
    exact ⟨a, bs, h.advance (by simp [hs]) (by simp [hs]) (by simp) hat hnil hrefs hclean
      (fun hf => absurd hf not_false) (by simp [Stage.copied])⟩

theorem CacheInv.logTo_spec (h : CacheInv s a bs) {k : Nat} (hs : s.stage = .logTo p k) :
    StageSpec s a bs := by
  have hrefs := h.stage_refs (by simp [hs])
  have hclean := h.cache.clean
  have hview := h.history.view (by rw [hs]; trivial)
  have hcopied := h.history.copied
  have hk := h.log.within
  have hn := h.log.lists.1
  have hfull : nbuf ≤ a.refs.toFinset.card → nbuf ≤ bs.length := fun hle =>
    pins_card hle (by rw [hs] at hrefs ⊢; simpa [Stage.buffer] using hrefs)
  unfold StageSpec
  rw [hs] at hrefs hclean hcopied hk ⊢
  simp only [commitStage]
  split_ifs with hlt
  · refine (bread_spec (fun _ => hfull) trivial).bind (fun _ => Spec.pure (fun w hat => ?_))
    refine ⟨_, bs, h.advance (by simp [hs]) (by simp [hs]) (by simp) hat ?_ ?_ hclean
      (fun _ => hview) hcopied⟩
    · have hlen : k < bs.length := by omega
      exact hlen
    · simp only [hold, hrefs, Stage.pins, Stage.buffer, add_zero, ← singleton_add, add_comm]
  · have hle : k ≤ bs.length := hk
    have hlen : k = bs.length := by omega
    subst hlen
    exact Spec.pure (fun w hat => ⟨a, bs, h.advance (by simp [hs]) (by simp [hs]) (by simp) hat
      trivial hrefs hclean (fun _ => hview) hcopied⟩)

theorem CacheInv.logFrom_spec (h : CacheInv s a bs) {k : Nat} (hs : s.stage = .logFrom p k) :
    StageSpec s a bs := by
  have hrefs := h.stage_refs (by simp [hs])
  have hclean := h.cache.clean
  have hview := h.history.view (by rw [hs]; trivial)
  have hcopied := h.history.copied
  have hk := h.log.within
  unfold StageSpec
  rw [hs] at hrefs hclean hcopied hk ⊢
  have hk : k < bs.length := hk
  have hklt : k < logBlocks := lt_of_lt_of_le hk h.log.fits
  have hblock := h.log.lists.2 k hk
  generalize hdst : logBlock s.world.log.start k = dst
  have hrefs : a.refs = dst ::ₘ ↑bs := by
    rw [hrefs, ← hdst, ← singleton_add, add_comm]
    rfl
  have ha : (a.drop dst).hold dst = a := drop_hold (hrefs ▸ mem_cons_self dst _)
  have hbs : (a.drop dst).refs = ↑bs := by simp [Store.drop, hrefs]
  have hne : ∀ b ∈ bs, b ≠ dst := fun b hb => hdst ▸ (h.log.home b hb).ne_logBlock hklt
  simp only [commitStage, hblock, hdst]
  rw [← ha]
  refine (writeLog_copy (C := fun _ => True) (by rw [hbs]; exact getElem_mem hk) trivial).bind
    (fun _ => Spec.pure (fun w hat => ?_))
  refine ⟨_, bs, h.advance (by simp [hs]) (by simp [hs]) (by simp) hat ?_ ?_ (fun b hb => ?_)
    (fun _ b hb => ?_) (fun i hi hik => ?_)⟩
  · exact hk
  · simpa [put, Stage.pins, Stage.buffer] using hbs
  · by_cases hbd : b = dst
    · rw [hbd]
      exact put_clean _ dst _
    · simp only [put, update_of_ne hbd]
      exact hclean b hb
  · simp only [put, update_of_ne (hne b hb)]
    exact hview b hb
  · by_cases hik' : i = k
    · subst hik'
      simp only [put, hdst, update_self]
      exact hview _ (getElem_mem hk)
    · have hlog : logBlock s.world.log.start i ≠ dst := fun he =>
        hik' (logBlock_inj (lt_of_lt_of_le hi h.log.fits) hklt (he.trans hdst.symm))
      have hlt : i < k + 1 := hik
      simp only [put, update_of_ne hlog]
      exact hcopied i hi (by simp only [Stage.copied]; omega)

theorem CacheInv.head_spec (h : CacheInv s a bs) (hs : s.stage = .head p) : StageSpec s a bs := by
  have hrefs := h.stage_refs (by simp [hs])
  have hclean := h.cache.clean
  have hfull : nbuf ≤ a.refs.toFinset.card → nbuf ≤ bs.length := fun hle =>
    pins_card hle (by rw [hs] at hrefs ⊢; simpa [Stage.buffer] using hrefs)
  unfold StageSpec
  rw [hs] at hrefs hclean ⊢
  have hbs : a.refs = ↑bs := by simpa [Stage.pins, Stage.buffer] using hrefs
  have hstart : s.world.log.start ∉ a.refs := fun hm =>
    (h.log.home _ (by rw [hbs] at hm; exact hm)).ne_start rfl
  refine (writeHead_spec hstart hfull trivial).bind (fun _ => Spec.pure (fun w hat => ?_))
  refine ⟨_, bs, h.advance (by simp [hs]) (by simp [hs]) (by simp) hat (Nat.zero_le _) ?_
    (fun b hb => ?_) (fun hf => absurd hf not_false) (by simp [Stage.copied])⟩
  · simpa [put, Stage.pins, Stage.buffer] using hbs
  · by_cases hb' : b = s.world.log.start
    · rw [hb']
      exact put_clean _ _ _
    · simp only [put, update_of_ne hb']
      exact hclean b hb

theorem CacheInv.installFrom_spec (h : CacheInv s a bs) {k : Nat}
    (hs : s.stage = .installFrom p k) : StageSpec s a bs := by
  have hrefs := h.stage_refs (by simp [hs])
  have hclean := h.cache.clean
  have hk := h.log.within
  have hn := h.log.lists.1
  have hfull : nbuf ≤ a.refs.toFinset.card → nbuf ≤ bs.length := fun hle =>
    pins_card hle (by rw [hs] at hrefs ⊢; simpa [Stage.buffer] using hrefs)
  unfold StageSpec
  rw [hs] at hrefs hclean hk ⊢
  simp only [commitStage]
  split_ifs with hlt
  · refine (bread_spec (fun _ => hfull) trivial).bind (fun _ => Spec.pure (fun w hat => ?_))
    refine ⟨_, bs, h.advance (by simp [hs]) (by simp [hs]) (by simp) hat ?_ ?_ hclean
      (fun hf => absurd hf not_false) (by simp [Stage.copied])⟩
    · have hlen : k < bs.length := by omega
      exact hlen
    · simp only [hold, hrefs, Stage.pins, Stage.buffer, add_zero, ← singleton_add, add_comm]
  · have hle : k ≤ bs.length := hk
    have hlen : k = bs.length := by omega
    subst hlen
    simp only [Stage.pins, drop_length] at hrefs hclean
    exact Spec.pure (fun w hat => ⟨a, bs, h.advance (by simp [hs]) (by simp [hs]) (by simp) hat
      trivial hrefs hclean (fun hf => absurd hf not_false) (by simp [Stage.copied])⟩)

theorem CacheInv.installTo_spec (h : CacheInv s a bs) {k : Nat} (hs : s.stage = .installTo p k) :
    StageSpec s a bs := by
  have hrefs := h.stage_refs (by simp [hs])
  have hclean := h.cache.clean
  have hk := h.log.within
  unfold StageSpec
  rw [hs] at hrefs hclean hk ⊢
  have hk : k < bs.length := hk
  have hklt : k < logBlocks := lt_of_lt_of_le hk h.log.fits
  have hblock := h.log.lists.2 k hk
  have hdrop : bs.drop k = bs[k] :: bs.drop (k + 1) := drop_eq_getElem_cons hk
  generalize hlbuf : logBlock s.world.log.start k = lbuf
  have hrefs : a.refs = lbuf ::ₘ ↑(bs.drop k) := by
    rw [hrefs, ← hlbuf, ← singleton_add, add_comm]
    rfl
  have ha : (a.drop lbuf).hold lbuf = a :=
    Store.drop_hold (hrefs ▸ mem_cons_self lbuf _)
  have hpins : (a.drop lbuf).refs = ↑(bs.drop k) := by simp [Store.drop, hrefs]
  have hne : ∀ b ∈ bs, b ≠ lbuf := fun b hb => hlbuf ▸ (h.log.home b hb).ne_logBlock hklt
  have hlog : (a.drop lbuf).view lbuf = (a.drop lbuf).disk lbuf :=
    hclean lbuf (fun hm => hne lbuf (mem_of_mem_drop hm) rfl)
  simp only [commitStage, hblock, hlbuf]
  rw [← ha]
  refine (installTrans_copy (C := fun _ => True) (hne _ (getElem_mem hk)).symm hlog ?_ trivial).bind
    (fun _ => Spec.pure (fun w hat => ?_))
  · rw [hpins, hdrop]
    exact mem_cons_self
  refine ⟨_, bs, h.advance (by simp [hs]) (by simp [hs]) (by simp) hat ?_ ?_ (fun b hb => ?_)
    (fun hf => absurd hf not_false) (by simp [Stage.copied])⟩
  · exact hk
  · have hr : (((a.drop lbuf).put bs[k] ((a.drop lbuf).disk lbuf)).drop bs[k]).refs =
        (a.drop lbuf).refs.erase bs[k] := rfl
    rw [hr, hpins, hdrop, ← Multiset.cons_coe, Multiset.erase_cons_head]
    simp only [Stage.pins, Stage.buffer, add_zero]
  · by_cases hbk : b = bs[k]
    · rw [hbk]
      exact Store.put_clean _ _ _
    · simp only [Store.put, Store.drop, update_of_ne hbk]
      refine hclean b (fun hm => hb ?_)
      have hm : b ∈ bs.drop k := hm
      rw [hdrop] at hm
      exact (mem_cons.mp hm).resolve_left hbk

theorem CacheInv.clear_spec (h : CacheInv s a bs) (hs : s.stage = .clear p) : StageSpec s a bs := by
  have hrefs := h.stage_refs (by simp [hs])
  have hclean := h.cache.clean
  have hops := h.log.quiet (by simp [hs])
  have hcom : s.world.log.committing ≠ 0 := fun hc => by
    simpa [hs] using h.log.committing.mp hc
  unfold StageSpec
  rw [hs] at hrefs hclean ⊢
  have hzero : a.refs = 0 := by simpa [Stage.pins, Stage.buffer] using hrefs
  refine (setLog_spec _).bind (fun _ => ?_)
  refine (writeHead_spec (by simp [hzero]) (fun hle => ?_) trivial).bind
    (fun _ => Spec.pure (fun w hat => ?_))
  · simp [hzero, nbuf, maxOpBlocks] at hle
  · obtain ⟨hrep, hlog⟩ := hat
    refine ⟨_, [], ⟨LogHeader.lists_nil.mpr ?_, nodup_nil, by simp, by simp, rfl, ?_, ?_,
      fun _ => hops, h.log.released, ?_⟩, ⟨hrep, ?_, fun b _ => ?_⟩,
      ⟨fun hd => absurd rfl (hd p), h.history.written, h.history.ended,
        fun hf => absurd hf not_false, by simp⟩⟩
    · simp [LogCache.advance, hlog]
    · simpa [LogCache.advance, hlog] using h.log.outstanding
    · simpa [LogCache.advance, hlog] using hcom
    · simpa [LogCache.advance, hlog] using h.log.held_home
    · simp [LogCache.advance, put, hzero, Stage.pins, Stage.buffer, hops, heldRefs]
    · by_cases hb : b = s.world.log.start
      · rw [hb]
        exact put_clean _ _ _
      · simp only [put, update_of_ne hb]
        exact hclean b (by simp [Stage.pins])

theorem CacheInv.done_spec (h : CacheInv s a bs) (hs : s.stage = .done p) : StageSpec s a bs := by
  have hrefs := h.stage_refs (by simp [hs])
  have hclean := h.cache.clean
  have hnil := h.log.within
  have hops := h.log.quiet (by simp [hs])
  unfold StageSpec
  rw [hs] at hrefs hclean hnil ⊢
  have hnil : bs = [] := hnil
  subst hnil
  refine (setLog_spec _).bind (fun _ => Spec.pure ?_)
  rintro w ⟨hrep, hlog⟩
  refine ⟨a, [], ⟨?_, nodup_nil, by simp, by simp, trivial, ?_, ?_, fun hn => absurd rfl hn,
    h.log.released, ?_⟩, ⟨hrep, ?_, hclean⟩,
    ⟨fun _ => rfl, by simp [LogCache.advance, hops], by simp [LogCache.advance], by simp, by simp⟩⟩
  · simpa [LogCache.advance, hlog] using h.log.lists
  · simpa [LogCache.advance, hlog] using h.log.outstanding
  · simp [LogCache.advance, hlog]
  · simpa [LogCache.advance, hlog] using h.log.held_home
  · simpa [LogCache.advance, Stage.pins, Stage.buffer, hops, heldRefs] using hrefs

theorem CacheInv.stage_spec (h : CacheInv s a bs) (hs : s.stage ≠ .idle) : StageSpec s a bs := by
  cases hst : s.stage with
  | idle => exact absurd hst hs
  | start p => exact h.start_spec hst
  | logTo p k => exact h.logTo_spec hst
  | logFrom p k => exact h.logFrom_spec hst
  | head p => exact h.head_spec hst
  | installFrom p k => exact h.installFrom_spec hst
  | installTo p k => exact h.installTo_spec hst
  | clear p => exact h.clear_spec hst
  | done p => exact h.done_spec hst

theorem step_cacheInv {e : CacheEvent} (hst : cacheStep s e = some t) (h : CacheInv s a bs) :
    (∃ a' bs', CacheInv t a' bs') ∧ s.panic = none ∧ t.panic ≠ some "log.committing" := by
  have hp : s.panic = none := by
    by_contra hn
    simp [cacheStep, hn] at hst
  have hpanic : ∀ m, CacheInv { s with panic := m } a bs := fun m =>
    ⟨⟨h.log.lists, h.log.nodup, h.log.fits, h.log.home, h.log.within, h.log.outstanding,
      h.log.committing, h.log.quiet, h.log.released, h.log.held_home⟩,
    ⟨h.cache.store, h.cache.refs, h.cache.clean⟩,
    ⟨h.history.since, h.history.written, h.history.ended, h.history.view, h.history.copied⟩⟩
  have hquiet : s.panic ≠ some "log.committing" := by simp [hp]
  unfold cacheStep at hst
  rw [if_neg (not_not.mpr hp)] at hst
  refine and_left_comm.mp ⟨hp, ?_⟩
  cases e with
  | beginOp p =>
    dsimp only at hst
    split at hst
    · simp at hst
    · rename_i hnot
      obtain ⟨l, hl, rfl⟩ := map_eq_some_iff.mp hst
      exact ⟨⟨a, bs, h.beginOp hnot hl⟩, hquiet⟩
  | bread p b =>
    dsimp only at hst
    split at hst
    · rename_i hin
      obtain ⟨hop, hheld, hhome⟩ := hin
      cases hb : bread s.world.disk s.world.bcache b with
      | error m =>
        rw [hb] at hst
        obtain rfl := some.inj hst
        obtain ⟨rfl, -⟩ := h.cache.store.bread_error_iff.mp hb
        exact ⟨⟨a, bs, hpanic _⟩, by simp⟩
      | ok c =>
        rw [hb] at hst
        obtain rfl := some.inj hst
        exact ⟨⟨_, bs, h.bread hop hheld hhome hb⟩, hquiet⟩
    · simp at hst
  | write p v =>
    dsimp only at hst
    split at hst
    · rename_i hop
      cases hheld : s.held p with
      | none => simp [hheld] at hst
      | some b =>
        simp only [hheld] at hst
        cases hl : logWrite s.world.log b with
        | error m =>
          rw [hl] at hst
          obtain rfl := some.inj hst
          refine ⟨⟨a, bs, hpanic _⟩, ?_⟩
          rcases logWrite_error hl with rfl | rfl <;> simp
        | ok r =>
          obtain ⟨l, pin⟩ := r
          rw [hl] at hst
          obtain rfl := some.inj hst
          exact ⟨h.write hop hheld hl v, hquiet⟩
    · simp at hst
  | brelse p =>
    dsimp only at hst
    split at hst
    · rename_i hop
      cases hheld : s.held p with
      | none => simp [hheld] at hst
      | some b =>
        simp only [hheld] at hst
        obtain rfl := some.inj hst
        exact ⟨⟨_, bs, h.brelse hop hheld⟩, hquiet⟩
    · simp at hst
  | endOp p =>
    dsimp only at hst
    split at hst
    · rename_i hin
      cases hl : endOp s.world.log with
      | error m =>
        rw [endOp_eq (h.log.committing.mpr (h.log.idle hin.1))] at hl
        split at hl <;> simp at hl
      | ok r =>
        obtain ⟨l, doCommit⟩ := r
        rw [hl] at hst
        obtain rfl := some.inj hst
        exact ⟨⟨a, bs, h.endOp hin.1 hin.2 hl⟩, hquiet⟩
    · simp at hst
  | commit =>
    dsimp only at hst
    split at hst
    · simp at hst
    · rename_i hstage
      obtain ⟨-, hpost, -⟩ := h.stage_spec hstage s.world ⟨h.cache.store, rfl⟩
      cases hf : (commitStage s.world.log s.stage s.world).final with
      | none =>
        rw [hf] at hst
        obtain rfl := some.inj hst
        exact ⟨⟨a, bs, hpanic _⟩, by simp⟩
      | some r =>
        rw [hf] at hst
        obtain rfl := some.inj hst
        refine ⟨hpost r.1 r.2 hf, ?_⟩
        unfold LogCache.advance
        split <;> exact hquiet

theorem cacheInv_run (start : BlockNo) (d : Disk) {es : List CacheEvent}
    (hrun : cacheMachine.exec (cacheInit start d) es = some s) : ∃ a bs, CacheInv s a bs :=
  Machine.inv_exec (I := fun u => ∃ a bs, CacheInv u a bs)
    (fun _ _ _ hst ⟨_, _, hi⟩ => (step_cacheInv hst hi).1) hrun ⟨_, _, cacheInv_init start d⟩

end Steps

end Xv6
