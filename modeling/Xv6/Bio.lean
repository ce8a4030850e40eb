import Mathlib.Tactic
import Mathlib.Data.Finset.Card
import Mathlib.Data.Multiset.Count
import Xv6.Log

/-! The buffer cache of the root device: the list that runs from `head.next` to
`head.prev`, most recently used first. The users of the cache see a store in
which each block has one current content; the cache represents it. -/

namespace Xv6

open List

def bsize : Nat := 1024

instance : NeZero bsize := ⟨by decide⟩

def nbuf : Nat := maxOpBlocks * 3

abbrev Block := Fin bsize → BitVec 8

abbrev Disk := BlockNo → Block

def rootdev : BitVec 32 := 1

structure Buf where
  valid : Bool
  dev : BitVec 32
  blockno : BlockNo
  refcnt : Nat
  data : Block

abbrev Bcache := List Buf

def binit : Bcache :=
  List.replicate nbuf { valid := false, dev := 0, blockno := 0, refcnt := 0, data := fun _ => 0 }

def Buf.Caches (x : Buf) (b : BlockNo) : Prop := x.dev = rootdev ∧ x.blockno = b

instance (x : Buf) (b : BlockNo) : Decidable (x.Caches b) :=
  inferInstanceAs (Decidable (x.dev = rootdev ∧ x.blockno = b))

def onBuf (b : BlockNo) (f : Buf → Buf) : Bcache → Bcache
  | [] => []
  | x :: c => if x.Caches b then f x :: c else x :: onBuf b f c

/-- The second loop of `bget`: the least recently used unused buffer. -/
def recycle (b : BlockNo) : Bcache → Option Bcache
  | [] => none
  | x :: c =>
    match recycle b c with
    | some c' => some (x :: c')
    | none =>
      if x.refcnt = 0 then
        some ({ x with dev := rootdev, blockno := b, valid := false, refcnt := 1 } :: c)
      else none

def bget (c : Bcache) (b : BlockNo) : Except String Bcache :=
  if ∃ x ∈ c, x.Caches b then .ok (onBuf b (fun x => { x with refcnt := x.refcnt + 1 }) c)
  else
    match recycle b c with
    | some c' => .ok c'
    | none => .error "bget: no buffers"

def Buf.load (disk : Disk) (b : BlockNo) (x : Buf) : Buf :=
  if x.valid then x else { x with valid := true, data := disk b }

def bread (disk : Disk) (c : Bcache) (b : BlockNo) : Except String Bcache :=
  (bget c b).map (onBuf b (Buf.load disk b))

def bufData (c : Bcache) (b : BlockNo) : Block :=
  match c.find? (fun x => decide (x.Caches b)) with
  | some x => x.data
  | none => fun _ => 0

def setData (c : Bcache) (b : BlockNo) (v : Block) : Bcache :=
  onBuf b (fun x => { x with data := v }) c

def bwrite (disk : Disk) (c : Bcache) (b : BlockNo) : Disk := Function.update disk b (bufData c b)

def bpin (c : Bcache) (b : BlockNo) : Bcache :=
  onBuf b (fun x => { x with refcnt := x.refcnt + 1 }) c

def bunpin (c : Bcache) (b : BlockNo) : Bcache :=
  onBuf b (fun x => { x with refcnt := x.refcnt - 1 }) c

def brelse (c : Bcache) (b : BlockNo) : Bcache :=
  let c := onBuf b (fun x => { x with refcnt := x.refcnt - 1 }) c
  match c.find? (fun x => decide (x.Caches b)) with
  | some x => if x.refcnt = 0 then x :: c.eraseP (fun y => decide (y.Caches b)) else c
  | none => c

@[simp] theorem Buf.load_caches (disk : Disk) (b b' : BlockNo) (x : Buf) :
    (x.load disk b).Caches b' ↔ x.Caches b' := by
  unfold Buf.load
  split_ifs <;> rfl

@[simp] theorem Buf.load_refcnt (disk : Disk) (b : BlockNo) (x : Buf) :
    (x.load disk b).refcnt = x.refcnt := by
  unfold Buf.load
  split_ifs <;> rfl

@[simp] theorem Buf.load_valid (disk : Disk) (b : BlockNo) (x : Buf) :
    (x.load disk b).valid = true := by
  unfold Buf.load
  split_ifs with h
  · exact h
  · rfl

theorem Buf.load_data (disk : Disk) (b : BlockNo) (x : Buf) :
    (x.load disk b).data = if x.valid then x.data else disk b := by
  unfold Buf.load
  split_ifs <;> rfl

/-- The store: what is on disk, the current contents, and the references that
`bread` and `bpin` have given out. -/
structure Store where
  disk : Disk
  view : Disk
  refs : Multiset BlockNo

namespace Store

def hold (a : Store) (b : BlockNo) : Store := { a with refs := b ::ₘ a.refs }

def drop (a : Store) (b : BlockNo) : Store := { a with refs := a.refs.erase b }

def set (a : Store) (b : BlockNo) (v : Block) : Store :=
  { a with view := Function.update a.view b v }

def flush (a : Store) (b : BlockNo) : Store :=
  { a with disk := Function.update a.disk b (a.view b) }

def put (a : Store) (b : BlockNo) (v : Block) : Store :=
  { a with disk := Function.update a.disk b v, view := Function.update a.view b v }

@[simp] theorem hold_drop (a : Store) (b : BlockNo) : (a.hold b).drop b = a := by
  simp [hold, drop]

theorem drop_hold {a : Store} {b : BlockNo} (h : b ∈ a.refs) : (a.drop b).hold b = a := by
  simp [hold, drop, Multiset.cons_erase h]

@[simp] theorem set_flush (a : Store) (b : BlockNo) (v : Block) :
    (a.set b v).flush b = a.put b v := by
  simp [set, flush, put]

theorem hold_put (a : Store) (b b' : BlockNo) (v : Block) :
    (a.hold b).put b' v = (a.put b' v).hold b := rfl

theorem hold_comm (a : Store) (b b' : BlockNo) : (a.hold b).hold b' = (a.hold b').hold b := by
  simp [hold, Multiset.cons_swap]

theorem mem_hold (a : Store) (b : BlockNo) : b ∈ (a.hold b).refs := Multiset.mem_cons_self b a.refs

theorem mem_hold_of_mem {a : Store} {b : BlockNo} (b' : BlockNo) (h : b ∈ a.refs) :
    b ∈ (a.hold b').refs := Multiset.mem_cons_of_mem h

theorem put_clean (a : Store) (b : BlockNo) (v : Block) :
    (a.put b v).view b = (a.put b v).disk b := by
  simp [put]

end Store

structure Represents (a : Store) (disk : Disk) (c : Bcache) : Prop where
  disk_eq : disk = a.disk
  size : c.length = nbuf
  distinct : c.Pairwise (fun x y => x.dev = rootdev → y.dev = rootdev → x.blockno ≠ y.blockno)
  refcnt : ∀ x ∈ c, x.refcnt = if x.dev = rootdev then a.refs.count x.blockno else 0
  current : ∀ x ∈ c, x.dev = rootdev → x.valid = true → x.data = a.view x.blockno
  loaded : ∀ x ∈ c, x.refcnt ≠ 0 → x.valid = true
  cached : ∀ b ∈ a.refs, ∃ x ∈ c, x.Caches b
  clean : ∀ b, b ∉ a.refs → a.view b = a.disk b

theorem represents_binit (d : Disk) : Represents ⟨d, d, 0⟩ d binit where
  disk_eq := rfl
  size := List.length_replicate
  distinct := by
    refine pairwise_replicate.mpr (.inr ?_)
    decide
  refcnt := by
    intro x hx
    obtain rfl := eq_of_mem_replicate hx
    rfl
  current := by
    intro x hx _ hv
    obtain rfl := eq_of_mem_replicate hx
    simp at hv
  loaded := by
    intro x hx hr
    obtain rfl := eq_of_mem_replicate hx
    simp at hr
  cached := by simp
  clean := fun _ _ => rfl

theorem Represents.perm {a : Store} {disk : Disk} {c c' : Bcache} (h : Represents a disk c)
    (hp : c.Perm c') : Represents a disk c' where
  disk_eq := h.disk_eq
  size := hp.length_eq ▸ h.size
  distinct := h.distinct.perm hp (fun hxy hy hx => (hxy hx hy).symm)
  refcnt := fun x hx => h.refcnt x (hp.mem_iff.mpr hx)
  current := fun x hx => h.current x (hp.mem_iff.mpr hx)
  loaded := fun x hx => h.loaded x (hp.mem_iff.mpr hx)
  cached := fun b hb => by
    obtain ⟨x, hx, hxb⟩ := h.cached b hb
    exact ⟨x, hp.mem_iff.mp hx, hxb⟩
  clean := h.clean

def Store.AgreeOff (a a' : Store) (b : BlockNo) : Prop :=
  ∀ b' ≠ b, a'.refs.count b' = a.refs.count b' ∧ a'.view b' = a.view b' ∧ a'.disk b' = a.disk b'

theorem Represents.replace {a a' : Store} {disk disk' : Disk} {x x' : Buf} {rest : Bcache}
    {b : BlockNo} (h : Represents a disk (x :: rest)) (hfree : ∀ y ∈ rest, ¬ y.Caches b)
    (hx : x.Caches b ∨ x.refcnt = 0) (hoff : a.AgreeOff a' b) (hx' : x'.Caches b)
    (hcount : x'.refcnt = a'.refs.count b) (hvalid : x'.valid = true)
    (hdata : x'.data = a'.view b) (hclean : b ∉ a'.refs → a'.view b = a'.disk b)
    (hdisk : disk' = a'.disk) : Represents a' disk' (x' :: rest) := by
  have hne : ∀ y ∈ rest, y.dev = rootdev → y.blockno ≠ b := fun y hy hd hb => hfree y hy ⟨hd, hb⟩
  obtain ⟨hdev, hblk⟩ := hx'
  have hdistinct : (x' :: rest).Pairwise
      (fun y z => y.dev = rootdev → z.dev = rootdev → y.blockno ≠ z.blockno) := by
    refine pairwise_cons.mpr ⟨fun y hy _ hd => ?_, (pairwise_cons.mp h.distinct).2⟩
    rw [hblk]
    exact (hne y hy hd).symm
  have hrefcnt : ∀ y ∈ x' :: rest,
      y.refcnt = if y.dev = rootdev then a'.refs.count y.blockno else 0 := by
    intro y hy
    rcases mem_cons.mp hy with rfl | hy
    · rw [if_pos hdev, hblk, hcount]
    · have hr := h.refcnt y (mem_cons_of_mem x hy)
      split_ifs with hd
      · rw [(hoff _ (hne y hy hd)).1, hr, if_pos hd]
      · rw [hr, if_neg hd]
  have hcurrent : ∀ y ∈ x' :: rest, y.dev = rootdev → y.valid = true →
      y.data = a'.view y.blockno := by
    intro y hy hd hv
    rcases mem_cons.mp hy with rfl | hy
    · rw [hblk, hdata]
    · rw [(hoff _ (hne y hy hd)).2.1]
      exact h.current y (mem_cons_of_mem x hy) hd hv
  have hloaded : ∀ y ∈ x' :: rest, y.refcnt ≠ 0 → y.valid = true := by
    intro y hy hr
    rcases mem_cons.mp hy with rfl | hy
    · exact hvalid
    · exact h.loaded y (mem_cons_of_mem x hy) hr
  have hmem : ∀ b' ≠ b, (b' ∈ a'.refs ↔ b' ∈ a.refs) := by
    intro b' hbb
    rw [← Multiset.count_pos, ← Multiset.count_pos, (hoff b' hbb).1]
  have hcached : ∀ b' ∈ a'.refs, ∃ y ∈ x' :: rest, y.Caches b' := by
    intro b' hb'
    by_cases hbb : b' = b
    · exact ⟨x', mem_cons_self, hdev, hbb ▸ hblk⟩
    · have hold := (hmem b' hbb).mp hb'
      obtain ⟨y, hy, hyb⟩ := h.cached b' hold
      rcases mem_cons.mp hy with rfl | hy
      · exfalso
        rcases hx with hx | hx
        · exact hbb (hyb.2.symm.trans hx.2)
        · have hr := h.refcnt y mem_cons_self
          rw [if_pos hyb.1, hyb.2, hx] at hr
          exact Multiset.count_ne_zero.mpr hold hr.symm
      · exact ⟨y, mem_cons_of_mem x' hy, hyb⟩
  have hclean' : ∀ b', b' ∉ a'.refs → a'.view b' = a'.disk b' := by
    intro b' hb'
    by_cases hbb : b' = b
    · rw [hbb] at hb' ⊢
      exact hclean hb'
    · rw [(hoff b' hbb).2.1, (hoff b' hbb).2.2]
      exact h.clean b' (fun hold => hb' ((hmem b' hbb).mpr hold))
  exact ⟨hdisk, by simpa using h.size, hdistinct, hrefcnt, hcurrent, hloaded, hcached, hclean'⟩

theorem onBuf_split {c : Bcache} {b : BlockNo} (h : ∃ x ∈ c, x.Caches b) :
    ∃ x rest, x.Caches b ∧ c.Perm (x :: rest) ∧ ∀ f, (onBuf b f c).Perm (f x :: rest) := by
  induction c with
  | nil => simp at h
  | cons y c ih =>
    by_cases hy : y.Caches b
    · exact ⟨y, c, hy, List.Perm.refl _, fun f => by rw [onBuf, if_pos hy]⟩
    · obtain ⟨x, rest, hx, hp, hf⟩ := ih (by simpa [hy] using h)
      refine ⟨x, y :: rest, hx, (hp.cons y).trans (List.Perm.swap x y rest), fun f => ?_⟩
      rw [onBuf, if_neg hy]
      exact ((hf f).cons y).trans (List.Perm.swap (f x) y rest)

theorem onBuf_onBuf {b : BlockNo} {f g : Buf → Buf} (hf : ∀ x, x.Caches b → (f x).Caches b)
    (c : Bcache) : onBuf b g (onBuf b f c) = onBuf b (fun x => g (f x)) c := by
  induction c with
  | nil => rfl
  | cons x c ih =>
    by_cases hx : x.Caches b
    · simp only [onBuf, if_pos hx, if_pos (hf x hx)]
    · simp only [onBuf, if_neg hx, ih]

theorem recycle_split {c c' : Bcache} {b : BlockNo} (h : recycle b c = some c') :
    ∃ x rest, x.refcnt = 0 ∧ c.Perm (x :: rest) ∧ c'.Perm
      ({ x with dev := rootdev, blockno := b, valid := false, refcnt := 1 } :: rest) := by
  induction c generalizing c' with
  | nil => simp [recycle] at h
  | cons y c ih =>
    unfold recycle at h
    split at h
    · rename_i c'' hr
      obtain ⟨x, rest, hx, hp, hp'⟩ := ih hr
      obtain rfl := Option.some.inj h
      exact ⟨x, y :: rest, hx, (hp.cons y).trans (List.Perm.swap _ _ _),
        (hp'.cons y).trans (List.Perm.swap _ _ _)⟩
    · split at h
      · rename_i hy
        obtain rfl := Option.some.inj h
        exact ⟨y, c, hy, List.Perm.refl _, List.Perm.refl _⟩
      · simp at h

theorem recycle_none {c : Bcache} {b : BlockNo} (h : recycle b c = none) :
    ∀ x ∈ c, x.refcnt ≠ 0 := by
  induction c with
  | nil => simp
  | cons y c ih =>
    unfold recycle at h
    split at h
    · simp at h
    · rename_i hr
      split at h
      · simp at h
      · rename_i hy
        exact forall_mem_cons.mpr ⟨hy, ih hr⟩

section Represented

variable {a a' : Store} {disk disk' : Disk} {c c' : Bcache} {b : BlockNo}

theorem Represents.free {x : Buf} {rest : Bcache} (h : Represents a disk (x :: rest))
    (hx : x.Caches b) : ∀ y ∈ rest, ¬ y.Caches b := fun y hy hyb =>
  (pairwise_cons.mp h.distinct).1 y hy hx.1 hyb.1 (hx.2.trans hyb.2.symm)

theorem Represents.count {x : Buf} (h : Represents a disk c) (hx : x ∈ c) (hb : x.Caches b) :
    x.refcnt = a.refs.count b := by
  rw [h.refcnt x hx, if_pos hb.1, hb.2]

theorem Represents.data {x : Buf} (h : Represents a disk c) (hx : x ∈ c) (hb : x.Caches b) :
    (if x.valid then x.data else disk b) = a.view b := by
  split_ifs with hv
  · rw [h.current x hx hb.1 hv, hb.2]
  · have hr : x.refcnt = 0 := by
      by_contra hr
      exact hv (h.loaded x hx hr)
    rw [h.count hx hb, Multiset.count_eq_zero] at hr
    rw [h.disk_eq, h.clean b hr]

theorem Represents.onBuf {f : Buf → Buf} (h : Represents a disk c) (hb : ∃ x ∈ c, x.Caches b)
    (hoff : a.AgreeOff a' b)
    (hf : ∀ x ∈ c, x.Caches b → (f x).Caches b ∧ (f x).refcnt = a'.refs.count b ∧
      (f x).valid = true ∧ (f x).data = a'.view b)
    (hclean : b ∉ a'.refs → a'.view b = a'.disk b) (hdisk : disk' = a'.disk) :
    Represents a' disk' (onBuf b f c) := by
  obtain ⟨x, rest, hx, hp, hpf⟩ := onBuf_split hb
  have hr := h.perm hp
  obtain ⟨hkey, hcount, hvalid, hdata⟩ := hf x (hp.mem_iff.mpr mem_cons_self) hx
  exact (hr.replace (hr.free hx) (.inl hx) hoff hkey hcount hvalid hdata hclean hdisk).perm
    (hpf f).symm

theorem Store.agreeOff_hold : a.AgreeOff (a.hold b) b := fun _ h =>
  ⟨Multiset.count_cons_of_ne h _, rfl, rfl⟩

theorem Store.agreeOff_drop : a.AgreeOff (a.drop b) b := fun _ h =>
  ⟨Multiset.count_erase_of_ne h _, rfl, rfl⟩

theorem Represents.full (h : Represents a disk c) (hc : ∀ x ∈ c, x.refcnt ≠ 0) :
    nbuf ≤ a.refs.toFinset.card := by
  have hdev : ∀ x ∈ c, x.dev = rootdev := by
    intro x hx
    by_contra hd
    exact hc x hx (by rw [h.refcnt x hx, if_neg hd])
  have hnd : (c.map Buf.blockno).Nodup := by
    refine pairwise_map.mpr (h.distinct.imp_of_mem ?_)
    intro x y hx hy hxy
    exact hxy (hdev x hx) (hdev y hy)
  rw [← h.size, ← length_map Buf.blockno, ← toFinset_card_of_nodup hnd]
  refine Finset.card_le_card (fun b hb => ?_)
  obtain ⟨x, hx, rfl⟩ := mem_map.mp (mem_toFinset.mp hb)
  rw [Multiset.mem_toFinset, ← Multiset.count_ne_zero, ← h.count hx ⟨hdev x hx, rfl⟩]
  exact hc x hx

theorem Represents.bread_error {m : String} (h : Represents a disk c)
    (hr : bread disk c b = .error m) : b ∉ a.refs ∧ nbuf ≤ a.refs.toFinset.card := by
  unfold bread bget at hr
  split at hr
  · simp [Except.map] at hr
  · rename_i hb
    refine ⟨fun hmem => hb (h.cached b hmem), ?_⟩
    split at hr
    · simp [Except.map] at hr
    · rename_i hn
      exact h.full (recycle_none hn)

theorem Represents.no_free (h : Represents a disk c) (hfull : nbuf ≤ a.refs.toFinset.card) :
    ∀ x ∈ c, x.refcnt ≠ 0 := by
  intro x hx hfree
  have hsub : a.refs.toFinset ⊆ ((c.filter (fun y => y.refcnt ≠ 0)).map Buf.blockno).toFinset := by
    intro b hb
    obtain ⟨y, hy, hyb⟩ := h.cached b (Multiset.mem_toFinset.mp hb)
    have hcount : y.refcnt ≠ 0 := by
      rw [h.count hy hyb]
      exact Multiset.count_ne_zero.mpr (Multiset.mem_toFinset.mp hb)
    refine mem_toFinset.mpr (mem_map.mpr ⟨y, ?_, hyb.2⟩)
    exact mem_filter.mpr ⟨hy, decide_eq_true hcount⟩
  have hle := (Finset.card_le_card hsub).trans (toFinset_card_le _)
  have hlt : (c.filter (fun y => y.refcnt ≠ 0)).length < c.length :=
    length_filter_lt_length_iff_exists.mpr ⟨x, hx, by simp [hfree]⟩
  rw [length_map] at hle
  have hsize := h.size
  omega

theorem recycle_eq_none (b : BlockNo) (h : ∀ x ∈ c, x.refcnt ≠ 0) : recycle b c = none := by
  induction c with
  | nil => rfl
  | cons x c ih =>
    have hx := h x mem_cons_self
    simp only [recycle, ih (fun y hy => h y (mem_cons_of_mem x hy)), if_neg hx]

theorem Represents.bread_full (h : Represents a disk c) (hb : b ∉ a.refs)
    (hfull : nbuf ≤ a.refs.toFinset.card) : bread disk c b = .error "bget: no buffers" := by
  have hbusy := h.no_free hfull
  have hmiss : ¬ ∃ x ∈ c, x.Caches b := by
    rintro ⟨x, hx, hxb⟩
    refine hbusy x hx ?_
    rw [h.count hx hxb, Multiset.count_eq_zero_of_notMem hb]
  simp only [Xv6.bread, bget, if_neg hmiss, recycle_eq_none b hbusy]
  rfl

theorem Represents.bread_error_iff (h : Represents a disk c) {m : String} :
    Xv6.bread disk c b = .error m ↔
      m = "bget: no buffers" ∧ b ∉ a.refs ∧ nbuf ≤ a.refs.toFinset.card := by
  constructor
  · intro hr
    obtain ⟨hb, hfull⟩ := h.bread_error hr
    have he := h.bread_full hb hfull
    rw [hr] at he
    exact ⟨Except.error.inj he, hb, hfull⟩
  · rintro ⟨rfl, hb, hfull⟩
    exact h.bread_full hb hfull

theorem Represents.bread (h : Represents a disk c) (hr : bread disk c b = .ok c') :
    Represents (a.hold b) disk c' := by
  have hclean : b ∉ (a.hold b).refs → (a.hold b).view b = (a.hold b).disk b := fun hn =>
    absurd (Multiset.mem_cons_self b a.refs) hn
  unfold Xv6.bread bget at hr
  split at hr
  · rename_i hb
    obtain rfl := Except.ok.inj hr
    rw [onBuf_onBuf (f := fun x => { x with refcnt := x.refcnt + 1 }) (fun x hx => hx)]
    refine h.onBuf hb Store.agreeOff_hold (fun x hx hxb => ?_) hclean h.disk_eq
    have hcount := h.count hx hxb
    have hdata := h.data hx hxb
    have hload : (Buf.load disk b { x with refcnt := x.refcnt + 1 }).refcnt =
        (a.hold b).refs.count b := by
      simp only [Buf.load_refcnt, hcount, Store.hold, Multiset.count_cons_self]
    refine ⟨(Buf.load_caches _ _ _ _).mpr hxb, hload, Buf.load_valid _ _ _, ?_⟩
    rw [Buf.load_data]
    exact hdata
  · rename_i hb
    split at hr
    · rename_i c₁ hrec
      obtain rfl := Except.ok.inj hr
      obtain ⟨x, rest, hx, hp, hp₁⟩ := recycle_split hrec
      have hfree : ∀ y ∈ rest, ¬ y.Caches b := fun y hy hyb =>
        hb ⟨y, hp.mem_iff.mpr (mem_cons_of_mem x hy), hyb⟩
      have hnew : b ∉ a.refs := fun hmem => hb (h.cached b hmem)
      -- the recycled buffer is the only one for `b`, so the read goes into it
      obtain ⟨y, rest', hy, hp₂, hload⟩ := onBuf_split (c := c₁) (b := b)
        ⟨_, hp₁.mem_iff.mpr mem_cons_self, rfl, rfl⟩
      have hyx := hp₁.mem_iff.mp (hp₂.mem_iff.mpr mem_cons_self)
      rcases mem_cons.mp hyx with rfl | hyr
      · have hrest : rest.Perm rest' := (hp₁.symm.trans hp₂).cons_inv
        refine Represents.perm ?_ ((hrest.cons _).trans (hload _).symm)
        refine (h.perm hp).replace hfree (.inr hx) Store.agreeOff_hold
          ((Buf.load_caches _ _ _ _).mpr ⟨rfl, rfl⟩) ?_ (Buf.load_valid _ _ _) ?_ hclean h.disk_eq
        · rw [Buf.load_refcnt, Store.hold, Multiset.count_cons_self,
            Multiset.count_eq_zero_of_notMem hnew]
        · rw [Buf.load_data]
          simp only [Bool.false_eq_true, if_false, Store.hold, h.clean b hnew, h.disk_eq]
      · exact absurd hy (hfree y hyr)
    · simp [Except.map] at hr

theorem Represents.held (h : Represents a disk c) (hb : b ∈ a.refs) {x : Buf} (hx : x ∈ c)
    (hxb : x.Caches b) : x.valid = true ∧ x.data = a.view b := by
  have hv : x.valid = true := by
    refine h.loaded x hx ?_
    rw [h.count hx hxb]
    exact Multiset.count_ne_zero.mpr hb
  exact ⟨hv, by rw [h.current x hx hxb.1 hv, hxb.2]⟩

theorem Represents.bufData (h : Represents a disk c) (hb : b ∈ a.refs) :
    bufData c b = a.view b := by
  obtain ⟨y, hy, hyb⟩ := h.cached b hb
  unfold Xv6.bufData
  cases hf : c.find? (fun x => decide (x.Caches b)) with
  | none => exact absurd (decide_eq_true hyb) (find?_eq_none.mp hf y hy)
  | some x =>
    have hxb := find?_some hf
    simp only [decide_eq_true_eq] at hxb
    exact (h.held hb (mem_of_find?_eq_some hf) hxb).2

theorem Represents.setData (h : Represents a disk c) (hb : b ∈ a.refs) (v : Block) :
    Represents (a.set b v) disk (setData c b v) := by
  refine h.onBuf (h.cached b hb) (fun b' hne => ⟨rfl, Function.update_of_ne hne _ _, rfl⟩)
    (fun x hx hxb => ?_) (fun hn => absurd hb hn) h.disk_eq
  have hcount := h.count hx hxb
  exact ⟨hxb, hcount, (h.held hb hx hxb).1, (Function.update_self b v a.view).symm⟩

theorem Represents.bwrite (h : Represents a disk c) (hb : b ∈ a.refs) :
    Represents (a.flush b) (bwrite disk c b) c where
  disk_eq := by rw [Xv6.bwrite, h.bufData hb, h.disk_eq, Store.flush]
  size := h.size
  distinct := h.distinct
  refcnt := h.refcnt
  current := h.current
  loaded := h.loaded
  cached := h.cached
  clean := by
    intro b' hb'
    have hne : b' ≠ b := fun he => hb' (he ▸ hb)
    simp only [Store.flush, Function.update_of_ne hne]
    exact h.clean b' hb'

theorem Represents.bpin (h : Represents a disk c) (hb : b ∈ a.refs) :
    Represents (a.hold b) disk (bpin c b) := by
  refine h.onBuf (h.cached b hb) Store.agreeOff_hold (fun x hx hxb => ?_)
    (fun hn => absurd (Multiset.mem_cons_self b a.refs) hn) h.disk_eq
  have hheld := h.held hb hx hxb
  have hcount : x.refcnt + 1 = (a.hold b).refs.count b := by
    rw [Store.hold, Multiset.count_cons_self, h.count hx hxb]
  exact ⟨hxb, hcount, hheld⟩

theorem Represents.bunpin (h : Represents a disk c) (hb : b ∈ a.refs)
    (hlast : b ∉ a.refs.erase b → a.view b = a.disk b) :
    Represents (a.drop b) disk (bunpin c b) := by
  refine h.onBuf (h.cached b hb) Store.agreeOff_drop (fun x hx hxb => ?_) hlast h.disk_eq
  have hheld := h.held hb hx hxb
  have hcount : x.refcnt - 1 = (a.drop b).refs.count b := by
    rw [Store.drop, Multiset.count_erase_self, h.count hx hxb]
  exact ⟨hxb, hcount, hheld⟩

theorem brelse_perm (c : Bcache) (b : BlockNo) : (bunpin c b).Perm (brelse c b) := by
  unfold brelse bunpin
  dsimp only
  split
  · rename_i x hf
    obtain ⟨hx, l, r, hc, hl⟩ := find?_eq_some_iff_append.mp hf
    split
    · rw [hc, eraseP_append_right _ (by simpa using hl),
        eraseP_cons_of_pos (p := fun y : Buf => decide (y.Caches b)) hx]
      exact perm_middle
    · exact List.Perm.refl _
  · exact List.Perm.refl _

theorem Represents.brelse (h : Represents a disk c) (hb : b ∈ a.refs)
    (hlast : b ∉ a.refs.erase b → a.view b = a.disk b) :
    Represents (a.drop b) disk (brelse c b) :=
  (h.bunpin hb hlast).perm (brelse_perm c b)

end Represented

end Xv6
