import Xv6.Truncate

/-! The content of an inode as a list of bytes, and `readi` and `writei` on it. -/

namespace Xv6

open LittleEndian Fallible FsM List Fs

def Fs.byte (s : Fs) (i o : Nat) : Byte :=
  byteAt (s.block (slot s.block (s.node i) (place (o / bsize)))) (o % bsize)

def Fs.content (s : Fs) (i : Nat) : List Byte := (List.range (s.node i).size).map (s.byte i)

structure Node where
  type : Int
  major : Int
  minor : Int
  nlink : Int
  data : List Byte
deriving DecidableEq

def Fs.view (s : Fs) (i : Nat) : Option Node :=
  if (s.node i).type = 0 then none
  else some ⟨(s.node i).type, (s.node i).major, (s.node i).minor, (s.node i).nlink, s.content i⟩

/-- What holds between the critical sections of inodes. -/
structure Good (start : Nat) (s : Fs) : Prop where
  start_pos : 0 < start
  size_lt : s.sb.size < 2 ^ 31
  owned : s.Owned start ∅
  filled : ∀ i, s.Filled i
  synced : ∀ i, (s.itable i).valid = true → (s.itable i).copy = s.dinode i
  typed : ∀ i, (s.itable i).valid = true → (s.itable i).copy.type ≠ 0
  bounded : ∀ i, (s.node i).type ≠ 0 → 1 ≤ i ∧ i < s.sb.ninodes

section Content

variable {start : Nat} {s t u : Fs} {ip k : Nat} {R : Set BlockNo} {b : BlockNo} {E : String → Prop}

theorem Good.editing (h : Good start s) (hv : (s.itable ip).valid = true) : Editing start s ip ∅ :=
  ⟨h.start_pos, h.size_lt, h.owned, fun i _ => h.filled i, fun i _ => h.synced i, h.typed,
    h.bounded, hv⟩

theorem Editing.good (h : Editing start s ip ∅) (hf : s.Filled ip)
    (hs : (s.itable ip).copy = s.dinode ip) : Good start s where
  start_pos := h.start_pos
  size_lt := h.size_lt
  owned := h.owned
  filled i := by
    by_cases hi : i = ip
    · rw [hi]
      exact hf
    · exact h.filled i hi
  synced i hv := by
    by_cases hi : i = ip
    · rw [hi]
      exact hs
    · exact h.synced i hi hv
  typed := h.typed
  bounded := h.bounded

theorem Fs.byte_congr {j o : Nat} (hnode : t.node j = s.node j)
    (hblock : ∀ k b, s.owner (j, k) = some b → t.block b = s.block b) (hf : s.Filled j)
    (ht : (s.node j).type ≠ 0) (ho : o < (s.node j).size) : t.byte j o = s.byte j o := by
  have hbn : o / bsize * bsize < (s.node j).size := lt_of_le_of_lt (Nat.div_mul_le_self o bsize) ho
  obtain ⟨b, hb⟩ := Option.ne_none_iff_exists'.mp (hf ht _ hbn)
  have hb' : t.owner (j, place (o / bsize)) = some b := by
    rw [owner_congr hnode (fun b => hblock ndirect b), hb]
  unfold byte
  rw [(owner_eq_some.mp hb).2.2, (owner_eq_some.mp hb').2.2, hblock _ b hb]

theorem Fs.view_congr {j : Nat} (hnode : t.node j = s.node j)
    (hblock : ∀ k b, s.owner (j, k) = some b → t.block b = s.block b) (hf : s.Filled j) :
    t.view j = s.view j := by
  unfold view
  rw [hnode]
  by_cases ht : (s.node j).type = 0
  · rw [if_pos ht, if_pos ht]
  · have hc : t.content j = s.content j := by
      unfold content
      rw [hnode]
      exact map_congr_left (fun o ho => byte_congr hnode hblock hf ht (mem_range.mp ho))
    rw [if_neg ht, if_neg ht, hc]

theorem Apart.view (h : Apart s t ip) {j : Nat} (hj : j ≠ ip) (hf : s.Filled j) :
    t.view j = s.view j :=
  view_congr (h.node hj) (fun k b hb => h.block j k b hj hb) hf

theorem byteAt_blit (v : Block) (off : Nat) (bs : List Byte) {i : Nat} (hi : i < bsize) :
    byteAt (blit v off bs) i = if i < off then byteAt v i else (bs[i - off]?).getD (byteAt v i) := by
  have hv : (Fin.ofNat bsize i).val = i := Nat.mod_eq_of_lt hi
  unfold byteAt blit
  rw [hv]

theorem copyin_length_le (src : Nat → Option Byte) (a m : Nat) : (copyin src a m).length ≤ m := by
  induction m generalizing a with
  | zero => simp [copyin]
  | succ m ih =>
    unfold copyin
    cases src a with
    | none => simp
    | some x =>
      have hi := ih (a + 1)
      simp only [length_cons]
      omega

theorem copyin_getElem? {src : Nat → Option Byte} {a m i : Nat}
    (hi : i < (copyin src a m).length) : (copyin src a m)[i]? = src (a + i) := by
  induction m generalizing a i with
  | zero => simp [copyin] at hi
  | succ m ih =>
    unfold copyin at hi ⊢
    cases hs : src a with
    | none => simp [hs] at hi
    | some x =>
      simp only [hs, length_cons] at hi ⊢
      cases i with
      | zero => simp [hs]
      | succ i =>
        have hr := ih (a := a + 1) (i := i) (by omega)
        rw [getElem?_cons_succ, hr]
        congr 1
        omega

theorem src_of_copyin {src : Nat → Option Byte} {a m i : Nat}
    (h : (copyin src a m).length = m) (hi : i < m) : src (a + i) ≠ none := by
  have hget : (copyin src a m)[i]? = src (a + i) := copyin_getElem? (by omega)
  rw [← hget]
  simp [h, hi]

theorem copyin_stops {src : Nat → Option Byte} {a m : Nat} (h : (copyin src a m).length < m) :
    src (a + (copyin src a m).length) = none := by
  induction m generalizing a with
  | zero => simp at h
  | succ m ih =>
    unfold copyin at h ⊢
    cases hs : src a with
    | none => simpa using hs
    | some x =>
      simp only [hs, length_cons, Nat.add_lt_add_iff_right] at h ⊢
      rw [← ih h]
      congr 1
      omega

theorem copyin_full {src : Nat → Option Byte} {a m : Nat} (h : ∀ i < m, src (a + i) ≠ none) :
    (copyin src a m).length = m := by
  induction m generalizing a with
  | zero => rfl
  | succ m ih =>
    unfold copyin
    cases hs : src a with
    | none => exact absurd hs (h 0 (by omega))
    | some x =>
      have hr := ih (a := a + 1) (fun i hi => by
        have hi' := h (i + 1) (by omega)
        rwa [show a + (i + 1) = a + 1 + i by omega] at hi')
      simp [hr]

def Fs.bytes (s : Fs) (i off m : Nat) : List Byte :=
  (List.range m).map (fun j => s.byte i (off + j))

theorem Fs.bytes_add (s : Fs) (i off m n : Nat) :
    s.bytes i off (m + n) = s.bytes i off m ++ s.bytes i (off + m) n := by
  unfold bytes
  rw [range_add, map_append, map_map]
  congr 1
  refine map_congr_left (fun j _ => ?_)
  simp only [Function.comp, Nat.add_assoc]

theorem Fs.byte_in_block {i off j : Nat} (hb : s.owner (i, place (off / bsize)) = some b)
    (hj : off % bsize + j < bsize) : s.byte i (off + j) = byteAt (s.block b) (off % bsize + j) := by
  have hdm := Nat.div_add_mod off bsize
  have hsum : off + j = bsize * (off / bsize) + (off % bsize + j) := by omega
  have hd : (off + j) / bsize = off / bsize := by
    rw [hsum, Nat.mul_add_div (by decide), Nat.div_eq_of_lt hj, Nat.add_zero]
  have hm : (off + j) % bsize = off % bsize + j := by
    rw [hsum, Nat.mul_add_mod, Nat.mod_eq_of_lt hj]
  unfold byte
  rw [hd, hm, (owner_eq_some.mp hb).2.2]

theorem slice_eq_bytes {off m : Nat} (hb : s.owner (ip, place (off / bsize)) = some b)
    (hm : off % bsize + m ≤ bsize) : slice (s.block b) (off % bsize) m = s.bytes ip off m := by
  refine map_congr_left (fun j hj => ?_)
  rw [byte_in_block hb (by have := mem_range.mp hj; omega)]

theorem Fs.Filled.owner_at {o : Nat} (hf : s.Filled ip) (ht : (s.node ip).type ≠ 0)
    (ho : o < (s.node ip).size) : ∃ b, s.owner (ip, place (o / bsize)) = some b :=
  Option.ne_none_iff_exists'.mp (hf ht _ (lt_of_le_of_lt (Nat.div_mul_le_self o bsize) ho))

theorem readLoop_spec (hv : (s.itable ip).valid = true) (hf : s.Filled ip)
    (ht : (s.node ip).type ≠ 0) (dst : Nat → Bool) {n off : Nat}
    (hn : off + n ≤ (s.node ip).size) (fuel tot : Nat) (got : List Byte) (htot : tot ≤ n)
    (hfuel : n - tot ≤ fuel) :
    Ends (readLoop ip dst n fuel (off + tot) tot got) s (fun r u => u = s ∧
      ((∀ i < n, dst i = true) → r = ((n : Int), got ++ s.bytes ip (off + tot) (n - tot))))
      (fun _ => False) := by
  induction fuel generalizing tot got with
  | zero =>
    have he : n = tot := by omega
    subst he
    refine Ends.pure ⟨rfl, fun _ => ?_⟩
    simp [bytes]
  | succ fuel ih =>
    unfold readLoop
    split_ifs with hlt
    · obtain ⟨b, hb⟩ := hf.owner_at ht (o := off + tot) (by omega)
      have hb0 := (owner_eq_some.mp hb).2.1
      refine Ends.bind_ok (bmap_present hv hb) ?_
      rw [if_neg hb0]
      refine Ends.get_bind ?_
      dsimp only
      generalize hm : min (n - tot) (bsize - (off + tot) % bsize) = m
      have hmod : (off + tot) % bsize < bsize := Nat.mod_lt _ (by decide)
      have hm1 : 1 ≤ m := by omega
      split_ifs with hd
      · rw [slice_eq_bytes hb (by omega)]
        have hr := ih (tot + m) (got ++ s.bytes ip (off + tot) m) (by omega) (by omega)
        rw [Nat.add_assoc]
        refine hr.post (fun r u hu => ⟨hu.1, fun hall => ?_⟩)
        have hsplit : n - tot = m + (n - (tot + m)) := by omega
        rw [hu.2 hall, append_assoc, hsplit, bytes_add, ← Nat.add_assoc]
      · refine Ends.pure ⟨rfl, fun hall => absurd ?_ hd⟩
        intro i hi
        exact hall _ (by omega)
    · have he : n = tot := by omega
      subst he
      refine Ends.pure ⟨rfl, fun _ => ?_⟩
      simp [bytes]

theorem readi_spec (hv : (s.itable ip).valid = true) (hf : s.Filled ip)
    (ht : (s.node ip).type ≠ 0) (dst : Nat → Bool) (off : Nat) {n : Nat} (hn32 : n < 2 ^ 32) :
    Ends (readi ip dst off n) s (fun r u => u = s ∧
      ((∀ i < n, dst i = true) → off ≤ (s.node ip).size → off + n < 2 ^ 32 →
        r = (((min n ((s.node ip).size - off) : Nat) : Int),
          s.bytes ip off (min n ((s.node ip).size - off)))))
      (fun _ => False) := by
  have hnode := node_of_valid hv
  refine Ends.bind_ok (m := inode ip) (a := (s.itable ip).copy) rfl ?_
  rw [← hnode]
  by_cases hg : off > (s.node ip).size ∨ u32 (off + n) < off
  · rw [if_pos hg]
    refine Ends.pure ⟨rfl, fun _ hle hlt => ?_⟩
    have hu : u32 (off + n) = off + n := Nat.mod_eq_of_lt hlt
    omega
  · rw [if_neg hg]
    dsimp only
    generalize hn : (if u32 (off + n) > (s.node ip).size then (s.node ip).size - off else n) = n'
    have hle : off + n' ≤ (s.node ip).size := by
      obtain ⟨h1, h2⟩ := not_or.mp hg
      split_ifs at hn with hgt
      · omega
      · unfold u32 at h2 hgt
        omega
    have hr := readLoop_spec hv hf ht dst hle n' 0 [] (Nat.zero_le _) (by omega)
    refine hr.post (fun r u hu => ⟨hu.1, fun hall hoff hlt => ?_⟩)
    have hu32 : u32 (off + n) = off + n := Nat.mod_eq_of_lt hlt
    have hmin : n' = min n ((s.node ip).size - off) := by
      rw [hu32] at hn
      split_ifs at hn <;> omega
    rw [hu.2 (fun i hi => hall i (by omega)), hmin]
    simp

end Content

/-- Of the `n` bytes of the source, `a` is the first that cannot be read. -/
def Breaks (src : Nat → Option Byte) (n a : Nat) : Prop :=
  a < n ∧ src a = none ∧ ∀ b < a, src b ≠ none

/-- The bytes of the source before its break have been copied, if they lie in the file,
also those that are not reported. -/
def Strays (s : Fs) (ip : Nat) (src : Nat → Option Byte) (off n tot : Nat) (t : Fs) : Prop :=
  ∀ a, Breaks src n a → off + a ≤ (s.node ip).size →
    ∀ p, off + tot ≤ p → p < off + a → src (p - off) = some (t.byte ip p)

/-- After `tot` bytes have been written from offset `off` on. -/
structure Wrote (start : Nat) (s : Fs) (ip : Nat) (src : Nat → Option Byte) (off n tot : Nat)
    (t : Fs) : Prop where
  editing : Editing start t ip ∅
  apart : Apart s t ip
  header : t.node ip = { s.node ip with addrs := (t.node ip).addrs }
  keep : ∀ k b, s.owner (ip, k) = some b → t.owner (ip, k) = some b
  read : ∀ a < tot, src a ≠ none
  filled : ∀ bn, bn * bsize < off + tot → t.owner (ip, place bn) ≠ none
  data : (∀ a < n, src a ≠ none) → ∀ o, (o < (s.node ip).size ∨ o < off + tot) →
    t.byte ip o = if off ≤ o ∧ o < off + tot then (src (o - off)).getD 0 else s.byte ip o

section Writing

variable {start : Nat} {s t u : Fs} {ip k off n tot : Nat} {R : Set BlockNo} {b : BlockNo}
  {src : Nat → Option Byte} {E : String → Prop}

theorem place_inj {a b : Nat} (h : place a = place b) : a = b := by
  unfold place at h
  split_ifs at h <;> omega

theorem place_ne_ndirect (bn : Nat) : place bn ≠ ndirect := by
  unfold place
  split_ifs <;> omega

theorem Editing.putData (h : Editing start s ip R) (hb : s.owner (ip, k) = some b)
    (hk : k ≠ ndirect) (v : Block) :
    Editing start (s.putBlock b v) ip R ∧ Apart s (s.putBlock b v) ip ∧
      (s.putBlock b v).owner = s.owner := by
  have hother : ∀ p c, p ≠ (ip, k) → s.owner p = some c → (s.putBlock b v).block c = s.block c := by
    intro p c hp hc
    have hcb : c ≠ b := by
      rintro rfl
      exact hp (h.owned.inj _ _ _ hc hb)
    simp [putBlock, hcb]
  have howner : (s.putBlock b v).owner = s.owner := by
    funext p
    obtain ⟨i, j⟩ := p
    refine owner_congr (s := s) (t := s.putBlock b v) rfl (fun c hc => ?_) j
    exact hother (i, ndirect) c (fun he => hk (Prod.mk.inj he).2.symm) hc
  have hap : Apart s (s.putBlock b v) ip :=
    ⟨rfl, rfl, rfl, fun _ _ => rfl, fun _ _ => rfl, rfl, rfl, fun i j c hi hc =>
      hother (i, j) c (fun he => hi (Prod.mk.inj he).1) hc⟩
  refine ⟨h.of_apart hap ?_ (h.typed ip h.valid) h.in_range, hap, howner⟩
  unfold Fs.Owned
  rw [howner]
  exact h.owned

theorem Fs.byte_eq {i o : Nat} (hb : s.owner (i, place (o / bsize)) = some b) :
    s.byte i o = byteAt (s.block b) (o % bsize) := by
  unfold byte
  rw [(owner_eq_some.mp hb).2.2]

theorem Extends.byte (h : Extends s t ip) {o : Nat}
    (hb : s.owner (ip, place (o / bsize)) = some b) : t.byte ip o = s.byte ip o := by
  rw [byte_eq hb, byte_eq (h.keep _ _ hb), h.data _ _ (place_ne_ndirect _) hb]

theorem Wrote.owner_at (h : Wrote start s ip src off n tot t) (hf : s.Filled ip)
    (hty : (s.node ip).type ≠ 0) {o : Nat} (ho : o < (s.node ip).size ∨ o < off + tot) :
    ∃ b, t.owner (ip, place (o / bsize)) = some b := by
  rcases ho with ho | ho
  · obtain ⟨b, hb⟩ := hf.owner_at hty ho
    exact ⟨b, h.keep _ _ hb⟩
  · exact Option.ne_none_iff_exists'.mp
      (h.filled _ (lt_of_le_of_lt (Nat.div_mul_le_self o bsize) ho))

theorem Wrote.extend (h : Wrote start s ip src off n tot t) (hf : s.Filled ip)
    (hty : (s.node ip).type ≠ 0) (he : Editing start u ip ∅) (hx : Extends t u ip) :
    Wrote start s ip src off n tot u where
  editing := he
  apart := h.apart.trans hx.apart
  header := by rw [hx.header, h.header]
  keep k b hb := hx.keep k b (h.keep k b hb)
  read := h.read
  filled bn hbn := by
    obtain ⟨b, hb⟩ := Option.ne_none_iff_exists'.mp (h.filled bn hbn)
    rw [hx.keep _ _ hb]
    simp
  data hfull o ho := by
    obtain ⟨b, hb⟩ := h.owner_at hf hty ho
    rw [hx.byte hb]
    exact h.data hfull o ho

theorem Good.wrote_zero (h : Good start s) (hv : (s.itable ip).valid = true)
    (hoff : off ≤ (s.node ip).size) : Wrote start s ip src off n 0 s := by
  have hedit := h.editing hv
  refine ⟨hedit, Apart.refl s ip, rfl, fun _ _ hb => hb, fun a ha => absurd ha (Nat.not_lt_zero a),
    fun bn hbn => ?_, fun _ o _ => ?_⟩
  · exact h.filled ip hedit.type_ne bn (by omega)
  · rw [if_neg (by omega)]

theorem Editing.putData_byte (h : Editing start s ip R) {bn o : Nat} {c : BlockNo}
    (hb : s.owner (ip, place bn) = some b) (v : Block) (hne : o / bsize ≠ bn)
    (hc : s.owner (ip, place (o / bsize)) = some c) :
    (s.putBlock b v).byte ip o = s.byte ip o := by
  have hcb : c ≠ b := by
    rintro rfl
    exact hne (place_inj (Prod.mk.inj (h.owned.inj _ _ _ hc hb)).2)
  obtain ⟨-, -, howner⟩ := h.putData hb (place_ne_ndirect _) v
  rw [byte_eq hc, byte_eq (s := s.putBlock b v) (by rw [howner]; exact hc)]
  simp [putBlock, hcb]

theorem Wrote.round (h : Wrote start s ip src off n tot t) (hf : s.Filled ip)
    (hty : (s.node ip).type ≠ 0) {addr : BlockNo}
    (haddr : t.owner (ip, place ((off + tot) / bsize)) = some addr) {m : Nat} (hm1 : 1 ≤ m)
    (hm : (off + tot) % bsize + m ≤ bsize) (hn : tot + m ≤ n)
    (hcopy : (copyin src tot m).length = m) :
    Wrote start s ip src off n (tot + m)
      (t.putBlock addr (blit (t.block addr) ((off + tot) % bsize) (copyin src tot m))) := by
  generalize hv : blit (t.block addr) ((off + tot) % bsize) (copyin src tot m) = v
  obtain ⟨hedit, hap, howner⟩ := h.editing.putData haddr (place_ne_ndirect _) v
  have hdm := Nat.div_add_mod (off + tot) bsize
  refine ⟨hedit, h.apart.trans hap, h.header, fun k b hb => ?_, fun a ha => ?_, fun bn hbn => ?_,
    fun hfull o ho => ?_⟩
  · rw [howner]
    exact h.keep k b hb
  · by_cases hlow : a < tot
    · exact h.read a hlow
    · have hcopied := src_of_copyin hcopy (i := a - tot) (by omega)
      rwa [Nat.add_sub_cancel' (not_lt.mp hlow)] at hcopied
  · rw [howner]
    by_cases hlt : bn * bsize < off + tot
    · exact h.filled bn hlt
    · have hbn' : bn = (off + tot) / bsize := by
        have h1 : bn < (off + tot) / bsize + 1 := by
          have h2 : bn * bsize < ((off + tot) / bsize + 1) * bsize := by
            rw [Nat.add_mul, Nat.one_mul, Nat.mul_comm ((off + tot) / bsize)]
            omega
          exact lt_of_mul_lt_mul_right h2 (Nat.zero_le _)
        have h3 : (off + tot) / bsize ≤ bn := by
          by_contra hc
          have h4 : (bn + 1) * bsize ≤ (off + tot) / bsize * bsize :=
            Nat.mul_le_mul_right _ (by omega)
          have h5 := Nat.div_mul_le_self (off + tot) bsize
          rw [Nat.add_mul] at h4
          omega
        omega
      rw [hbn', haddr]
      simp
  · by_cases hblk : o / bsize = (off + tot) / bsize
    · have ho' : t.owner (ip, place (o / bsize)) = some addr := by rw [hblk, haddr]
      have hmod : o % bsize < bsize := Nat.mod_lt _ (by decide)
      have hodm := Nat.div_add_mod o bsize
      rw [hblk] at hodm
      rw [byte_eq (s := t.putBlock addr v) (by rw [howner]; exact ho')]
      have hself : (t.putBlock addr v).block addr = v := by simp [putBlock]
      rw [hself, ← hv, byteAt_blit _ _ _ hmod, ← byte_eq ho']
      by_cases hlow : o % bsize < (off + tot) % bsize
      · rw [if_pos hlow, h.data hfull o (by omega)]
        refine if_congr ?_ rfl rfl
        omega
      · rw [if_neg hlow]
        have hidx : o % bsize - (off + tot) % bsize = o - (off + tot) := by omega
        by_cases hin : o < off + tot + m
        · have hsrc : src (o - off) ≠ none := hfull _ (by omega)
          obtain ⟨x, hx⟩ := Option.ne_none_iff_exists'.mp hsrc
          rw [hidx, copyin_getElem? (by omega), if_pos (by omega),
            show tot + (o - (off + tot)) = o - off by omega, hx]
          rfl
        · have hnone : (copyin src tot m)[o - (off + tot)]? = none :=
            getElem?_eq_none (by omega)
          rw [hidx, hnone, if_neg (by omega), Option.getD_none, h.data hfull o (by omega)]
          refine if_neg (by omega)
    · have hold : o < (s.node ip).size ∨ o < off + tot := by
        by_contra hc
        refine hblk ?_
        have hb0 : 0 < bsize := by decide
        refine (Nat.div_eq_iff hb0).mpr ⟨?_, ?_⟩ <;> rw [Nat.mul_comm] <;> omega
      obtain ⟨c, hc⟩ := h.owner_at hf hty hold
      rw [h.editing.putData_byte haddr v hblk hc, h.data hfull o hold]
      refine if_congr ?_ rfl rfl
      constructor
      · omega
      · rintro ⟨h1, h2⟩
        refine ⟨h1, ?_⟩
        by_contra hc'
        refine hblk ?_
        have hb0 : 0 < bsize := by decide
        refine (Nat.div_eq_iff hb0).mpr ⟨?_, ?_⟩ <;> rw [Nat.mul_comm] <;> omega

theorem Wrote.partly (h : Wrote start s ip src off n tot t) {addr : BlockNo}
    (haddr : t.owner (ip, place ((off + tot) / bsize)) = some addr) {m : Nat} (hn : tot + m ≤ n)
    (hcopy : (copyin src tot m).length < m) (v : Block) :
    Wrote start s ip src off n tot (t.putBlock addr v) := by
  obtain ⟨hedit, hap, howner⟩ := h.editing.putData haddr (place_ne_ndirect _) v
  refine ⟨hedit, h.apart.trans hap, h.header, fun k b hb => ?_, h.read, fun bn hbn => ?_,
    fun hfull => ?_⟩
  · rw [howner]
    exact h.keep k b hb
  · rw [howner]
    exact h.filled bn hbn
  · have hlen : (copyin src tot m).length = m := copyin_full (fun i hi => hfull _ (by omega))
    omega

/-- Where the rounds may stop: at the start, at the end, or between two blocks. -/
def StopsAt (off n tot : Nat) : Prop := tot = 0 ∨ tot = n ∨ (off + tot) % bsize = 0

theorem stopsAt_round {m : Nat} (hm : min (n - tot) (bsize - (off + tot) % bsize) = m)
    (hlt : tot < n) : StopsAt off n (tot + m) := by
  have hmod : (off + tot) % bsize < bsize := Nat.mod_lt _ (by decide)
  rcases le_total (n - tot) (bsize - (off + tot) % bsize) with hle | hle
  · exact .inr (.inl (by omega))
  · right
    right
    rw [min_eq_right hle] at hm
    have hdm := Nat.div_add_mod (off + tot) bsize
    have he : off + (tot + m) = bsize * ((off + tot) / bsize + 1) := by
      rw [Nat.mul_add]
      omega
    rw [he, Nat.mul_mod_right]

theorem Wrote.strays (h : Wrote start s ip src off n tot t) (hn : n ≤ tot) :
    Strays s ip src off n tot u :=
  fun a hb => absurd hb.2.1 (h.read a (lt_of_lt_of_le hb.1 hn))

theorem Wrote.strays_put (h : Wrote start s ip src off n tot t) {addr : BlockNo}
    (haddr : t.owner (ip, place ((off + tot) / bsize)) = some addr) {m : Nat}
    (hm : m ≤ bsize - (off + tot) % bsize) (hshort : (copyin src tot m).length < m) :
    Strays s ip src off n tot
      (t.putBlock addr (blit (t.block addr) ((off + tot) % bsize) (copyin src tot m))) := by
  rintro a ⟨-, -, hbefore⟩ - p hp hlt
  have hlen : a ≤ tot + (copyin src tot m).length := by
    by_contra hgt
    exact hbefore _ (not_le.mp hgt) (copyin_stops hshort)
  have hat : p / bsize = (off + tot) / bsize ∧
      p % bsize = (off + tot) % bsize + (p - (off + tot)) := by
    simp only [bsize] at *
    omega
  have hsrc : (copyin src tot m)[p - (off + tot)]? = src (p - off) := by
    rw [copyin_getElem? (by omega)]
    congr 1
    omega
  obtain ⟨x, hx⟩ := Option.ne_none_iff_exists'.mp (hbefore (p - off) (by omega))
  generalize hv : blit (t.block addr) ((off + tot) % bsize) (copyin src tot m) = v
  have hthere : (t.putBlock addr v).owner (ip, place (p / bsize)) = some addr := by
    rw [(h.editing.putData haddr (place_ne_ndirect _) v).2.2, hat.1, haddr]
  have hblock : (t.putBlock addr v).block addr = v := Function.update_self _ _ _
  rw [byte_eq hthere, hblock, hat.2, ← hv, byteAt_blit _ _ _ (by omega), if_neg (by omega),
    Nat.add_sub_cancel_left, hsrc, hx]
  rfl

theorem Wrote.bmap_within (h : Wrote start s ip src off n tot t) (hf : s.Filled ip)
    (hty : (s.node ip).type ≠ 0) {E : String → Prop}
    (hb : Ends (bmap ip ((off + tot) / bsize)) t (fun _ _ => True) E) :
    Ends (bmap ip ((off + tot) / bsize)) t
      (fun addr _ => off + tot < (s.node ip).size → addr ≠ 0) E := by
  by_cases hlt : off + tot < (s.node ip).size
  · obtain ⟨c, hc⟩ := hf.owner_at hty hlt
    exact Ends.of_ok (bmap_present h.editing.valid (h.keep _ _ hc))
      (fun _ => h.editing.owner_ne_zero (h.keep _ _ hc))
  · exact hb.post (fun _ _ _ hlt' => absurd hlt' hlt)

theorem writeLoop_spec (hf : s.Filled ip) (hty : (s.node ip).type ≠ 0)
    (htx : 1 ≤ s.outstanding) (hmax : off + n ≤ maxfile * bsize) (fuel tot : Nat)
    (ht : Wrote start s ip src off n tot t) (htot : tot ≤ n) (hstop : StopsAt off n tot)
    (hfuel : n - tot ≤ fuel) :
    Ends (writeLoop ip src n fuel (off + tot) tot) t (fun r u => ∃ tot', r = (tot', off + tot') ∧
      tot' ≤ n ∧ StopsAt off n tot' ∧ Wrote start s ip src off n tot' u ∧
      Strays s ip src off n tot' u) E := by
  induction fuel generalizing tot t with
  | zero => exact Ends.pure ⟨tot, rfl, htot, hstop, ht, ht.strays (by omega)⟩
  | succ fuel ih =>
    unfold writeLoop
    split_ifs with hlt
    · have hbn : (off + tot) / bsize < maxfile :=
        (Nat.div_lt_iff_lt_mul (by decide)).mpr (by omega)
      have htx' : 1 ≤ t.outstanding := by rw [ht.apart.outstanding]; exact htx
      have hbmap := bmap_spec ht.editing htx' hbn (E := E)
      refine (hbmap.and (ht.bmap_within hf hty (hbmap.post (fun _ _ _ => trivial)))).bind ?_
      rintro addr u ⟨⟨hedit, hext, haddr, -⟩, hne⟩
      have hw := ht.extend hf hty hedit hext
      split_ifs with hz
      · exact Ends.pure ⟨tot, rfl, htot, hstop, hw, fun a _ hin p hp hlt =>
          absurd hz (hne (by omega))⟩
      · have howner := haddr.resolve_left hz
        refine Ends.get_bind ?_
        dsimp only
        generalize hm : min (n - tot) (bsize - (off + tot) % bsize) = m
        have hmod : (off + tot) % bsize < bsize := Nat.mod_lt _ (by decide)
        refine Ends.bind_ok (m := setBlock addr _) (t := u.putBlock addr
          (blit (u.block addr) ((off + tot) % bsize) (copyin src tot m))) rfl ?_
        split_ifs with hshort
        · exact Ends.pure ⟨tot, rfl, htot, hstop, hw.partly howner (by omega) hshort _,
            hw.strays_put howner (by omega) hshort⟩
        · have hlen : (copyin src tot m).length = m :=
            le_antisymm (copyin_length_le _ _ _) (not_lt.mp hshort)
          have htx'' : 1 ≤ u.outstanding := by rw [hw.apart.outstanding]; exact htx
          refine Ends.bind_ok (logWrite_run (by exact htx'')) ?_
          rw [Nat.add_assoc]
          exact ih (tot + m) (hw.round hf hty howner (by omega) (by omega) (by omega) hlen)
            (by omega) (stopsAt_round hm hlt) (by omega)
    · exact Ends.pure ⟨tot, rfl, htot, hstop, ht, ht.strays (not_lt.mp hlt)⟩

theorem Fs.owner_maxfile (s : Fs) (i : Nat) : s.owner (i, place maxfile) = none := by
  have hplace : place maxfile = ndirect + nindirect + 1 := by decide
  refine if_pos (.inr ?_)
  dsimp only
  rw [hplace]
  unfold slot
  rw [if_neg (by omega), if_pos (.inr (by omega))]

theorem Fs.Filled.size_le (hf : s.Filled ip) (hty : (s.node ip).type ≠ 0) :
    (s.node ip).size ≤ maxfile * bsize := by
  by_contra hgt
  exact hf hty maxfile (by omega) (s.owner_maxfile ip)

/-- What `writei` leaves when it has written `tot` of the `n` bytes. -/
structure Written (start : Nat) (s : Fs) (ip : Nat) (src : Nat → Option Byte) (off n tot : Nat)
    (t : Fs) : Prop where
  good : Good start t
  apart : Apart s t ip
  le : tot ≤ n
  stops : StopsAt off n tot
  header : t.node ip =
    { s.node ip with size := max (s.node ip).size (off + tot), addrs := (t.node ip).addrs }
  read : ∀ a < tot, src a ≠ none
  strays : Strays s ip src off n tot t
  data : (∀ a < n, src a ≠ none) → ∀ o < max (s.node ip).size (off + tot),
    t.byte ip o = if off ≤ o ∧ o < off + tot then (src (o - off)).getD 0 else s.byte ip o

theorem growTo_run (hv : (t.itable ip).valid = true) : growTo ip off t = .ok ((),
    if off > (t.node ip).size then t.edit ip (fun d => { d with size := off }) else t) := by
  rw [growTo, bind_ok (m := inode ip) (a := (t.itable ip).copy) rfl, ← node_of_valid hv]
  split_ifs <;> rfl

/-- `growTo` and `iupdate` leave the bytes as they are. -/
theorem Editing.grown_byte (h : Editing start t ip R) (size o : Nat) :
    ((if size > (t.node ip).size then t.edit ip (fun d => { d with size := size })
      else t).sync ip).byte ip o = t.byte ip o := by
  unfold byte
  split_ifs
  · rw [(h.edit (f := fun d => { d with size := size }) rfl h.type_ne).1.sync_node ip,
      t.edit_node h.valid]
    rfl
  · rw [h.sync_node ip]
    rfl

theorem Wrote.written (h : Wrote start s ip src off n tot t) (hf : s.Filled ip) (hle : tot ≤ n)
    (hstop : StopsAt off n tot) (hstrays : Strays s ip src off n tot t) :
    Written start s ip src off n tot
      ((if off + tot > (t.node ip).size then t.edit ip (fun d => { d with size := off + tot })
        else t).sync ip) := by
  have hty : (s.node ip).type ≠ 0 := by
    have h1 := h.editing.type_ne
    rwa [h.header] at h1
  generalize hg : (if off + tot > (t.node ip).size then
    t.edit ip (fun d => { d with size := off + tot }) else t) = g
  have hsize : (t.node ip).size = (s.node ip).size := by rw [h.header]
  have hgrown : Editing start g ip ∅ ∧ g.owner = t.owner ∧ Apart t g ip ∧
      g.node ip = { t.node ip with size := max (s.node ip).size (off + tot) } := by
    by_cases hgt : off + tot > (t.node ip).size
    · rw [if_pos hgt] at hg
      subst hg
      obtain ⟨hedit, howner⟩ := h.editing.edit (f := fun d => { d with size := off + tot }) rfl
        h.editing.type_ne
      refine ⟨hedit, howner, Apart.edit t ip _, ?_⟩
      rw [t.edit_node h.editing.valid, max_eq_right (by omega)]
    · rw [if_neg hgt] at hg
      subst hg
      refine ⟨h.editing, rfl, Apart.refl t ip, ?_⟩
      rw [max_eq_left (by omega), ← hsize]
  obtain ⟨hedit, howner, hap, hnode⟩ := hgrown
  have hsync : (g.sync ip).node ip = g.node ip := hedit.sync_node ip
  have hown : (g.sync ip).owner = t.owner := hedit.sync.2.trans howner
  have hfilled : (g.sync ip).Filled ip := by
    intro _ bn hbn
    rw [hsync, hnode] at hbn
    rw [hown]
    rcases lt_max_iff.mp hbn with hbn | hbn
    · obtain ⟨b, hb⟩ := Option.ne_none_iff_exists'.mp (hf hty bn hbn)
      rw [h.keep _ _ hb]
      simp
    · exact h.filled bn hbn
  refine ⟨hedit.sync.1.good hfilled (by simp [sync]),
    h.apart.trans (hap.trans (Apart.sync g ip)), hle, hstop, ?_, h.read, fun a hb hin p hp hlt => ?_,
    fun hfull o ho => ?_⟩
  · rw [hsync, hnode, h.header]
  · rw [← hg, h.editing.grown_byte]
    exact hstrays a hb hin p hp hlt
  · rw [← hg, h.editing.grown_byte]
    exact h.data hfull o (lt_max_iff.mp ho)

/-- `writei` under the lock of the inode, in a transaction. -/
theorem writei_spec (h : Good start s) (hv : (s.itable ip).valid = true)
    (htx : 1 ≤ s.outstanding) (src : Nat → Option Byte) (off : Nat) (hn : n < 2 ^ 32) :
    Ends (writei ip src off n) s (fun r t => (r = -1 ∧ t = s) ∨
      ∃ tot : Nat, r = tot ∧ off ≤ (s.node ip).size ∧ Written start s ip src off n tot t) E := by
  have hnode := node_of_valid hv
  have hedit := h.editing hv
  refine Ends.bind_ok (m := inode ip) (a := (s.itable ip).copy) rfl ?_
  rw [← hnode]
  by_cases hg : off > (s.node ip).size ∨ u32 (off + n) < off
  · rw [if_pos hg]
    exact Ends.pure (.inl ⟨rfl, rfl⟩)
  · rw [if_neg hg]
    split_ifs with hbig
    · exact Ends.pure (.inl ⟨rfl, rfl⟩)
    · obtain ⟨h1, h2⟩ := not_or.mp hg
      have hsmall : maxfile * bsize < 2 ^ 31 := by decide
      have hmax : off + n ≤ maxfile * bsize := by
        unfold u32 at h2 hbig
        omega
      have hstart : Wrote start s ip src off n 0 s := h.wrote_zero hv (by omega)
      refine (writeLoop_spec (h.filled ip) hedit.type_ne htx hmax n 0 hstart (Nat.zero_le _)
        (.inl rfl) (by omega)).bind ?_
      rintro r t ⟨tot, rfl, htot, hstop, ht, hstrays⟩
      refine Ends.bind_ok (growTo_run ht.editing.valid) ?_
      have htx' : 1 ≤ t.outstanding := by rw [ht.apart.outstanding]; exact htx
      refine Ends.bind_ok (iupdate_run (by split_ifs <;> exact htx')) ?_
      exact Ends.pure (.inr ⟨tot, rfl, by omega, ht.written (h.filled ip) htot hstop hstrays⟩)

end Writing

end Xv6
