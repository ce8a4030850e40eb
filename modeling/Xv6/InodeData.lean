import Xv6.Records
import Xv6.Inodes

/-! Allocation of an inode, changes of its header, and reading and writing its
content, as operations on the inodes. -/

namespace Xv6

open LittleEndian Fallible FsM Records Function List Fs

def FsM.amend (ip : Nat) (f : Dinode → Dinode) : FsM Unit := do
  FsM.edit ip f
  iupdate ip

def Node.fresh (type : Int) : Node := ⟨type, 0, 0, 0, []⟩

section Allocating

variable {start : Nat} {s t : Fs} {ip i : Nat} {n : Node} {E : String → Prop}

def Fs.install (s : Fs) (i : Nat) (type : Int) : Fs :=
  { s with dinode := Function.update s.dinode i { type := type } }

theorem Good.header (h : Good start s) {d : Dinode} (hsize : d.size = 0)
    (haddrs : d.addrs = fun _ => 0) (hfree : s.view i = none) (hi : 1 ≤ i ∧ i < s.sb.ninodes) :
    Good start { s with dinode := update s.dinode i d } ∧
      ({ s with dinode := update s.dinode i d } : Fs).owner = s.owner := by
  generalize htdef : ({ s with dinode := update s.dinode i d } : Fs) = t
  have hv := h.not_valid_of_free hfree
  have hself : t.node i = d := by
    simp [← htdef, node, hv]
  have hother : ∀ j, j ≠ i → t.node j = s.node j := by
    intro j hj
    simp [← htdef, node, hj]
  have hslot : ∀ k, slot t.block d k = 0 := by
    intro k
    simp [slot, haddrs]
  have howner : t.owner = s.owner := by
    funext p
    obtain ⟨j, k⟩ := p
    by_cases hj : j = i
    · subst hj
      have h1 : t.owner (j, k) = none := by
        unfold owner
        rw [hself]
        exact if_pos (.inr (hslot k))
      have h2 : s.owner (j, k) = none := if_pos (.inl (view_eq_none.mp hfree))
      rw [h1, h2]
    · exact owner_congr (hother j hj) (fun _ _ => by rw [← htdef]) k
  refine ⟨⟨h.start_pos, by rw [← htdef]; exact h.size_lt, ?_, fun j hty bn hbn => ?_,
    fun j hvj => ?_, by rw [← htdef]; exact h.typed, fun j hty => ?_⟩, howner⟩
  · unfold Fs.Owned
    rw [howner, ← htdef]
    exact h.owned
  · by_cases hj : j = i
    · rw [hj, hself, hsize] at hbn
      exact absurd hbn (Nat.not_lt_zero _)
    · rw [hother j hj] at hty hbn
      rw [howner]
      exact h.filled j hty bn hbn
  · rw [← htdef] at hvj ⊢
    have hj : j ≠ i := fun he => by
      have hvi : (s.itable i).valid = true := he ▸ hvj
      simp [hv] at hvi
    have hd : update s.dinode i d j = s.dinode j := update_of_ne hj _ _
    dsimp only
    rw [hd]
    exact h.synced j hvj
  · rw [← htdef]
    by_cases hj : j = i
    · rw [hj]
      exact hi
    · rw [hother j hj] at hty
      exact h.bounded j hty

theorem Good.install (h : Good start s) {type : Int} (ht : type ≠ 0) (hfree : s.view i = none)
    (hi : 1 ≤ i ∧ i < s.sb.ninodes) :
    Becomes start s (s.install i type) (s.inodes.put i (some (Node.fresh type))) := by
  obtain ⟨hgood, -⟩ := h.header (d := { type := type }) rfl rfl hfree hi
  have hself : (s.install i type).node i = { type := type } := by
    simp [Fs.node, Fs.install, h.not_valid_of_free hfree]
  have hview : (s.install i type).view = update s.view i (some (Node.fresh type)) := by
    funext j
    by_cases hj : j = i
    · subst hj
      rw [update_self, Fs.view, hself, if_neg ht]
      simp [Fs.content, hself, Node.fresh]
    · have hother : (s.install i type).node j = s.node j := by
        simp [Fs.node, Fs.install, hj]
      rw [update_of_ne hj]
      unfold Fs.view Fs.content Fs.byte
      rw [hother]
      rfl
  refine ⟨hgood, rfl, rfl, ?_⟩
  unfold Fs.inodes Inodes.put
  rw [hview]
  rfl

theorem ialloc_spec (h : Good start s) {type : Int} (ht : type ≠ 0) (htx : 1 ≤ s.outstanding)
    (hroom : ninode ≤ s.inuse → E "iget: no inodes") :
    Ends (ialloc type) s (fun r t => (r = none ∧ t = s) ∨ ∃ i, r = some i ∧ s.view i = none ∧
      (1 ≤ i ∧ i < s.sb.ninodes) ∧
      Becomes start s t ((s.inodes.put i (some (Node.fresh type))).get i)) E := by
  refine Ends.get_bind ?_
  cases hf : (range s.sb.ninodes).find? (fun i => 1 ≤ i ∧ (s.dinode i).type = 0) with
  | none => exact Ends.pure (.inl ⟨rfl, rfl⟩)
  | some i =>
    have hlt := mem_range.mp (mem_of_find?_eq_some hf)
    have hp := find?_some hf
    simp only [decide_eq_true_eq] at hp
    have hfree : s.view i = none := by
      rw [view_eq_none, h.node_dinode]
      exact hp.2
    have hb := h.install ht hfree ⟨hp.1, hlt⟩
    refine Ends.set_bind (Ends.bind_ok (logWrite_run (by exact htx)) ?_)
    refine (iget_spec (i := i) hb.good (fun _ hfull => hroom hfull)).bind (fun _ t hg => ?_)
    refine Ends.pure (.inr ⟨i, rfl, hfree, ⟨hp.1, hlt⟩, ?_⟩)
    rw [hb.inodes] at hg
    exact hb.trans hg

theorem amend_spec (h : Good start s) (hl : s.inodes.loaded ip = true) (htx : 1 ≤ s.outstanding)
    (hn : s.view ip = some n) {f : Dinode → Dinode} (hf : ∀ d, (f d).addrs = d.addrs ∧
      (f d).size = d.size ∧ (f d).type = d.type) :
    Ends (amend ip f) s (fun _ t => Becomes start s t (s.inodes.put ip (some { n with
      major := (f (s.node ip)).major
      minor := (f (s.node ip)).minor
      nlink := (f (s.node ip)).nlink }))) E := by
  obtain ⟨hty, hty0, -, -, -, hdata⟩ := view_eq_some hn
  have hv := (loaded_iff.mp hl).2
  have hnode := s.edit_node hv f
  obtain ⟨hedit, howner⟩ := (h.editing hv).edit (f := f) (hf _).1 (by rw [(hf _).2.2, hty]; exact hty0)
  refine Ends.bind_ok (m := FsM.edit ip f) (t := s.edit ip f) rfl ?_
  refine Ends.of_ok (iupdate_run (by exact htx)) ?_
  have hsync := hedit.sync_node ip
  have hg : Good start ((s.edit ip f).sync ip) := by
    refine hedit.sync.1.good (fun _ bn hbn => ?_) (by simp [sync])
    rw [hsync, hnode, (hf _).2.1] at hbn
    rw [hedit.sync.2, howner]
    exact h.filled ip (h.editing hv).type_ne bn hbn
  have hview : ((s.edit ip f).sync ip).view ip = some { n with
      major := (f (s.node ip)).major
      minor := (f (s.node ip)).minor
      nlink := (f (s.node ip)).nlink } := by
    have hslot : ∀ k, slot s.block (f (s.node ip)) k = slot s.block (s.node ip) k := by
      intro k
      unfold slot
      rw [(hf _).1]
    have hcontent : ((s.edit ip f).sync ip).content ip = n.data := by
      rw [← hdata]
      unfold content byte
      rw [hsync, hnode, (hf _).2.1]
      refine map_congr_left (fun o _ => ?_)
      have hblk : ((s.edit ip f).sync ip).block = s.block := rfl
      rw [hblk, hslot]
    unfold view
    rw [hcontent, hsync, hnode, (hf _).2.2, hty, if_neg hty0]
  rw [← hview]
  exact ((Apart.edit s ip f).trans (Apart.sync _ ip)).becomes h hg

theorem amend_nlink (h : Good start s) (hl : s.inodes.loaded ip = true) (htx : 1 ≤ s.outstanding)
    (hn : s.view ip = some n) (g : Int → Int) :
    Ends (amend ip (fun d => { d with nlink := g d.nlink })) s (fun _ t =>
      Becomes start s t (s.inodes.put ip (some { n with nlink := g n.nlink }))) E := by
  obtain ⟨-, -, hmaj, hmin, hnl, -⟩ := view_eq_some hn
  refine (amend_spec h hl htx hn (f := fun d => { d with nlink := g d.nlink })
    (fun _ => ⟨rfl, rfl, rfl⟩)).post (fun _ t ht => ?_)
  simp only [hmaj, hmin, hnl] at ht
  exact ht

theorem amend_header (h : Good start s) (hl : s.inodes.loaded ip = true)
    (htx : 1 ≤ s.outstanding) (hn : s.view ip = some n) (major minor nlink : Int) :
    Ends (amend ip (fun d => { d with major := major, minor := minor, nlink := nlink })) s
      (fun _ t => Becomes start s t (s.inodes.put ip
        (some { n with major := major, minor := minor, nlink := nlink }))) E :=
  amend_spec h hl htx hn (fun _ => ⟨rfl, rfl, rfl⟩)

end Allocating

section Data

variable {start : Nat} {s t : Fs} {ip off m tot : Nat} {n : Node} {src : Nat → Option Byte}
  {E : String → Prop}

theorem Fs.view_size (hn : s.view ip = some n) : (s.node ip).size = n.data.length := by
  rw [← (view_eq_some hn).2.2.2.2.2]
  simp [content]

theorem Fs.getElem?_data (hn : s.view ip = some n) {o : Nat} (ho : o < n.data.length) :
    n.data[o]? = some (s.byte ip o) := by
  have hs := view_size hn
  rw [← (view_eq_some hn).2.2.2.2.2]
  unfold content
  rw [getElem?_map, getElem?_range (by omega)]
  rfl

theorem Fs.bytes_eq (hn : s.view ip = some n) (hm : off + m ≤ n.data.length) :
    s.bytes ip off m = (n.data.drop off).take m := by
  refine ext_getElem? (fun j => ?_)
  unfold bytes
  by_cases hj : j < m
  · rw [getElem?_map, getElem?_range hj, getElem?_take_of_lt hj,
      getElem?_drop, getElem?_data hn (by omega)]
    rfl
  · rw [getElem?_eq_none (by simpa using hj), getElem?_eq_none]
    rw [length_take]
    omega

theorem readi_view (hv : (s.itable ip).valid = true) (hf : s.Filled ip)
    (hn : s.view ip = some n) (dst : Nat → Bool) (off : Nat) (hm : m < 2 ^ 32) :
    Ends (readi ip dst off m) s (fun r u => u = s ∧ ((∀ i < m, dst i = true) →
      off ≤ n.data.length → off + m < 2 ^ 32 →
      r = ((((n.data.drop off).take m).length : Int), (n.data.drop off).take m)))
      (fun _ => False) := by
  have hsize := view_size hn
  obtain ⟨hty, hty0, -⟩ := view_eq_some hn
  refine (readi_spec hv hf (by rwa [hty]) dst off hm).post
    (fun r u hu => ⟨hu.1, fun hd hoff hlt => ?_⟩)
  rw [hu.2 hd (by omega) hlt, hsize]
  have hb : s.bytes ip off (min m (n.data.length - off)) =
      (n.data.drop off).take (min m (n.data.length - off)) := bytes_eq hn (by omega)
  have htake : (n.data.drop off).take (min m (n.data.length - off)) = (n.data.drop off).take m := by
    rw [take_eq_take_iff, length_drop]
    omega
  rw [hb, htake, length_take, length_drop]

theorem readi_becomes (h : Good start s) (hl : s.inodes.loaded ip = true)
    (hn : s.view ip = some n) (dst : Nat → Bool) (off : Nat) (hm : m < 2 ^ 32) :
    Ends (readi ip dst off m) s (fun r u => u = s ∧ ((∀ i < m, dst i = true) →
      off ≤ n.data.length → off + m < 2 ^ 32 →
      r = ((((n.data.drop off).take m).length : Int), (n.data.drop off).take m)))
      (fun _ => False) :=
  readi_view (loaded_iff.mp hl).2 (h.filled ip) hn dst off hm

theorem Written.content (h : Written start s ip src off m tot t) (hn : s.view ip = some n)
    (hoff : off ≤ n.data.length) (hfull : ∀ a < m, src a ≠ none) :
    t.content ip = splice n.data off ((List.range tot).map (fun a => (src a).getD 0)) := by
  have hsize := view_size hn
  have htsize : (t.node ip).size = max n.data.length (off + tot) := by
    rw [h.header, hsize]
  refine ext_getElem? (fun o => ?_)
  rw [getElem?_splice hoff, length_map, length_range]
  unfold Fs.content
  by_cases ho : o < max n.data.length (off + tot)
  · rw [getElem?_map, getElem?_range (by omega), Option.map_some,
      h.data hfull o (by rw [hsize]; exact ho)]
    split_ifs with hin
    · rw [getElem?_map, getElem?_range (by omega)]
      rfl
    · rw [getElem?_data hn (by omega)]
  · rw [getElem?_eq_none (by simpa [htsize] using ho), if_neg (by omega),
      getElem?_eq_none (by omega)]

theorem Written.becomes (h : Written start s ip src off m tot t) (hs : Good start s)
    (hn : s.view ip = some n) :
    Becomes start s t (s.inodes.put ip (some { n with data := t.content ip })) := by
  obtain ⟨hty, hty0, hmaj, hmin, hnl, -⟩ := view_eq_some hn
  have hview : t.view ip = some { n with data := t.content ip } := by
    unfold view
    rw [h.header]
    simp only [hty, hmaj, hmin, hnl]
    rw [if_neg hty0]
  rw [← hview]
  exact h.apart.becomes hs h.good

theorem writei_becomes (h : Good start s) (hl : s.inodes.loaded ip = true)
    (htx : 1 ≤ s.outstanding) (hn : s.view ip = some n) (src : Nat → Option Byte) (off : Nat)
    (hm : m < 2 ^ 32) :
    Ends (writei ip src off m) s (fun r t => (r = -1 ∧ t = s) ∨ ∃ (tot : Nat) (data : List Byte),
      r = tot ∧ tot ≤ m ∧ data.length = max n.data.length (off + tot) ∧
      Becomes start s t (s.inodes.put ip (some { n with data := data }))) E := by
  refine (writei_spec h (loaded_iff.mp hl).2 htx src off hm).post ?_
  rintro r t (ht | ⟨tot, hr, -, hw⟩)
  · exact .inl ht
  · refine .inr ⟨tot, t.content ip, hr, hw.le, ?_, hw.becomes h hn⟩
    unfold content
    rw [length_map, length_range, hw.header, view_size hn]

theorem map_range_getElem {bs : List Byte} (h : tot ≤ bs.length) :
    (List.range tot).map (fun a => (bs[a]?).getD 0) = bs.take tot := by
  refine ext_getElem? (fun a => ?_)
  by_cases ha : a < tot
  · rw [getElem?_map, getElem?_range ha, getElem?_take_of_lt ha]
    simp [getElem?_eq_getElem (show a < bs.length by omega)]
  · rw [getElem?_eq_none (by simpa using ha), getElem?_eq_none (by rw [length_take]; omega)]

theorem writei_kernel (h : Good start s) (hl : s.inodes.loaded ip = true)
    (htx : 1 ≤ s.outstanding) (hn : s.view ip = some n) (bs : List Byte) (off : Nat)
    (hbs : bs.length < 2 ^ 32) :
    Ends (writei ip (fun a => bs[a]?) off bs.length) s (fun r t => (r = -1 ∧ t = s) ∨
      ∃ tot : Nat, r = tot ∧ tot ≤ bs.length ∧ StopsAt off bs.length tot ∧
      off ≤ n.data.length ∧
      Becomes start s t (s.inodes.put ip (some { n with
        data := splice n.data off (bs.take tot) }))) E := by
  refine (writei_spec h (loaded_iff.mp hl).2 htx _ off hbs).post ?_
  rintro r t (ht | ⟨tot, hr, hoff, hw⟩)
  · exact .inl ht
  · rw [view_size hn] at hoff
    have hfull : ∀ a < bs.length, bs[a]? ≠ none := by
      intro a ha
      simpa using ha
    have hcontent := hw.content hn hoff hfull
    rw [map_range_getElem hw.le] at hcontent
    have hb := hw.becomes h hn
    rw [hcontent] at hb
    exact .inr ⟨tot, hr, hw.le, hw.stops, hoff, hb⟩

end Data

end Xv6
