import Xv6.SharedWrites

/-! An inode is an array of bytes: `writei` replaces a part of it, or makes it longer,
and `readi` returns a part of it. -/

namespace Xv6

open LittleEndian Fallible FsM Records List Fs

def Fs.Full (s : Fs) : Prop := ∀ b < s.sb.size, s.bitmap (BitVec.ofNat 32 b) = true

section Bytes

variable {start : Nat} {s t : Fs} {ip k off m : Nat} {n : Node} {src : Nat → Option Byte}
  {E : String → Prop}

theorem balloc_zero (h : Editing start s ip ∅) (htx : 1 ≤ s.outstanding) :
    Ends balloc s (fun b t => b = 0 → t.Full) E := by
  rcases balloc_cases htx with ⟨hr, hfull⟩ | ⟨b, hb, hbit, hr⟩
  · exact Ends.of_ok hr (fun _ => hfull)
  · have hlt : (BitVec.ofNat 32 b).toNat < s.sb.size := by rwa [toNat_ofNat_lt h hb]
    obtain ⟨hedit, -, -⟩ := h.take hlt hbit
    exact Ends.of_ok hr (fun hz => absurd hz (hedit.reserved_ne_zero (Set.mem_insert _ _)))

theorem addrAt_zero (h : Editing start s ip ∅) (htx : 1 ≤ s.outstanding) :
    Ends (addrAt ip k) s (fun b t => b = 0 → t.Full) E := by
  refine Ends.bind_ok (m := inode ip) (a := (s.itable ip).copy) rfl ?_
  split_ifs with hz
  · refine (balloc_zero h htx).bind (fun b t hfull => ?_)
    split_ifs with hb
    · exact Ends.pure (fun _ => hfull hb)
    · exact Ends.bind_ok (m := setAddr ip k b) (t := t.putAddr ip k b) rfl
        (Ends.pure (fun hz => absurd hz hb))
  · exact Ends.pure (fun hz' => absurd hz' hz)

theorem indirectAt_zero (h : Editing start s ip ∅) (htx : 1 ≤ s.outstanding) {ind : BlockNo}
    {j : Nat} : Ends (indirectAt ind j) s (fun b t => b = 0 → t.Full) E := by
  refine Ends.get_bind ?_
  split_ifs with hz
  · refine ((balloc_spec h htx).and (balloc_zero h htx (E := E))).bind ?_
    rintro b t ⟨hspec, hfull⟩
    split_ifs with hb
    · exact Ends.pure (fun _ => hfull hb)
    · have htx' : 1 ≤ t.outstanding := by
        rcases hspec with ⟨-, rfl⟩ | ⟨-, -, rfl, -⟩
        · exact htx
        · exact htx
      exact Ends.modify_bind (Ends.bind_ok (logWrite_run (by exact htx'))
        (Ends.pure (fun hz => absurd hz hb)))
  · exact Ends.pure (fun hz' => absurd hz' hz)

theorem bmap_zero (h : Editing start s ip ∅) (htx : 1 ≤ s.outstanding) {bn : Nat}
    (hbn : bn < maxfile) : Ends (bmap ip bn) s (fun b t => b = 0 → t.Full) E := by
  unfold bmap
  by_cases hd : bn < ndirect
  · rw [if_pos hd]
    exact addrAt_zero h htx
  · have hj : bn - ndirect < nindirect := by
      simp only [maxfile] at hbn
      omega
    rw [if_neg hd, if_pos hj]
    refine ((addrAt_spec h htx le_rfl).and (addrAt_zero h htx (E := E))).bind ?_
    rintro ind t ⟨⟨hedit, hext, -⟩, hfull⟩
    split_ifs with hz
    · exact Ends.pure (fun _ => hfull hz)
    · exact indirectAt_zero hedit (by rw [hext.apart.outstanding]; exact htx)

theorem writeLoop_short (hf : s.Filled ip) (hty : (s.node ip).type ≠ 0)
    (htx : 1 ≤ s.outstanding) (hmax : off + m ≤ maxfile * bsize) (hsrc : ∀ a < m, src a ≠ none)
    (fuel tot : Nat) (ht : Wrote start s ip src off m tot t) (hfuel : m - tot ≤ fuel) :
    Ends (writeLoop ip src m fuel (off + tot) tot) t (fun r u => r.1 < m → u.Full) E := by
  induction fuel generalizing tot t with
  | zero => exact Ends.pure (fun hlt => by dsimp only at hlt; omega)
  | succ fuel ih =>
    unfold writeLoop
    split_ifs with hlt
    · have hbn : (off + tot) / bsize < maxfile :=
        (Nat.div_lt_iff_lt_mul (by decide)).mpr (by omega)
      have htx' : 1 ≤ t.outstanding := by rw [ht.apart.outstanding]; exact htx
      refine ((bmap_spec ht.editing htx' hbn).and (bmap_zero ht.editing htx' hbn (E := E))).bind ?_
      rintro addr u ⟨⟨hedit, hext, haddr, -⟩, hfull⟩
      have hw := ht.extend hf hty hedit hext
      split_ifs with hz
      · exact Ends.pure (fun _ => hfull hz)
      · refine Ends.get_bind ?_
        dsimp only
        generalize hm : min (m - tot) (bsize - (off + tot) % bsize) = d
        have hmod : (off + tot) % bsize < bsize := Nat.mod_lt _ (by decide)
        refine Ends.bind_ok (m := setBlock addr _) (t := u.putBlock addr
          (blit (u.block addr) ((off + tot) % bsize) (copyin src tot d))) rfl ?_
        have hlen : (copyin src tot d).length = d := copyin_full (fun i hi => hsrc _ (by omega))
        rw [if_neg (by omega)]
        have htx'' : 1 ≤ u.outstanding := by rw [hw.apart.outstanding]; exact htx
        refine Ends.bind_ok (logWrite_run (by exact htx'')) ?_
        rw [Nat.add_assoc]
        exact ih (tot + d) (hw.round hf hty (haddr.resolve_left hz) (by omega) (by omega)
          (by omega) hlen) (by omega)
    · exact Ends.pure (fun hlt' => absurd hlt' hlt)

def Refused (size off m : Nat) : Prop :=
  off > size ∨ 2 ^ 32 ≤ off + m ∨ off + m > maxfile * bsize

instance (size off m : Nat) : Decidable (Refused size off m) :=
  inferInstanceAs (Decidable (_ ∨ _ ∨ _))

theorem refused_iff {size : Nat} (hm : m < 2 ^ 32) : Refused size off m ↔
    (off > size ∨ u32 (off + m) < off) ∨ u32 (off + m) > maxfile * bsize := by
  have hsmall : maxfile * bsize < 2 ^ 32 := by decide
  unfold Refused u32
  omega

theorem writei_refused (hv : (s.itable ip).valid = true) (hm : m < 2 ^ 32)
    (href : Refused (s.node ip).size off m) : writei ip src off m s = .ok (-1, s) := by
  rw [writei, bind_ok (m := inode ip) (a := (s.itable ip).copy) (t := s) rfl, ← node_of_valid hv]
  by_cases hg : off > (s.node ip).size ∨ u32 (off + m) < off
  · rw [if_pos hg]
    rfl
  · rw [if_neg hg, if_pos (((refused_iff hm).mp href).resolve_left hg)]
    rfl

theorem writei_accepted (h : Good start s) (hv : (s.itable ip).valid = true)
    (htx : 1 ≤ s.outstanding) (hm : m < 2 ^ 32) (hsrc : ∀ a < m, src a ≠ none)
    (href : ¬ Refused (s.node ip).size off m) :
    Ends (writei ip src off m) s (fun r t => r ≠ -1 ∧ (r < m → t.Full)) E := by
  have hedit := h.editing hv
  obtain ⟨hoff, -, hmax⟩ : off ≤ (s.node ip).size ∧ off + m < 2 ^ 32 ∧
      off + m ≤ maxfile * bsize := by
    unfold Refused at href
    omega
  rw [refused_iff hm] at href
  obtain ⟨hg, hbig⟩ := not_or.mp href
  refine Ends.bind_ok (m := inode ip) (a := (s.itable ip).copy) rfl ?_
  rw [← node_of_valid hv, if_neg hg, if_neg hbig]
  have hstart : Wrote start s ip src off m 0 s := h.wrote_zero hv hoff
  refine ((writeLoop_spec (h.filled ip) hedit.type_ne htx hmax m 0 hstart (Nat.zero_le _)
    (.inl rfl) (by omega)).and (writeLoop_short (h.filled ip) hedit.type_ne htx hmax hsrc m 0
      hstart (by omega) (E := E))).bind ?_
  rintro r t ⟨⟨tot, rfl, -, -, ht, -⟩, hshort⟩
  refine Ends.bind_ok (growTo_run ht.editing.valid) ?_
  have htx' : 1 ≤ t.outstanding := by rw [ht.apart.outstanding]; exact htx
  refine Ends.bind_ok (iupdate_run (by split_ifs <;> exact htx')) (Ends.pure ⟨by omega, ?_⟩)
  intro hlt
  have hfull := hshort (by exact_mod_cast hlt)
  split_ifs
  · exact hfull
  · exact hfull

/-- What `readi` returns of a file: nothing, if the end of the request cannot be
counted in 32 bits. -/
def readBytes (data : List Byte) (off m : Nat) : List Byte :=
  if off + m < 2 ^ 32 then (data.drop off).take m else []

theorem readi_past {dst : Nat → Bool} (hv : (s.itable ip).valid = true)
    (hpast : off > (s.node ip).size ∨ u32 (off + m) < off) :
    readi ip dst off m s = .ok ((0, []), s) := by
  rw [readi, bind_ok (m := inode ip) (a := (s.itable ip).copy) (t := s) rfl,
    ← node_of_valid hv, if_pos hpast]
  rfl

theorem readi_filled {dst : Nat → Bool} (hv : (s.itable ip).valid = true) (hf : s.Filled ip)
    (hn : s.view ip = some n) (hoff : off < 2 ^ 32) (hm : m < 2 ^ 32)
    (hdst : ∀ i < m, dst i = true) : readi ip dst off m s =
      .ok (((readBytes n.data off m).length, readBytes n.data off m), s) := by
  have hsize := view_size hn
  unfold readBytes
  split_ifs with hwrap
  · by_cases hle : off ≤ n.data.length
    · obtain ⟨r, t, hrun, rfl, hr⟩ := (readi_view hv hf hn dst off hm).returns
      rw [hrun, hr hdst hle hwrap]
    · rw [readi_past hv (.inl (by omega)), drop_eq_nil_of_le (by omega), take_nil]
      rfl
  · rw [readi_past hv (.inr (by unfold u32; omega))]
    rfl

theorem readi_bytes {dst : Nat → Bool} (h : Good start s) (hl : s.inodes.loaded ip = true)
    (hn : s.view ip = some n) (hoff : off < 2 ^ 32) (hm : m < 2 ^ 32)
    (hdst : ∀ i < m, dst i = true) : readi ip dst off m s =
      .ok (((readBytes n.data off m).length, readBytes n.data off m), s) :=
  readi_filled (loaded_iff.mp hl).2 (h.filled ip) hn hoff hm hdst

theorem Good.stopped_view (h : Good start s) : s.stopped.view = s.view := by
  funext i
  unfold view content byte
  rw [h.stopped_node]
  rfl

/-- `writei` on a file, from a source that can be read, and the reads after it. -/
theorem inode_bytes (src : Nat → Option Byte) (off : Nat) (h : Good start s)
    (hl : s.inodes.loaded ip = true) (htx : 1 ≤ s.outstanding) (hn : s.view ip = some n)
    (hm : m < 2 ^ 32) (hsrc : ∀ a < m, src a ≠ none) :
    ∃ r t, writei ip src off m s = .ok (r, t) ∧ (r = -1 ∧ t = s ↔ Refused n.data.length off m) ∧
      (¬ Refused n.data.length off m → ∃ tot ≤ m, r = tot ∧ (tot < m → t.Full) ∧
        t.view ip = some { n with data := splice n.data off (bytes src tot) } ∧
        (t.content ip).length = max n.data.length (off + tot)) ∧
      (t.itable ip).copy = t.dinode ip ∧ t.stopped.view = t.view ∧
      (∀ j, j ≠ ip → t.view j = s.view j) ∧
      ∀ dst pos count, pos < 2 ^ 32 → count < 2 ^ 32 → (∀ i < count, dst i = true) →
        readi ip dst pos count t = .ok (((readBytes (t.content ip) pos count).length,
          readBytes (t.content ip) pos count), t) := by
  have hv := (loaded_iff.mp hl).2
  have hsize := view_size hn
  by_cases href : Refused n.data.length off m
  · have hcontent := (view_eq_some hn).2.2.2.2.2
    refine ⟨-1, s, writei_refused hv hm (by rwa [hsize]), ⟨fun _ => href, fun _ => ⟨rfl, rfl⟩⟩,
      fun hno => absurd href hno, h.synced ip hv, h.stopped_view, fun _ _ => rfl, ?_⟩
    intro dst pos count hpos hcount hdst
    rw [hcontent]
    exact readi_bytes h hl hn hpos hcount hdst
  · have hacc := writei_accepted (E := fun _ => False) h hv htx hm hsrc (by rwa [hsize])
    obtain ⟨r, t, hrun, ⟨hr, hshort⟩, hspec⟩ :=
      (hacc.and (writei_spec (E := fun _ => False) h hv htx src off hm)).returns
    obtain ⟨tot, rfl, hoff, hw⟩ := hspec.resolve_left (fun hno => hr hno.1)
    have hb := hw.becomes h hn
    have hview : t.view ip = some { n with data := t.content ip } := by
      have hput := congrFun (congrArg Inodes.view hb.inodes) ip
      exact hput.trans (Function.update_self _ _ _)
    have hcontent := hw.content hn (by omega) hsrc
    have hlt : t.inodes.loaded ip = true := by rw [hb.inodes]; exact hl
    refine ⟨tot, t, hrun, ⟨fun hno => absurd hno.1 hr, fun hno => absurd hno href⟩,
      fun _ => ⟨tot, hw.le, rfl, fun hlt => hshort (by exact_mod_cast hlt), ?_, ?_⟩,
      hw.good.synced ip (loaded_iff.mp hlt).2, hw.good.stopped_view, fun j hj => ?_, ?_⟩
    · rw [hview, hcontent]
      rfl
    · rw [content, length_map, length_range, hw.header, hsize]
    · have hput := congrFun (congrArg Inodes.view hb.inodes) j
      exact hput.trans (Function.update_of_ne hj _ _)
    · intro dst pos count hpos hcount hdst
      exact readi_bytes hw.good hlt hview hpos hcount hdst

end Bytes

theorem inode_bytes_overwrite : Good 10 (lockedImage [1, 2, 3]) ∧
    ∃ t, writei rootino (fun a => [7, 8, 9][a]?) 2 3 (lockedImage [1, 2, 3]) = .ok (3, t) ∧
      t.view rootino = some ⟨tDir, 0, 0, 1, [1, 2, 7, 8, 9]⟩ := by
  have hdata : ([1, 2, 3] : List Byte).length ≤ bsize := by decide
  have hview := lockedImage_view_root hdata
  have hgood := lockedImage_good hdata
  refine ⟨hgood, ?_⟩
  obtain ⟨r, t, hrun, -, hrest, -⟩ := inode_bytes (m := 3) (fun a => [7, 8, 9][a]?) 2 hgood
    (lockedImage_loaded _) le_rfl hview (by decide) (by decide)
  obtain ⟨tot, -, rfl, -, hdata, -⟩ := hrest (by decide)
  obtain ⟨r, u, hrun', hr⟩ := ok_of_map (g := Prod.fst) (c := (3 : Int)) (show
    (writei rootino (fun a => [7, 8, 9][a]?) 2 3 (lockedImage [1, 2, 3])).toOption.map Prod.fst =
      some 3 from rfl)
  have htot : (tot : Int) = 3 := by
    rw [hrun] at hrun'
    exact (congrArg Prod.fst (Except.ok.inj hrun')).trans hr
  obtain rfl : tot = 3 := by omega
  exact ⟨t, hrun, hdata⟩

/-- One byte before the end of a file, a request for as many bytes as possible. -/
theorem readi_last_bytes : ∃ s n, Good 10 s ∧ s.inodes.loaded rootino = true ∧
    s.view rootino = some n ∧ (n.data.drop 1).take (2 ^ 32 - 1) = [2, 3] ∧
    readi rootino (fun _ => true) 1 (2 ^ 32 - 1) s = .ok ((0, []), s) := by
  refine ⟨lockedImage [1, 2, 3], _, lockedImage_good (by decide), lockedImage_loaded _,
    lockedImage_view_root (by decide), take_of_length_le (by decide), ?_⟩
  exact readi_past (loaded_iff.mp (lockedImage_loaded _)).2 (.inr (by decide))

end Xv6
