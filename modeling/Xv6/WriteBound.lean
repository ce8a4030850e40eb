import Xv6.LoggedWrite
import Xv6.SysCalls
import Xv6.InodeData
import Xv6.Image

/-! One round of `filewrite` passes at most as many blocks to `log_write` as
`begin_op` has reserved for it. -/

namespace Xv6

open LittleEndian Fallible List Finset Fs

def Logged.ind (g : Logged) (ip : Nat) : BlockNo := (g.fs.itable ip).copy.addrs ndirect

/-- The blocks passed are the indirect block and at most `k` others, or one more for
the bit of the indirect block. -/
def Logged.Spent (g : Logged) (ip k : Nat) : Prop :=
  ∃ S : Finset Nat, (∀ b ∈ g.passed, b ∈ S ∨ g.ind ip ≠ 0 ∧ b = (g.ind ip).toNat) ∧
    S.card ≤ k + if g.ind ip = 0 then 0 else 1

section Spending

variable {L : Layout} {g g' : Logged} {ip k j off n : Nat} {src : Nat → Option Byte} {b : BlockNo}
  {E : String → Prop}

theorem Logged.Spent.mono (h : g.Spent ip k) (hk : k ≤ j) : g.Spent ip j := by
  obtain ⟨S, hS, hcard⟩ := h
  exact ⟨S, hS, by omega⟩

theorem Logged.Spent.congr {q : Logged} (h : g.Spent ip k) (hpassed : q.passed = g.passed)
    (hind : q.ind ip = g.ind ip) : q.Spent ip k := by
  unfold Logged.Spent
  rw [hpassed, hind]
  exact h

theorem Logged.Spent.pass (h : g.Spent ip k) (c : Nat) : (g.pass c).Spent ip (k + 1) := by
  obtain ⟨S, hS, hcard⟩ := h
  refine ⟨insert c S, fun x hx => ?_, ?_⟩
  · rcases mem_cons.mp hx with rfl | hx
    · exact .inl (mem_insert_self _ _)
    · exact (hS x hx).imp_left (mem_insert_of_mem)
  · have hle := card_insert_le c S
    have hsame : (g.pass c).ind ip = g.ind ip := rfl
    rw [hsame]
    omega

theorem Logged.Spent.pass_ind (h : g.Spent ip k) (hind : g.ind ip ≠ 0) :
    (g.pass (g.ind ip).toNat).Spent ip k := by
  obtain ⟨S, hS, hcard⟩ := h
  refine ⟨S, fun x hx => ?_, hcard⟩
  rcases mem_cons.mp hx with rfl | hx
  · exact .inr ⟨hind, rfl⟩
  · exact hS x hx

theorem Logged.Spent.pass_again {c : Nat} (h : g.Spent ip k) (hc : c ∈ g.passed) :
    (g.pass c).Spent ip k := by
  obtain ⟨S, hS, hcard⟩ := h
  refine ⟨S, fun x hx => ?_, hcard⟩
  rcases mem_cons.mp hx with rfl | hx
  · exact hS x hc
  · exact hS x hx

theorem Logged.Spent.card_le (h : g.Spent ip k) : g.passed.toFinset.card ≤ k + 2 := by
  obtain ⟨S, hS, hcard⟩ := h
  have hsub : g.passed.toFinset ⊆ insert (g.ind ip).toNat S := by
    intro x hx
    rcases hS x (mem_toFinset.mp hx) with hx | ⟨-, rfl⟩
    · exact mem_insert_of_mem hx
    · exact mem_insert_self _ _
  have hle := (card_le_card hsub).trans (card_insert_le _ _)
  split_ifs at hcard <;> omega

theorem Logged.Spent.take (h : g.Spent ip k) (b : BlockNo) : (g.take L b).Spent ip (k + 2) := by
  refine ((h.pass (L.bblock b)).pass b.toNat).congr rfl rfl

theorem addrAt_ind (h : g.Spent ip k) (htx : 1 ≤ g.fs.outstanding) :
    Ends (LogM.addrAt L ip ndirect) g (fun a g' => g'.fs.outstanding = g.fs.outstanding ∧
      (a = 0 → g'.Spent ip (k + 2)) ∧ (a ≠ 0 → g'.Spent ip k ∧ g'.ind ip = a)) E := by
  rcases addrAt_cases (L := L) htx ip ndirect with hrun | ⟨hz, hrun | ⟨b, hb, hrun⟩⟩
  · exact Ends.of_ok hrun ⟨rfl, fun _ => h.mono (by omega), fun _ => ⟨h, rfl⟩⟩
  · exact Ends.of_ok hrun ⟨rfl, fun _ => h.take 0, fun hne => absurd rfl hne⟩
  · refine Ends.of_ok hrun ⟨rfl, fun hzero => absurd hzero hb, fun _ => ?_⟩
    have hind : ((g.take L b).putAddr ip ndirect b).ind ip = b := by
      simp [Logged.ind, Logged.putAddr, putAddr, edit, setInode]
    have hold : g.ind ip = 0 := hz
    refine ⟨?_, hind⟩
    obtain ⟨S, hS, hcard⟩ := h
    refine ⟨insert (L.bblock b) S, fun x hx => ?_, ?_⟩
    · rw [hind]
      rcases mem_cons.mp hx with rfl | hx
      · exact .inr ⟨hb, rfl⟩
      · rcases mem_cons.mp hx with rfl | hx
        · exact .inl (mem_insert_self _ _)
        · exact .inl (mem_insert_of_mem ((hS x hx).resolve_right (fun hr => hr.1 hold)))
    · have hle := card_insert_le (L.bblock b) S
      rw [if_pos hold] at hcard
      rw [hind, if_neg hb]
      omega

/-- After a data block has been looked up, and is passed to `log_write` in its turn. -/
def Logged.SpentAt (g : Logged) (ip k : Nat) (addr : BlockNo) : Prop :=
  (addr = 0 → g.Spent ip k) ∧ (addr ≠ 0 → (g.pass addr.toNat).Spent ip k)

theorem Logged.Spent.there (h : g.Spent ip k) (addr : BlockNo) : g.SpentAt ip (k + 2) addr :=
  ⟨fun _ => h.mono (by omega), fun _ => (h.pass addr.toNat).mono (by omega)⟩

theorem Logged.Spent.taken (h : g.Spent ip k) (hpassed : g'.passed = (g.take L b).passed)
    (hind : g'.ind ip = g.ind ip) : g'.SpentAt ip (k + 2) b := by
  have htake : g'.Spent ip (k + 2) := (h.take b).congr hpassed hind
  refine ⟨fun _ => htake, fun _ => htake.pass_again ?_⟩
  rw [hpassed]
  exact mem_cons_self

theorem addrAt_spends (h : g.Spent ip k) (htx : 1 ≤ g.fs.outstanding) (hj : j < ndirect) :
    Ends (LogM.addrAt L ip j) g (fun a g' => g'.fs.outstanding = g.fs.outstanding ∧
      g'.SpentAt ip (k + 2) a) E := by
  rcases addrAt_cases (L := L) htx ip j with hrun | ⟨-, hrun | ⟨b, -, hrun⟩⟩
  · exact Ends.of_ok hrun ⟨rfl, h.there _⟩
  · exact Ends.of_ok hrun ⟨rfl, h.taken rfl rfl⟩
  · refine Ends.of_ok hrun ⟨rfl, h.taken rfl ?_⟩
    have hne : ndirect ≠ j := by omega
    simp [Logged.ind, Logged.putAddr, Logged.take, Fs.putAddr, Fs.edit, Fs.setInode, Fs.take, hne]

theorem indirectAt_spends (h : g.Spent ip k) (htx : 1 ≤ g.fs.outstanding) (hind : g.ind ip ≠ 0) :
    Ends (LogM.indirectAt L (g.ind ip) j) g (fun a g' => g'.fs.outstanding = g.fs.outstanding ∧
      g'.SpentAt ip (k + 2) a) E := by
  rcases indirectAt_cases (L := L) htx (g.ind ip) j with hrun | hrun | ⟨b, hb, hrun⟩
  · exact Ends.of_ok hrun ⟨rfl, h.there _⟩
  · exact Ends.of_ok hrun ⟨rfl, h.taken rfl rfl⟩
  · refine Ends.of_ok hrun ⟨rfl, fun hzero => absurd hzero hb, fun _ => ?_⟩
    have htake : (g.take L b).Spent ip (k + 2) := h.take b
    refine ((htake.pass_ind hind).pass_again (c := b.toNat) ?_).congr rfl rfl
    exact mem_cons_of_mem _ mem_cons_self

theorem bmap_spends (h : g.Spent ip k) (htx : 1 ≤ g.fs.outstanding) {bn : Nat}
    (hbn : bn < maxfile) : Ends (LogM.bmap L ip bn) g (fun a g' =>
      g'.fs.outstanding = g.fs.outstanding ∧ g'.SpentAt ip (k + 2) a) E := by
  unfold LogM.bmap
  by_cases hd : bn < ndirect
  · rw [if_pos hd]
    exact addrAt_spends h htx hd
  · have hj : bn - ndirect < nindirect := by
      simp only [maxfile] at hbn
      omega
    rw [if_neg hd, if_pos hj]
    refine (addrAt_ind h htx).bind ?_
    rintro ind g' ⟨hout, hzero, hne⟩
    split_ifs with hz
    · exact Ends.pure ⟨hout, fun _ => hzero hz, fun hno => absurd rfl hno⟩
    · obtain ⟨hspent, rfl⟩ := hne hz
      refine (indirectAt_spends hspent (by rw [hout]; exact htx) hz).post (fun a g'' hg => ?_)
      exact ⟨hg.1.trans hout, hg.2⟩

theorem Logged.Spent.of_pass {c : Nat} (h : (g.pass c).Spent ip k) : g.Spent ip k := by
  obtain ⟨S, hS, hcard⟩ := h
  exact ⟨S, fun x hx => hS x (mem_cons_of_mem _ hx), hcard⟩

/-- How many blocks a write of `left` bytes from the start of a block touches. -/
def rounds (left : Nat) : Nat := (left + (bsize - 1)) / bsize

theorem writeLoop_spends {tot fuel : Nat} (h : g.Spent ip k) (htx : 1 ≤ g.fs.outstanding)
    (hmax : off + (n - tot) ≤ maxfile * bsize) (halign : tot < n → off % bsize = 0)
    (hfuel : n - tot ≤ fuel) :
    Ends (LogM.writeLoop L ip src n fuel off tot) g (fun _ g' =>
      g'.fs.outstanding = g.fs.outstanding ∧ g'.Spent ip (k + 2 * rounds (n - tot))) E := by
  induction fuel generalizing g k off tot with
  | zero => exact Ends.pure ⟨rfl, h.mono (by omega)⟩
  | succ fuel ih =>
    unfold LogM.writeLoop
    split_ifs with hlt
    · have hone : 1 ≤ rounds (n - tot) := by
        simp only [rounds, bsize]
        omega
      have hbn : off / bsize < maxfile := (Nat.div_lt_iff_lt_mul (by decide)).mpr (by omega)
      refine (bmap_spends h htx hbn).bind ?_
      rintro addr g' ⟨hout, hzero, hne⟩
      split_ifs with hz
      · exact Ends.pure ⟨hout, (hzero hz).mono (by omega)⟩
      · refine Ends.bind_ok (m := LogM.onFs get) (a := g'.fs) (t := g') rfl ?_
        dsimp only
        rw [halign hlt, Nat.sub_zero]
        generalize hm : min (n - tot) bsize = m
        have hpos : 0 < bsize := by decide
        refine Ends.bind_ok (m := LogM.onFs _) (a := ()) (t := { g' with
          fs := g'.fs.putBlock addr (FsM.blit (g'.fs.block addr) 0 (FsM.copyin src tot m)) }) rfl ?_
        split_ifs
        · exact Ends.pure ⟨hout, ((hne hz).of_pass.congr rfl rfl).mono (by omega)⟩
        · refine Ends.bind_ok (logWrite_passes (by exact hout ▸ htx) _) ?_
          have hspent := (hne hz).congr (q := Logged.pass { g' with
            fs := g'.fs.putBlock addr (FsM.blit (g'.fs.block addr) 0 (FsM.copyin src tot m)) }
            addr.toNat) rfl rfl
          have hnext : tot + m < n → (off + m) % bsize = 0 := by
            intro hmore
            have hwhole : m = bsize := by omega
            rw [hwhole, Nat.add_mod_right]
            exact halign hlt
          have hrounds : rounds (n - tot) = rounds (n - (tot + m)) + 1 := by
            simp only [rounds, bsize] at *
            omega
          refine (ih hspent (by exact hout ▸ htx) (by omega) hnext (by omega)).post ?_
          rintro r g'' ⟨hout', hspent'⟩
          exact ⟨hout'.trans hout, hspent'.mono (by omega)⟩
    · exact Ends.pure ⟨rfl, h.mono (by omega)⟩

theorem addrAt_finds (hj : (g.fs.itable ip).copy.addrs j ≠ 0) :
    LogM.addrAt L ip j g = .ok ((g.fs.itable ip).copy.addrs j, g) := by
  have hinode : LogM.onFs (FsM.inode ip) g = .ok ((g.fs.itable ip).copy, g) := rfl
  rw [LogM.addrAt, bind_ok hinode, if_neg hj]
  rfl

theorem bmap_finds (hv : (g.fs.itable ip).valid = true) {bn : Nat}
    (hb : g.fs.owner (ip, place bn) = some b) : LogM.bmap L ip bn g = .ok (b, g) := by
  obtain ⟨-, hb0, hslot⟩ := owner_eq_some.mp hb
  rw [node_of_valid hv] at hslot
  unfold LogM.bmap
  by_cases hd : bn < ndirect
  · rw [place, if_pos hd, slot_direct _ _ (by omega)] at hslot
    rw [if_pos hd, addrAt_finds (hslot ▸ hb0), hslot]
  · rw [place, if_neg hd] at hslot
    unfold slot at hslot
    rw [if_neg (by omega)] at hslot
    split at hslot
    · exact absurd hslot.symm hb0
    · rename_i hn
      obtain ⟨hind, hle⟩ := not_or.mp hn
      have hk : bn + 1 - (ndirect + 1) = bn - ndirect := by omega
      rw [hk] at hslot
      rw [if_neg hd, if_pos (by omega), bind_ok (addrAt_finds hind), if_neg hind, LogM.indirectAt,
        bind_ok (m := LogM.onFs get) (a := g.fs) (t := g) rfl, if_neg (hslot ▸ hb0), hslot]
      rfl

theorem writeLoop_bound (h : g.Spent ip 0) (htx : 1 ≤ g.fs.outstanding)
    (hv : (g.fs.itable ip).valid = true) (hty : (g.fs.node ip).type ≠ 0) (hf : g.fs.Filled ip)
    (hoff : off ≤ (g.fs.node ip).size) (hmax : off + n ≤ maxfile * bsize) (hn : n ≤ 3 * bsize) :
    Ends (LogM.writeLoop L ip src n n off 0) g (fun _ g' =>
      g'.fs.outstanding = g.fs.outstanding ∧ g'.Spent ip 7) E := by
  by_cases halign : off % bsize = 0
  · refine (writeLoop_spends h htx (by omega) (fun _ => halign) (by omega)).post ?_
    rintro r g' ⟨hout, hspent⟩
    refine ⟨hout, hspent.mono ?_⟩
    simp only [rounds, bsize] at *
    omega
  · cases n with
    | zero => exact Ends.pure ⟨rfl, h.mono (by omega)⟩
    | succ n =>
      unfold LogM.writeLoop
      rw [if_pos (Nat.succ_pos n)]
      have hmod : off % bsize < bsize := Nat.mod_lt _ (by decide)
      have hstart : off / bsize * bsize < (g.fs.node ip).size := by
        have hdiv := Nat.div_add_mod' off bsize
        omega
      obtain ⟨addr, haddr⟩ := Option.ne_none_iff_exists'.mp (hf hty _ hstart)
      have hne := (owner_eq_some.mp haddr).2.1
      refine Ends.bind_ok (bmap_finds hv haddr) ?_
      rw [if_neg hne]
      refine Ends.bind_ok (m := LogM.onFs get) (a := g.fs) (t := g) rfl ?_
      dsimp only
      rw [Nat.sub_zero]
      generalize hm : min (n + 1) (bsize - off % bsize) = m
      refine Ends.bind_ok (m := LogM.onFs _) (a := ()) (t := { g with
        fs := g.fs.putBlock addr (FsM.blit (g.fs.block addr) (off % bsize)
          (FsM.copyin src 0 m)) }) rfl ?_
      split_ifs
      · exact Ends.pure ⟨rfl, (h.congr rfl rfl).mono (by omega)⟩
      · refine Ends.bind_ok (logWrite_passes (by exact htx) _) ?_
        have hspent := (h.pass addr.toNat).congr (q := Logged.pass { g with
          fs := g.fs.putBlock addr (FsM.blit (g.fs.block addr) (off % bsize)
            (FsM.copyin src 0 m)) } addr.toNat) rfl rfl
        have hnext : 0 + m < n + 1 → (off + m) % bsize = 0 := by
          intro hmore
          simp only [bsize] at *
          omega
        refine (writeLoop_spends hspent (by exact htx) (by omega) hnext (by omega)).post ?_
        rintro r g' ⟨hout, hspent'⟩
        refine ⟨hout, hspent'.mono ?_⟩
        simp only [rounds, bsize] at *
        omega

theorem growTo_spends (g : Logged) (ip off : Nat) :
    ∃ s, LogM.onFs (FsM.growTo ip off) g = .ok ((), { g with fs := s }) ∧
      s.outstanding = g.fs.outstanding ∧
      (s.itable ip).copy.addrs = (g.fs.itable ip).copy.addrs := by
  have hinode : FsM.inode ip g.fs = .ok ((g.fs.itable ip).copy, g.fs) := rfl
  unfold LogM.onFs
  rw [FsM.growTo, bind_ok hinode]
  split_ifs
  · refine ⟨g.fs.edit ip (fun d => { d with size := off }), rfl, rfl, ?_⟩
    simp [edit, setInode]
  · exact ⟨g.fs, rfl, rfl, rfl⟩

/-- The blocks that one round of `filewrite` passes to `log_write`. -/
theorem write_fits_reservation (L : Layout) (src : Nat → Option Byte)
    (htx : 1 ≤ g.fs.outstanding) (hv : (g.fs.itable ip).valid = true)
    (hty : (g.fs.node ip).type ≠ 0) (hf : g.fs.Filled ip) (hoff : off ≤ (g.fs.node ip).size)
    (hn : n ≤ maxChunk) (hp : g.passed = []) :
    ∃ r g', LogM.writei L ip src off n g = .ok (r, g') ∧ g'.passed.toFinset.card ≤ maxOpBlocks := by
  have hstart : g.Spent ip 0 := ⟨∅, by simp [hp], by simp⟩
  have hsize := hf.size_le hty
  have hsmall : maxfile * bsize + maxChunk < 2 ^ 32 := by decide
  have hends : Ends (LogM.writei L ip src off n) g (fun _ g' =>
      g'.passed.toFinset.card ≤ maxOpBlocks) (fun _ => False) := by
    refine Ends.bind_ok (m := LogM.onFs (FsM.inode ip)) (a := (g.fs.itable ip).copy) (t := g) rfl ?_
    have hwrap : u32 (off + n) = off + n := Nat.mod_eq_of_lt (by omega)
    rw [← node_of_valid hv, hwrap, if_neg (by omega)]
    split_ifs with hmax
    · exact Ends.pure (by simp [hp])
    · refine (writeLoop_bound hstart htx hv hty hf hoff (not_lt.mp hmax) hn).bind ?_
      rintro r g' ⟨hout, hspent⟩
      obtain ⟨s, hrun, hsout, hsame⟩ := growTo_spends g' ip r.2
      refine Ends.bind_ok hrun (Ends.bind_ok (m := LogM.iupdate L ip) (a := ())
        (t := Logged.pass { g' with fs := s.sync ip } (L.iblock ip)) ?_ (Ends.pure ?_))
      · rw [LogM.iupdate, bind_ok (m := LogM.onFs _) (a := ())
          (t := { g' with fs := s.sync ip }) rfl]
        exact logWrite_passes (show 1 ≤ s.outstanding by rw [hsout, hout]; exact htx) _
      · have hind : Logged.ind { g' with fs := s.sync ip } ip = g'.ind ip := congrFun hsame ndirect
        exact ((hspent.congr (q := { g' with fs := s.sync ip }) rfl hind).pass
          (L.iblock ip)).card_le
  exact hends.returns

end Spending

/-- A write behind the three bytes of a file. -/
theorem write_fits_reservation_chunk : ∃ r g', LogM.writei ⟨8, 4⟩ rootino (fun _ => some 7) 3 maxChunk
    ⟨lockedImage [1, 2, 3], [], lockedImage [1, 2, 3]⟩ = .ok (r, g') ∧
      g'.passed.toFinset.card ≤ maxOpBlocks := by
  have hdata : ([1, 2, 3] : List Byte).length ≤ bsize := by decide
  have hgood := lockedImage_good hdata
  have hloaded := lockedImage_loaded [1, 2, 3]
  have hv := (loaded_iff.mp hloaded).2
  refine write_fits_reservation ⟨8, 4⟩ (fun _ => some 7) le_rfl hv (hgood.editing hv).type_ne
    (hgood.filled rootino) ?_ le_rfl rfl
  rw [view_size (lockedImage_view_root hdata)]
  decide

end Xv6
