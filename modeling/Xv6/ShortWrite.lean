import Xv6.LoggedWrite
import Xv6.FileBytes

/-! Writes that end early. `writei` copies straight into the buffer and gives up when it
cannot read on; what it has copied of the block by then is in the buffer, and is not
passed to `log_write`. -/

namespace Xv6

open LittleEndian Fallible Records Function List Fs

/-- The buffers that have not been passed to `log_write` are as they are on the disk. -/
structure Logged.Clean (L : Layout) (g : Logged) : Prop where
  block : ∀ b : BlockNo, b.toNat ∉ g.passed → g.fs.block b = g.home.block b
  bitmap : ∀ b, L.bblock b ∉ g.passed → g.fs.bitmap b = g.home.bitmap b
  dinode : ∀ i, L.iblock i ∉ g.passed → g.fs.dinode i = g.home.dinode i

/-- What is found when the other buffers have been used for something else, and what
`commit` installs. -/
def Logged.reread (L : Layout) (g : Logged) : Fs :=
  { g.fs with
    block := fun b => if b.toNat ∈ g.passed then g.fs.block b else g.home.block b
    bitmap := fun b => if L.bblock b ∈ g.passed then g.fs.bitmap b else g.home.bitmap b
    dinode := fun i => if L.iblock i ∈ g.passed then g.fs.dinode i else g.home.dinode i }

/-- The call is refused, or the source breaks at the first byte of the call or of a block,
or in a block that the file does not have yet, or after bytes that are in the file. -/
def Contained (s : Fs) (ip : Nat) (src : Nat → Option Byte) (off n : Nat) : Prop :=
  ¬ Refused (s.node ip).size off n → ∀ a, Breaks src n a → a = 0 ∨ (off + a) % bsize = 0 ∨
    s.owner (ip, place ((off + a) / bsize)) = none ∨
    ∀ p, off ≤ p → (off + a) / bsize * bsize ≤ p → p < off + a →
      p < (s.node ip).size ∧ src (p - off) = some (s.byte ip p)

def Logged.withOutstanding (g : Logged) (k : Nat) : Logged :=
  { g with fs := { g.fs with outstanding := k } }

/-- The end of a transaction; the last one writes the blocks to their places. -/
def Logged.finish (L : Layout) (g : Logged) : Logged :=
  let g' := g.withOutstanding (g.fs.outstanding - 1)
  if g'.fs.outstanding = 0 then { g' with passed := [], home := g'.reread L } else g'

namespace LogM

variable (L : Layout)

def beginOp : LogM Unit := modify (fun g => g.withOutstanding (g.fs.outstanding + 1))

def endOp : LogM Unit := modify (fun g => g.finish L)

/-- The rounds of `filewrite`: how many bytes whole rounds have written, and the offset
of the file. -/
def writeChunks (ip : Nat) (src : Nat → Option Byte) (n : Nat) : Nat → Nat → Nat → LogM (Nat × Nat)
  | 0, i, off => pure (i, off)
  | fuel + 1, i, off =>
    if i < n then do
      beginOp
      onFs (FsM.ilock ip)
      let r ← writei L ip (fun a => src (i + a)) off (min (n - i) maxChunk)
      let off' := if 0 < r then u32 (off + r.toNat) else off
      onFs (FsM.iunlock ip)
      endOp L
      if r ≠ (min (n - i) maxChunk : Nat) then pure (i, off')
      else writeChunks ip src n fuel (i + min (n - i) maxChunk) off'
    else pure (i, off)

end LogM

/-- The source of `filewrite` breaks at the end of a block of the file, between two rounds,
or in a round that is refused. -/
def WholeRounds (size : Nat) (src : Nat → Option Byte) (off n : Nat) : Prop :=
  ∀ a, Breaks src n a → a % maxChunk = 0 ∨ (off + a) % bsize = 0 ∨ size < off ∨
    maxfile * bsize < off + min n (a / maxChunk * maxChunk + maxChunk)

section Cleaning

variable {L : Layout} {g g' : Logged} {start ip k j off n : Nat} {src : Nat → Option Byte}
  {b : BlockNo} {s t : Fs} {E : String → Prop}

theorem Logged.Clean.reread (h : g.Clean L) : g.reread L = g.fs := by
  have hblock : (fun b : BlockNo => if b.toNat ∈ g.passed then g.fs.block b
      else g.home.block b) = g.fs.block := by
    funext b
    split_ifs with hb
    · rfl
    · exact (h.block b hb).symm
  have hbitmap : (fun b => if L.bblock b ∈ g.passed then g.fs.bitmap b
      else g.home.bitmap b) = g.fs.bitmap := by
    funext b
    split_ifs with hb
    · rfl
    · exact (h.bitmap b hb).symm
  have hdinode : (fun i => if L.iblock i ∈ g.passed then g.fs.dinode i
      else g.home.dinode i) = g.fs.dinode := by
    funext i
    split_ifs with hi
    · rfl
    · exact (h.dinode i hi).symm
  unfold Logged.reread
  rw [hblock, hbitmap, hdinode]

theorem Logged.Clean.congr (h : g.Clean L) (hblock : g'.fs.block = g.fs.block)
    (hbitmap : g'.fs.bitmap = g.fs.bitmap) (hdinode : g'.fs.dinode = g.fs.dinode)
    (hpassed : g'.passed = g.passed) (hhome : g'.home = g.home) : g'.Clean L := by
  refine ⟨?_, ?_, ?_⟩
  · rw [hblock, hpassed, hhome]
    exact h.block
  · rw [hbitmap, hpassed, hhome]
    exact h.bitmap
  · rw [hdinode, hpassed, hhome]
    exact h.dinode

theorem Logged.Clean.put (h : g.Clean L) (b : BlockNo) (v : Block) :
    (Logged.pass { g with fs := g.fs.putBlock b v } b.toNat).Clean L where
  block c hc := by
    obtain ⟨hne, hold⟩ := ne_and_not_mem_of_not_mem_cons hc
    have hcb : c ≠ b := fun he => hne (he ▸ rfl)
    exact (update_of_ne hcb _ _).trans (h.block c hold)
  bitmap c hc := h.bitmap c (ne_and_not_mem_of_not_mem_cons hc).2
  dinode i hi := h.dinode i (ne_and_not_mem_of_not_mem_cons hi).2

theorem Logged.Clean.take (h : g.Clean L) (b : BlockNo) : (g.take L b).Clean L where
  block c hc := by
    obtain ⟨hne, hold⟩ := ne_and_not_mem_of_not_mem_cons hc
    have hcb : c ≠ b := fun he => hne (he ▸ rfl)
    exact (update_of_ne hcb _ _).trans (h.block c (ne_and_not_mem_of_not_mem_cons hold).2)
  bitmap c hc := by
    obtain ⟨hne, hold⟩ := ne_and_not_mem_of_not_mem_cons (ne_and_not_mem_of_not_mem_cons hc).2
    have hcb : c ≠ b := fun he => hne (he ▸ rfl)
    exact (update_of_ne hcb _ _).trans (h.bitmap c hold)
  dinode i hi := h.dinode i (ne_and_not_mem_of_not_mem_cons (ne_and_not_mem_of_not_mem_cons hi).2).2

theorem Logged.Clean.put_passed (h : g.Clean L) (hb : b.toNat ∈ g.passed) (v : Block) :
    Logged.Clean L { g with fs := g.fs.putBlock b v } where
  block c hc := by
    have hcb : c ≠ b := fun he => hc (he ▸ hb)
    exact (update_of_ne hcb _ _).trans (h.block c hc)
  bitmap := h.bitmap
  dinode := h.dinode

theorem Logged.Clean.sync (h : g.Clean L) (ip : Nat) :
    (Logged.pass { g with fs := g.fs.sync ip } (L.iblock ip)).Clean L where
  block c hc := h.block c (List.ne_and_not_mem_of_not_mem_cons hc).2
  bitmap c hc := h.bitmap c (List.ne_and_not_mem_of_not_mem_cons hc).2
  dinode i hi := by
    obtain ⟨hne, hold⟩ := ne_and_not_mem_of_not_mem_cons hi
    have hip : i ≠ ip := fun he => hne (he ▸ rfl)
    exact (update_of_ne hip _ _).trans (h.dinode i hold)

def padded (src : Nat → Option Byte) (a : Nat) : Option Byte := some ((src a).getD 0)

theorem Breaks.of_copyin {tot m : Nat} (hread : ∀ a < tot, src a ≠ none) (hn : tot + m ≤ n)
    (hshort : (FsM.copyin src tot m).length < m) :
    Breaks src n (tot + (FsM.copyin src tot m).length) := by
  refine ⟨by omega, copyin_stops hshort, fun b hb => ?_⟩
  by_cases hlow : b < tot
  · exact hread b hlow
  · have hcopied : (FsM.copyin src tot m)[b - tot]? = src (tot + (b - tot)) :=
      copyin_getElem? (by omega)
    rw [Nat.add_sub_cancel' (not_lt.mp hlow)] at hcopied
    rw [← hcopied, getElem?_eq_getElem (by omega)]
    simp

theorem blit_same {v : Block} {o : Nat} {bs : List Byte}
    (h : ∀ i < bs.length, bs[i]? = some (byteAt v (o + i))) : FsM.blit v o bs = v := by
  funext i
  unfold FsM.blit
  split_ifs with hi
  · rfl
  · by_cases hl : i.val - o < bs.length
    · rw [h _ hl, Nat.add_sub_cancel' (not_lt.mp hi)]
      exact congrArg v (Fin.ext (Nat.mod_eq_of_lt i.isLt))
    · rw [getElem?_eq_none (not_lt.mp hl)]
      rfl

theorem putBlock_same (s : Fs) (b : BlockNo) : s.putBlock b (s.block b) = s := by
  unfold putBlock
  rw [update_eq_self]

theorem Wrote.beyond {tot : Nat} (h : Wrote start s ip src off n tot t) (hf : s.Filled ip)
    (hty : (s.node ip).type ≠ 0) (hb : t.owner (ip, place ((off + tot) / bsize)) = some b)
    (hend : (s.node ip).size ≤ off + tot) (hblk : (off + tot) % bsize = 0) (v : Block) :
    Wrote start s ip src off n tot (t.putBlock b v) := by
  obtain ⟨hedit, hap, howner⟩ := h.editing.putData hb (place_ne_ndirect _) v
  refine ⟨hedit, h.apart.trans hap, h.header, ?_, h.read, ?_, fun hfull o ho => ?_⟩
  · rw [howner]
    exact h.keep
  · rw [howner]
    exact h.filled
  · obtain ⟨c, hc⟩ := h.owner_at hf hty ho
    have hne : o / bsize ≠ (off + tot) / bsize := by
      simp only [bsize] at *
      omega
    rw [h.editing.putData_byte hb v hne hc]
    exact h.data hfull o ho

/-- A block that the file does not have lies behind its end. -/
theorem StopsAt.behind {tot : Nat} (h : StopsAt off n tot) (hlt : tot < n) (hf : s.Filled ip)
    (hty : (s.node ip).type ≠ 0) (hoff : off ≤ (s.node ip).size)
    (hnone : s.owner (ip, place ((off + tot) / bsize)) = none) :
    (s.node ip).size ≤ off + tot ∧ (off + tot) % bsize = 0 := by
  have hend : (s.node ip).size ≤ (off + tot) / bsize * bsize := by
    by_contra hin
    exact hf hty _ (not_le.mp hin) hnone
  have hdm := Nat.div_add_mod' (off + tot) bsize
  rcases h with hs | hs | hs <;> omega

/-- What is copied of a block before the source breaks there: nothing is lost by it. -/
theorem Contained.put {tot m : Nat} {u : Logged} (h : Contained s ip src off n)
    (href : ¬ Refused (s.node ip).size off n) (hf : s.Filled ip) (hty : (s.node ip).type ≠ 0)
    (hoff : off ≤ (s.node ip).size) (hw : Wrote start s ip (padded src) off n tot u.fs)
    (hclean : u.Clean L) (hb : u.fs.owner (ip, place ((off + tot) / bsize)) = some b) (hstop : StopsAt off n tot)
    (hread : ∀ a < tot, src a ≠ none) (hm : m ≤ bsize - (off + tot) % bsize) (hn : tot + m ≤ n)
    (hnew : s.owner (ip, place ((off + tot) / bsize)) = none → b.toNat ∈ u.passed)
    (hshort : (FsM.copyin src tot m).length < m) {v : Block}
    (hv : FsM.blit (u.fs.block b) ((off + tot) % bsize) (FsM.copyin src tot m) = v) :
    Wrote start s ip (padded src) off n tot (u.fs.putBlock b v) ∧
      Logged.Clean L { u with fs := u.fs.putBlock b v } := by
  by_cases hnone : s.owner (ip, place ((off + tot) / bsize)) = none
  · obtain ⟨hend, hmod⟩ := hstop.behind (by omega) hf hty hoff hnone
    exact ⟨hw.beyond hf hty hb hend hmod _, hclean.put_passed (hnew hnone) _⟩
  · have hcases := h href _ (Breaks.of_copyin hread hn hshort)
    have hsame : ∀ i < (FsM.copyin src tot m).length, (FsM.copyin src tot m)[i]? =
        some (byteAt (u.fs.block b) ((off + tot) % bsize + i)) := by
      intro i hi
      have hat : (off + (tot + i)) / bsize = (off + tot) / bsize ∧
          (off + (tot + i)) % bsize = (off + tot) % bsize + i ∧
          (off + (tot + (FsM.copyin src tot m).length)) / bsize = (off + tot) / bsize := by
        simp only [bsize] at *
        omega
      rw [hat.2.2] at hcases
      rcases hcases with hz | hz | hz | heq
      · omega
      · simp only [bsize] at *
        omega
      · exact absurd hz hnone
      · have hdm := Nat.div_add_mod' (off + tot) bsize
        obtain ⟨hin, hsrc⟩ := heq (off + (tot + i)) (by omega) (by omega) (by omega)
        have hdata := hw.data (fun a _ => by simp [padded]) _ (.inl hin)
        rw [if_neg (by omega)] at hdata
        rw [copyin_getElem? hi, show tot + i = off + (tot + i) - off by omega, hsrc, ← hdata,
          byte_eq (b := b) (by rw [hat.1]; exact hb), hat.2.1]
    rw [← hv, blit_same hsame, putBlock_same]
    exact ⟨hw, hclean⟩

/-- What `writei` leaves behind when it has written `tot` bytes. -/
structure ShortOf (start : Nat) (L : Layout) (g : Logged) (ip off : Nat) (d : Node)
    (src : Nat → Option Byte) (tot : Nat) (g' : Logged) : Prop where
  good : Good start g'.fs
  ref : 1 ≤ (g'.fs.itable ip).ref
  outstanding : g'.fs.outstanding = g.fs.outstanding
  clean : g'.Clean L
  read : ∀ a < tot, src a ≠ none
  file : g'.fs.view ip = some { d with data := splice d.data off (bytes src tot) }
  others : ∀ j, j ≠ ip → g'.fs.view j = g.fs.view j

theorem Good.withOutstanding (h : Good start s) (k : Nat) :
    Good start { s with outstanding := k } :=
  ⟨h.start_pos, h.size_lt, h.owned, h.filled, h.synced, h.typed, h.bounded⟩

theorem Logged.Clean.finish (h : g.Clean L) : (g.finish L).Clean L := by
  have hsame : (g.withOutstanding (g.fs.outstanding - 1)).Clean L := h.congr rfl rfl rfl rfl rfl
  unfold Logged.finish
  dsimp only
  split_ifs
  · rw [hsame.reread]
    exact ⟨fun _ _ => rfl, fun _ _ => rfl, fun _ _ => rfl⟩
  · exact hsame

theorem finish_fs (L : Layout) (g : Logged) :
    (g.finish L).fs = { g.fs with outstanding := g.fs.outstanding - 1 } := by
  unfold Logged.finish
  dsimp only
  split_ifs
  · rfl
  · rfl

theorem bytes_add (src : Nat → Option Byte) (i n : Nat) :
    bytes src (i + n) = bytes src i ++ bytes (fun a => src (i + a)) n := by
  simp only [bytes, range_add, map_append, map_map, comp_def]

theorem WholeRounds.round {i size a : Nat} (h : WholeRounds size src off n)
    (hi : i % maxChunk = 0) (hread : ∀ a < i, src a ≠ none)
    (hb : Breaks (fun a => src (i + a)) (min (n - i) maxChunk) a) :
    a = 0 ∨ (off + i + a) % bsize = 0 ∨ size < off ∨
      maxfile * bsize < off + i + min (n - i) maxChunk := by
  obtain ⟨ha, hnone, hbefore⟩ := hb
  have hall : ∀ b < i + a, src b ≠ none := by
    intro b hb
    by_cases hlow : b < i
    · exact hread b hlow
    · have hb' : src (i + (b - i)) ≠ none := hbefore (b - i) (by omega)
      rwa [Nat.add_sub_cancel' (not_lt.mp hlow)] at hb'
  have hcases := h (i + a) ⟨by omega, hnone, hall⟩
  simp only [maxChunk, bsize] at *
  omega

theorem ShortOf.extend {d : Node} {i tot : Nat} {g₀ g₁ : Logged}
    (h : ShortOf start L g₀ ip off d src i g) (hview : g₁.fs.view = g.fs.view)
    (hout : g₁.fs.outstanding = g₀.fs.outstanding + 1)
    (hnext : ShortOf start L g₁ ip (off + i)
      { d with data := splice d.data off (bytes src i) } (fun a => src (i + a)) tot g')
    (hoff : off ≤ d.data.length ∨ tot = 0) :
    ShortOf start L g₀ ip off d src (i + tot) (g'.finish L) where
  good := by
    rw [finish_fs]
    exact hnext.good.withOutstanding _
  ref := by
    rw [finish_fs]
    exact hnext.ref
  outstanding := by
    rw [finish_fs]
    have hsum := hnext.outstanding.trans hout
    dsimp only
    omega
  clean := hnext.clean.finish
  read a ha := by
    by_cases hlow : a < i
    · exact h.read a hlow
    · have hrest : src (i + (a - i)) ≠ none := hnext.read (a - i) (by omega)
      rwa [Nat.add_sub_cancel' (not_lt.mp hlow)] at hrest
  file := by
    rw [finish_fs]
    refine (show g'.fs.view ip = _ from hnext.file).trans ?_
    rcases hoff with hoff | rfl
    · have hboth := splice_splice (a := bytes src i) (b := bytes (fun a => src (i + a)) tot) hoff
      rw [length_bytes] at hboth
      rw [hboth, bytes_add]
    · rw [show bytes (fun a => src (i + a)) 0 = [] from rfl, splice_nil, Nat.add_zero]
  others j hj := by
    rw [finish_fs]
    refine (show g'.fs.view j = _ from hnext.others j hj).trans ?_
    rw [hview]
    exact h.others j hj

end Cleaning

end Xv6
