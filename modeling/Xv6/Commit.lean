import Xv6.Crash
import Xv6.LittleEndian
import Xv6.Bio

/-! `commit` and `recover_from_log`, over the disk, its buffer cache and the
in-memory log. Only `bwrite` changes the disk. -/

namespace Xv6

open Prog LittleEndian Store

structure World where
  disk : Disk
  bcache : Bcache
  log : Log

abbrev DiskProg (α : Type) : Type := Prog World Disk α

def logBlock (start : BlockNo) (tail : Nat) : BlockNo := start + BitVec.ofNat 32 tail + 1

def logHeader (m : Block) : LogHeader where
  n := (word m 0).toInt
  block i := word m (4 + 4 * i)

def putHeader (lh : LogHeader) (m : Block) : Block :=
  setWords (setWord m 0 (BitVec.ofInt 32 lh.n)) 4 lh.block lh.n.toNat

def takeHeader (hb lh : LogHeader) : LogHeader where
  n := hb.n
  block i := if (i : Int) < hb.n then hb.block i else lh.block i

abbrev Tx := List (BlockNo × Block)

def reset (d : Disk) : World where
  disk := d
  bcache := binit
  log := { start := 0, outstanding := 0, committing := 0, lh := { n := 0, block := fun _ => 0 } }

namespace DiskProg

def bread (b : BlockNo) : DiskProg Unit :=
  attempt World.disk (fun w =>
    (Xv6.bread w.disk w.bcache b).map (fun c => ((), { w with bcache := c })))

def bufData (b : BlockNo) : DiskProg Block := do
  let w ← get
  pure (Xv6.bufData w.bcache b)

def setData (b : BlockNo) (v : Block) : DiskProg Unit :=
  modify (fun w => { w with bcache := Xv6.setData w.bcache b v })

def bwrite (b : BlockNo) : DiskProg Unit :=
  write World.disk (fun w => { w with disk := Xv6.bwrite w.disk w.bcache b })

def bpin (b : BlockNo) : DiskProg Unit :=
  modify (fun w => { w with bcache := Xv6.bpin w.bcache b })

def bunpin (b : BlockNo) : DiskProg Unit :=
  modify (fun w => { w with bcache := Xv6.bunpin w.bcache b })

def brelse (b : BlockNo) : DiskProg Unit :=
  modify (fun w => { w with bcache := Xv6.brelse w.bcache b })

def memmove (dst src : BlockNo) : DiskProg Unit := do
  let v ← bufData src
  setData dst v

def getLog : DiskProg Log := do
  let w ← get
  pure w.log

def setLog (f : Log → Log) : DiskProg Unit := modify (fun w => { w with log := f w.log })

def locked (g : Log → Except String (Log × Bool)) : DiskProg Bool :=
  attempt World.disk (fun w => (g w.log).map (fun r => (r.2, { w with log := r.1 })))

def installTrans (recovering : Bool) : DiskProg Unit := do
  let l ← getLog
  loop (fun tail => do
    let lbuf := logBlock l.start tail
    let dbuf := l.lh.block tail
    bread lbuf
    bread dbuf
    memmove dbuf lbuf
    bwrite dbuf
    if recovering then pure () else bunpin dbuf
    brelse lbuf
    brelse dbuf) l.lh.n.toNat

def readHead : DiskProg Unit := do
  let l ← getLog
  bread l.start
  let hb ← bufData l.start
  setLog (fun l => { l with lh := takeHeader (logHeader hb) l.lh })
  brelse l.start

def writeHead : DiskProg Unit := do
  let l ← getLog
  bread l.start
  let hb ← bufData l.start
  setData l.start (putHeader l.lh hb)
  bwrite l.start
  brelse l.start

def clearHead : DiskProg Unit := setLog (fun l => { l with lh := { l.lh with n := 0 } })

def recoverFromLog : DiskProg Unit := do
  readHead
  installTrans true
  clearHead
  writeHead

def writeLog : DiskProg Unit := do
  let l ← getLog
  loop (fun tail => do
    let dst := logBlock l.start tail
    let src := l.lh.block tail
    bread dst
    bread src
    memmove dst src
    bwrite dst
    brelse src
    brelse dst) l.lh.n.toNat

def commit : DiskProg Unit := do
  let l ← getLog
  if l.lh.n > 0 then
    writeLog
    writeHead
    installTrans false
    clearHead
    writeHead
  else pure ()

def beginOp : DiskProg Unit :=
  attempt World.disk (fun w =>
    match Xv6.beginOp w.log with
    | none => .error "asleep"
    | some l => .ok ((), { w with log := l }))

def logWrite (b : BlockNo) : DiskProg Unit := do
  let pinned ← locked (fun l => Xv6.logWrite l b)
  if pinned then bpin b else pure ()

def endOp : DiskProg Unit := do
  let doCommit ← locked Xv6.endOp
  if doCommit then
    commit
    setLog (fun l => { l with committing := 0 })
  else pure ()

def writeBlock (b : BlockNo) (v : Block) : DiskProg Unit := do
  bread b
  setData b v
  logWrite b
  brelse b

def writeBlocks : Tx → DiskProg Unit
  | [] => pure ()
  | (b, v) :: t => do
    writeBlock b v
    writeBlocks t

def transaction (t : Tx) : DiskProg Unit := do
  beginOp
  writeBlocks t
  endOp

def transactions : List Tx → DiskProg Unit
  | [] => pure ()
  | t :: ts => do
    transaction t
    transactions ts

def initlog (logstart : BlockNo) : DiskProg Unit := do
  -- the header is four bytes and four for each entry
  if 4 + 4 * logBlocks ≥ bsize then
    attempt World.disk (fun _ => .error "initlog: too big logheader")
  else
    setLog (fun l => { l with start := logstart })
    recoverFromLog

def At (a : Store) (l : Log) (w : World) : Prop := Represents a w.disk w.bcache ∧ w.log = l

section Specs

variable {H : Prop} {C : Disk → Prop} {a : Store} {l : Log} {b : BlockNo}

theorem bread_spec (hH : b ∉ a.refs → nbuf ≤ a.refs.toFinset.card → H) (hC : C a.disk) :
    Spec H (At a l) (bread b) (fun _ => At (a.hold b) l) C := by
  refine Spec.attempt (fun w hw m hm => ?_) (fun w hw r hr => ?_)
  · cases hb : Xv6.bread w.disk w.bcache b with
    | error m' =>
      obtain ⟨hn, hfull⟩ := hw.1.bread_error hb
      exact ⟨hw.1.disk_eq ▸ hC, hH hn hfull⟩
    | ok c => simp [hb, Except.map] at hm
  · cases hb : Xv6.bread w.disk w.bcache b with
    | error m' => simp [hb, Except.map] at hr
    | ok c =>
      rw [hb] at hr
      obtain rfl := Except.ok.inj hr
      exact ⟨hw.1.bread hb, hw.2⟩

theorem bufData_bind {α : Type} {f : Block → DiskProg α} {Q : α → World → Prop} (hb : b ∈ a.refs)
    (h : Spec H (At a l) (f (a.view b)) Q C) : Spec H (At a l) (bufData b >>= f) Q C := by
  intro w hw
  have hv : Xv6.bufData w.bcache b = a.view b := hw.1.bufData hb
  have hr : (bufData b >>= f) w = f (a.view b) w := by
    rw [← hv]
    rfl
  rw [hr]
  exact h w hw

theorem setData_spec (hb : b ∈ a.refs) (v : Block) :
    Spec H (At a l) (setData b v) (fun _ => At (a.set b v) l) C :=
  Spec.modify (fun _ hw => ⟨hw.1.setData hb v, hw.2⟩)

theorem bwrite_spec (hb : b ∈ a.refs) (hC : C a.disk) :
    Spec H (At a l) (bwrite b) (fun _ => At (a.flush b) l) C :=
  Spec.write (fun _ hw => hw.1.disk_eq ▸ hC) (fun _ hw => ⟨hw.1.bwrite hb, hw.2⟩)

theorem bpin_spec (hb : b ∈ a.refs) : Spec H (At a l) (bpin b) (fun _ => At (a.hold b) l) C :=
  Spec.modify (fun _ hw => ⟨hw.1.bpin hb, hw.2⟩)

theorem bunpin_spec (hb : b ∈ a.refs) (hlast : b ∉ a.refs.erase b → a.view b = a.disk b) :
    Spec H (At a l) (bunpin b) (fun _ => At (a.drop b) l) C :=
  Spec.modify (fun _ hw => ⟨hw.1.bunpin hb hlast, hw.2⟩)

theorem brelse_spec (hb : b ∈ a.refs) (hlast : b ∉ a.refs.erase b → a.view b = a.disk b) :
    Spec H (At a l) (brelse b) (fun _ => At (a.drop b) l) C :=
  Spec.modify (fun _ hw => ⟨hw.1.brelse hb hlast, hw.2⟩)

theorem memmove_spec {dst src : BlockNo} (hd : dst ∈ a.refs) (hs : src ∈ a.refs) :
    Spec H (At a l) (memmove dst src) (fun _ => At (a.set dst (a.view src)) l) C :=
  bufData_bind hs (setData_spec hd _)

theorem setLog_spec (f : Log → Log) : Spec H (At a l) (setLog f) (fun _ => At a (f l)) C :=
  Spec.modify (fun _ hw => ⟨hw.1, congrArg f hw.2⟩)

theorem getLog_bind {α : Type} {f : Log → DiskProg α} {Q : α → World → Prop}
    (h : Spec H (At a l) (f l) Q C) : Spec H (At a l) (getLog >>= f) Q C := by
  intro w hw
  have hr : (getLog >>= f) w = f l w := by
    rw [← hw.2]
    rfl
  rw [hr]
  exact h w hw

theorem locked_bind {α : Type} {g : Log → Except String (Log × Bool)} {r : Log} {x : Bool}
    {f : Bool → DiskProg α} {Q : α → World → Prop} (hg : g l = .ok (r, x))
    (h : Spec H (At a r) (f x) Q C) : Spec H (At a l) (locked g >>= f) Q C := by
  refine (Spec.attempt (Q := fun y w => y = x ∧ At a r w) ?_ ?_).bind (fun y => Spec.of_and ?_)
  · intro w hw m hm
    rw [hw.2, hg] at hm
    simp [Except.map] at hm
  · intro w hw y hy
    rw [hw.2, hg] at hy
    obtain rfl := Except.ok.inj hy
    exact ⟨rfl, hw.1, rfl⟩
  · rintro rfl
    exact h

theorem writeLog_copy {dst src : BlockNo} (hs : src ∈ a.refs) (hC : C a.disk) :
    Spec H (At (a.hold dst) l) (do bread src; memmove dst src; bwrite dst; brelse src; brelse dst)
      (fun _ => At (a.put dst (a.view src)) l) C := by
  have hd := mem_hold_of_mem src (a.mem_hold dst)
  refine (bread_spec (fun hn => absurd (mem_hold_of_mem dst hs) hn) hC).bind (fun _ => ?_)
  refine (memmove_spec hd (mem_hold _ src)).bind (fun _ => ?_)
  refine (bwrite_spec (by exact hd) (by exact hC)).bind (fun _ => ?_)
  rw [set_flush, hold_put, hold_put]
  refine (brelse_spec (mem_hold _ src) (fun hn => ?_)).bind (fun _ => ?_)
  · refine absurd ?_ hn
    rw [hold, Multiset.erase_cons_head]
    exact mem_hold_of_mem dst hs
  · rw [hold_drop]
    refine (brelse_spec (mem_hold _ dst) (fun _ => by exact put_clean a dst _)).post ?_
    intro _ w hw
    rwa [hold_drop] at hw

theorem writeLog_round {dst src : BlockNo} (hs : src ∈ a.refs)
    (hH : dst ∉ a.refs → nbuf ≤ a.refs.toFinset.card → H) (hC : C a.disk) :
    Spec H (At a l) (do bread dst; bread src; memmove dst src; bwrite dst; brelse src; brelse dst)
      (fun _ => At (a.put dst (a.view src)) l) C :=
  (bread_spec hH hC).bind (fun _ => writeLog_copy hs hC)

theorem installTrans_copy {lbuf dbuf : BlockNo} (hne : lbuf ≠ dbuf)
    (hclean : a.view lbuf = a.disk lbuf) (hd : dbuf ∈ a.refs) (hC : C a.disk) :
    Spec H (At (a.hold lbuf) l)
      (do bread dbuf; memmove dbuf lbuf; bwrite dbuf; bunpin dbuf; brelse lbuf; brelse dbuf)
      (fun _ => At ((a.put dbuf (a.disk lbuf)).drop dbuf) l) C := by
  have hbuf := (a.hold lbuf).mem_hold dbuf
  refine (bread_spec (fun hn => absurd (mem_hold_of_mem lbuf hd) hn) hC).bind (fun _ => ?_)
  refine (memmove_spec hbuf (mem_hold_of_mem dbuf (a.mem_hold lbuf))).bind (fun _ => ?_)
  refine (bwrite_spec (by exact hbuf) (by exact hC)).bind (fun _ => ?_)
  have hview : ((a.hold lbuf).hold dbuf).view lbuf = a.disk lbuf := hclean
  have hlast : (a.put dbuf (a.disk lbuf)).view lbuf = (a.put dbuf (a.disk lbuf)).disk lbuf := by
    simp only [put, Function.update_of_ne hne, hclean]
  rw [set_flush, hold_put, hold_put, hview]
  generalize ha : a.put dbuf (a.disk lbuf) = a' at hlast ⊢
  have hput : a'.view dbuf = a'.disk dbuf := ha ▸ put_clean a dbuf _
  refine (bunpin_spec (mem_hold _ dbuf) (fun _ => by exact hput)).bind (fun _ => ?_)
  rw [hold_drop]
  refine (brelse_spec (mem_hold _ lbuf) (fun _ => by exact hlast)).bind (fun _ => ?_)
  rw [hold_drop]
  exact brelse_spec (ha ▸ hd) (fun _ => by exact hput)

theorem installTrans_round {recovering : Bool} {lbuf dbuf : BlockNo} (hne : lbuf ≠ dbuf)
    (hl : lbuf ∉ a.refs) (hd : recovering = false → dbuf ∈ a.refs)
    (hH : nbuf ≤ a.refs.toFinset.card → H)
    (hH' : dbuf ∉ a.refs → nbuf ≤ (a.hold lbuf).refs.toFinset.card → H) (hC : C a.disk) :
    Spec H (At a l) (do
        bread lbuf
        bread dbuf
        memmove dbuf lbuf
        bwrite dbuf
        if recovering then pure () else bunpin dbuf
        brelse lbuf
        brelse dbuf)
      (fun _ => At (if recovering then a.put dbuf (a.disk lbuf)
        else (a.put dbuf (a.disk lbuf)).drop dbuf) l) C := by
  refine Spec.assume (fun w hw => ?_)
  have hclean : a.view lbuf = a.disk lbuf := hw.1.clean lbuf hl
  refine (bread_spec (fun _ => hH) hC).bind (fun _ => ?_)
  cases recovering with
  | false =>
    simp only [Bool.false_eq_true, if_false]
    exact installTrans_copy hne hclean (hd rfl) hC
  | true =>
    simp only [if_true]
    have hbuf := (a.hold lbuf).mem_hold dbuf
    refine (bread_spec (fun hn => hH' (fun hm => hn (mem_hold_of_mem lbuf hm))) hC).bind
      (fun _ => ?_)
    refine (memmove_spec hbuf (mem_hold_of_mem dbuf (a.mem_hold lbuf))).bind (fun _ => ?_)
    refine (bwrite_spec (by exact hbuf) (by exact hC)).bind (fun _ => ?_)
    have hview : ((a.hold lbuf).hold dbuf).view lbuf = a.disk lbuf := hclean
    have hlast : (a.put dbuf (a.disk lbuf)).view lbuf = (a.put dbuf (a.disk lbuf)).disk lbuf := by
      simp only [put, Function.update_of_ne hne, hclean]
    rw [set_flush, hold_put, hold_put, hview, hold_comm]
    refine (brelse_spec (mem_hold _ lbuf) (fun _ => by exact hlast)).bind (fun _ => ?_)
    rw [hold_drop]
    refine (brelse_spec (mem_hold _ dbuf) (fun _ => by exact put_clean a dbuf _)).post ?_
    intro _ w hw
    simpa using hw

theorem writeHead_spec (hs : l.start ∉ a.refs) (hH : nbuf ≤ a.refs.toFinset.card → H)
    (hC : C a.disk) :
    Spec H (At a l) writeHead
      (fun _ => At (a.put l.start (putHeader l.lh (a.disk l.start))) l) C := by
  refine Spec.assume (fun w hw => ?_)
  have hclean : a.view l.start = a.disk l.start := hw.1.clean _ hs
  have hb := a.mem_hold l.start
  refine getLog_bind ((bread_spec (fun _ => hH) hC).bind (fun _ => ?_))
  refine bufData_bind hb ?_
  rw [show (a.hold l.start).view l.start = a.disk l.start from hclean]
  refine (setData_spec hb _).bind (fun _ => ?_)
  refine (bwrite_spec (by exact hb) (by exact hC)).bind (fun _ => ?_)
  rw [set_flush, hold_put]
  refine (brelse_spec (mem_hold _ _) (fun _ => by exact put_clean a _ _)).post ?_
  intro _ w hw
  rwa [hold_drop] at hw

theorem readHead_spec (hs : l.start ∉ a.refs) (hH : nbuf ≤ a.refs.toFinset.card → H)
    (hC : C a.disk) :
    Spec H (At a l) readHead
      (fun _ => At a { l with lh := takeHeader (logHeader (a.disk l.start)) l.lh }) C := by
  refine Spec.assume (fun w hw => ?_)
  have hclean : a.view l.start = a.disk l.start := hw.1.clean _ hs
  have hb := a.mem_hold l.start
  refine getLog_bind ((bread_spec (fun _ => hH) hC).bind (fun _ => ?_))
  refine bufData_bind hb ?_
  rw [show (a.hold l.start).view l.start = a.disk l.start from hclean]
  refine (setLog_spec _).bind (fun _ => ?_)
  refine (brelse_spec hb (fun _ => hclean)).post ?_
  intro _ w hw
  rwa [hold_drop] at hw

theorem logWrite_spec {r : Log} (hw : Xv6.logWrite l b = .ok (r, true)) (hb : b ∈ a.refs) :
    Spec H (At a l) (logWrite b) (fun _ => At (a.hold b) r) C := by
  refine locked_bind hw ?_
  exact bpin_spec hb

theorem writeBlock_spec {r : Log} (hw : Xv6.logWrite l b = .ok (r, true))
    (hH : nbuf ≤ a.refs.toFinset.card → H) (hC : C a.disk) (v : Block) :
    Spec H (At a l) (writeBlock b v) (fun _ => At ((a.set b v).hold b) r) C := by
  have hb := a.mem_hold b
  refine (bread_spec (fun _ => hH) hC).bind (fun _ => ?_)
  refine (setData_spec hb v).bind (fun _ => ?_)
  refine (logWrite_spec hw (by exact hb)).bind (fun _ => ?_)
  refine (brelse_spec (mem_hold _ b) (fun hn => absurd ?_ hn)).post (fun _ w h => ?_)
  · rw [hold, Multiset.erase_cons_head]
    exact hb
  · rwa [hold_drop] at h

theorem beginOp_spec {r : Log} (hb : Xv6.beginOp l = some r) :
    Spec H (At a l) beginOp (fun _ => At a r) C := by
  refine Spec.attempt ?_ ?_
  · intro w h m hm
    simp [h.2, hb] at hm
  · intro w h x hx
    simp only [h.2, hb] at hx
    obtain rfl := Except.ok.inj hx
    exact ⟨h.1, rfl⟩

theorem endOp_spec {r : Log} {Q : World → Prop} (he : Xv6.endOp l = .ok (r, true))
    (hc : Spec H (At a r) commit (fun _ => Q) C) :
    Spec H (At a l) endOp
      (fun _ w => ∃ w', Q w' ∧ w = { w' with log := { w'.log with committing := 0 } }) C := by
  refine locked_bind he ?_
  exact hc.bind (fun _ => Spec.modify (fun w hw => ⟨w, hw, rfl⟩))

end Specs

end DiskProg

end Xv6
