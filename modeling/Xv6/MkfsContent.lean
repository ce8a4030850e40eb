import Xv6.MkfsMain
import Xv6.FileBytes

/-! The file format that `mkfs` and the kernel share: what `iappend` has put behind
an inode is what `readi` returns of it. -/

namespace Xv6

open LittleEndian Fallible FsM Records Function List Fs

theorem copyin_getElem (p : List Byte) (a m : Nat) :
    copyin (fun i => p[i]?) a m = (p.drop a).take m := by
  induction m generalizing a with
  | zero => rfl
  | succ m ih =>
    unfold copyin
    cases ha : p[a]? with
    | none =>
      rw [drop_eq_nil_of_le (getElem?_eq_none_iff.mp ha), take_nil]
    | some x =>
      obtain ⟨hlt, rfl⟩ := List.getElem?_eq_some_iff.mp ha
      dsimp only
      rw [ih, ← cons_getElem_drop_succ (h := hlt), take_succ_cons]

namespace Mkfs

section Appending

variable {m t u : Mk} {inum n : Nat} {din d : Dinode}

theorem appendLoop_wrote (hf : (m.opened inum din).Filled inum) (hty : din.type ≠ 0)
    (p : List Byte) (fuel tot : Nat) (h : Drawing t inum d)
    (hw : Wrote nmeta (m.opened inum din) inum (fun a => p[a]?) din.size p.length tot
      (t.opened inum d)) (htot : tot ≤ p.length) (hfuel : p.length - tot ≤ fuel) :
    Ends (appendLoop fuel d (din.size + tot) (p.drop tot)) t (fun r u =>
      Wrote nmeta (m.opened inum din) inum (fun a => p[a]?) din.size p.length p.length
        (u.opened inum r.1)) (fun _ => True) := by
  have hty' : ((m.opened inum din).node inum).type ≠ 0 := by rwa [opened_node]
  induction fuel generalizing tot t d with
  | zero =>
    obtain rfl : tot = p.length := by omega
    exact Ends.pure hw
  | succ fuel ih =>
    unfold appendLoop
    by_cases hlt : tot < p.length
    · rw [if_pos (by rw [length_drop]; omega)]
      generalize hoff : din.size + tot = off
      refine (assert_spec (Q := fun _ u => u = t ∧ off / bsize < maxfile)
        (fun hb => ⟨rfl, of_decide_eq_true hb⟩) (fun _ => trivial)).bind ?_
      rintro _ _ ⟨rfl, hfbn⟩
      refine (blockFor_spec h hfbn (fun _ => trivial)).bind (fun r u hu => ?_)
      refine (rsect_found hu.2 (fun hp => ⟨hp.1.drawing.sound,
        (hp.1.drawing.owner_bounds hp.2).2⟩) (fun _ => trivial)).bind ?_
      rintro v u' ⟨rfl, rfl, ⟨hgrown, hown⟩, hsmall⟩
      refine Ends.bind_ok (wsect_run hsmall) ?_
      have hdm := Nat.div_add_mod off bsize
      have hmod : off % bsize < bsize := Nat.mod_lt _ (by decide)
      have hstart : off - off / bsize * bsize = off % bsize := by
        rw [Nat.mul_comm]
        omega
      have hroom : (off / bsize + 1) * bsize - off = bsize - off % bsize := by
        rw [Nat.add_mul, Nat.one_mul, Nat.mul_comm]
        omega
      rw [hstart, hroom, length_drop, drop_drop]
      generalize hk : min (p.length - tot) (bsize - off % bsize) = k
      have hlow := (hgrown.drawing.owner_bounds hown).1
      have hput := opened_put u' inum r.1 (blit (u'.image r.2) (off % bsize) ((p.drop tot).take k))
        hlow
      have hblock : (u'.opened inum r.1).block r.2 = u'.image r.2 := if_neg (by omega)
      have hx := hw.extend hf hty' hgrown.drawing.editing hgrown.keeps
      rw [← hoff] at hown
      have hround := hx.round hf hty' hown (m := k) (by omega) (by rw [hoff]; omega) (by omega)
        (by rw [copyin_getElem, length_take, length_drop]; omega)
      rw [hoff, hblock, copyin_getElem, ← hput] at hround
      have hdraw := (hgrown.drawing.write hown (place_ne_ndirect _)
        (blit (u'.image r.2) (off % bsize) ((p.drop tot).take k))).1
      have hrec := ih (tot + k) hdraw hround (by omega) (by omega)
      rwa [← Nat.add_assoc, hoff] at hrec
    · rw [if_neg (by rw [length_drop]; omega)]
      obtain rfl : tot = p.length := by omega
      exact Ends.pure hw

theorem iappend_view (h : Built m n) (hn : n ≤ capacity) (hi : 1 ≤ inum ∧ inum < n)
    {nd : Node} (hnd : m.fs.view inum = some nd) (p : List Byte) :
    Ends (iappend inum p) m (fun _ t => t.fs.view =
      update m.fs.view inum (some { nd with data := nd.data ++ p })) (fun _ => True) := by
  have hcap : inum < capacity := by omega
  have hty : (m.fs.dinode inum).type ≠ 0 := (h.live inum).mpr hi
  generalize hdin : m.fs.dinode inum = din at *
  have hsame : din = m.fs.dinode inum ∧ din.type ≠ 0 := ⟨hdin.symm, hty⟩
  obtain ⟨hgood, hview⟩ := h.good.setInode (e := ⟨1, true, din⟩) (fun _ => hsame) m.fs.inuse
  have hgood : Good nmeta (m.opened inum din) := hgood
  have hview : (m.opened inum din).view = m.fs.view := hview
  have hvalid : ((m.opened inum din).itable inum).valid = true := by
    simp [Mk.opened, setInode]
  have hnode : (m.opened inum din).node inum = din := opened_node m inum din
  have hsize : din.size = nd.data.length := by
    rw [← hnode]
    exact view_size (by rw [hview]; exact hnd)
  have hdrawn := h.drawn hi
  rw [hdin] at hdrawn
  have hstart : Wrote nmeta (m.opened inum din) inum (fun a => p[a]?) din.size p.length 0
      (m.opened inum din) := hgood.wrote_zero hvalid (by rw [hnode])
  refine Ends.bind_ok (rinode_run h.sound hcap) ?_
  rw [hdin]
  have hrounds := appendLoop_wrote (hgood.filled inum) hty p p.length 0 hdrawn.drawing hstart
    (Nat.zero_le _) (by omega)
  rw [Nat.add_zero, drop_zero] at hrounds
  refine (hrounds.and (appendLoop_spec (E := fun _ => True) p.length _ p hdrawn le_rfl
    (fun _ => trivial) (fun _ => trivial))).bind ?_
  rintro r t ⟨hw, hoff, hd, -⟩
  rw [hoff]
  have hstored : ({ r.1 with size := din.size + p.length } : Dinode).Stored := by
    rw [← hdin] at hd ⊢
    exact hd.stored
  refine Ends.of_ok (winode_run hd.drawing.sound hcap) ?_
  have hwritten := hw.written (hgood.filled inum) le_rfl (.inr (.inl rfl)) (hw.strays le_rfl)
  have hedit : (if din.size + p.length > ((t.opened inum r.1).node inum).size then
      (t.opened inum r.1).edit inum (fun d => { d with size := din.size + p.length })
      else t.opened inum r.1) = t.opened inum { r.1 with size := din.size + p.length } := by
    have hsame : r.1.size = din.size := by rw [hd.header]
    rw [opened_node, hsame]
    split_ifs with hgt
    · exact opened_edit t inum r.1 (fun d => { d with size := din.size + p.length })
    · have hzero : din.size + p.length = r.1.size := by omega
      rw [hzero]
  rw [hedit] at hwritten
  have hfull : ∀ a < p.length, p[a]? ≠ none := fun a ha => by simpa using ha
  have hcontent := hwritten.content (by rw [hview]; exact hnd) hsize.le hfull
  have hbecomes := hwritten.becomes hgood (by rw [hview]; exact hnd)
  have hall := congrArg Inodes.view hbecomes.inodes
  rw [← store_stopped t hcap hstored, hwritten.good.stopped_view]
  refine hall.trans ?_
  have hsplice : splice nd.data din.size p = nd.data ++ p := by
    rw [splice, hsize, take_length, drop_eq_nil_of_le (Nat.le_add_right _ _), append_nil]
  rw [hcontent, map_range_getElem le_rfl, take_length, hsplice, ← hview]
  rfl

theorem ialloc_view (h : Built m n) (hn : 1 ≤ n ∧ n < capacity) {type : Int} (ht : type ≠ 0)
    (hs : -2 ^ 15 ≤ type ∧ type < 2 ^ 15) :
    Ends (ialloc type) m (fun _ t => t.fs.view =
      update m.fs.view n (some ⟨type, 0, 0, 1, []⟩)) (fun _ => False) := by
  refine (ialloc_spec h hn type ht hs).post (fun _ t hspec => ?_)
  have hfs := hspec.2.2.2
  funext i
  by_cases hi : i = n
  · have hnode : t.fs.node i = { type := type, nlink := 1, size := 0 } := by
      rw [fs_node, hfs, hi]
      exact update_self _ _ _
    rw [hi, update_self, ← hi]
    unfold view content
    rw [hnode]
    exact if_neg ht
  · have hnode : t.fs.node i = m.fs.node i := by
      rw [fs_node, hfs]
      exact update_of_ne hi _ _
    rw [update_of_ne hi]
    refine view_congr hnode (fun _ b _ => ?_) (h.good.filled i)
    rw [hfs]

end Appending

/-- The kernel's `readi` on an inode of the image, under the lock of the inode. -/
def readImage (image : Disk) (inum : Nat) (dst : Nat → Bool) (off n : Nat) :
    Except String ((Int × List Byte) × Fs) :=
  (do
    iget inum
    ilock inum
    readi inum dst off n : FsM (Int × List Byte)) (mount image)

section Reading

variable {m : Mk} {i n : Nat} {nd : Node}

theorem Built.mount_dinode (h : Built m n) (hi : i < ninodes) :
    (mount m.image).dinode i = m.fs.dinode i := by
  have hcap : ninodes ≤ capacity := by decide
  have hword : (word superblock 12).toNat = ninodes := by
    rw [super_word (i := 3) (by decide)]
    decide
  have hword' : (word superblock 24).toNat = inodestart := by
    rw [super_word (i := 6) (by decide)]
    decide
  unfold mount
  dsimp only
  rw [h.super, hword, hword', if_pos hi]
  exact (if_pos (by omega : i < capacity)).symm

def held (image : Disk) (i : Nat) : Fs :=
  { (mount image).setInode i ⟨1, true, (mount image).dinode i⟩ with inuse := 1 }

theorem readImage_held {image : Disk} (ht : ((mount image).dinode i).type ≠ 0) (dst : Nat → Bool)
    (off k : Nat) : readImage image i dst off k = readi i dst off k (held image i) := by
  generalize hs : ({ (mount image).setInode i ⟨1, false, {}⟩ with inuse := 1 } : Fs) = s
  have hget : iget i (mount image) = .ok ((), s) := by
    subst hs
    rfl
  have hentry : s.itable i = ⟨1, false, {}⟩ := by
    subst hs
    exact update_self _ _ _
  have hdin : s.dinode i = (mount image).dinode i := by
    subst hs
    rfl
  have hset : s.setInode i ⟨1, true, (mount image).dinode i⟩ = held image i := by
    subst hs
    simp [held, setInode]
  have hlock : ilock i s = .ok ((), held image i) := by
    refine Ends.eq_ok (Ends.get_bind ?_)
    rw [hentry, if_neg (by decide), if_neg (by decide)]
    refine Ends.set_bind ?_
    rw [hdin, if_neg ht, hset]
    exact Ends.pure ⟨rfl, rfl⟩
  rw [readImage, bind_ok hget, bind_ok hlock]

def Reads (image : Disk) (i : Nat) (data : List Byte) : Prop :=
  ∀ (dst : Nat → Bool) (off k : Nat), off < 2 ^ 32 → k < 2 ^ 32 → (∀ a < k, dst a = true) →
    ∃ u, readImage image i dst off k =
      .ok (((readBytes data off k).length, readBytes data off k), u)

theorem Built.reads (h : Built m n) (hi : 1 ≤ i ∧ i < n) (hnd : m.fs.view i = some nd)
    {image : Disk} (hdin : (mount image).dinode i = m.fs.dinode i)
    (himage : ∀ b : BlockNo, ¬ b.toNat < nmeta → image b = m.image b) :
    Reads image i nd.data := by
  intro dst off k hoff hk hdst
  have hty : (m.fs.dinode i).type ≠ 0 := (h.live i).mpr hi
  have hvalid : ((held image i).itable i).valid = true := by simp [held, setInode]
  have hnode : (held image i).node i = m.fs.node i := by
    rw [node_of_valid hvalid, fs_node, ← hdin]
    simp [held, setInode]
  have hblock : ∀ j b, m.fs.owner (i, j) = some b → (held image i).block b = m.fs.block b := by
    intro j b hb
    have hlow : ¬ b.toNat < nmeta := (h.good.owned.owned _ _ hb).1
    exact (himage b hlow).trans (if_neg hlow).symm
  have hview : (held image i).view i = some nd :=
    (view_congr hnode hblock (h.good.filled i)).trans hnd
  have hfilled : (held image i).Filled i := by
    intro _ bn hbn
    rw [owner_congr hnode (hblock ndirect)]
    rw [hnode] at hbn
    exact h.good.filled i hty bn hbn
  rw [readImage_held (by rwa [hdin])]
  exact ⟨_, readi_filled hvalid hfilled hview hoff hk hdst⟩

end Reading

/-- What `main` does to the image between the superblock and the end. -/
inductive Job
  | ialloc (type : Int)
  | iappend (inum : Nat) (p : List Byte)

def job : Job → MkM Unit
  | .ialloc type => do
    let _ ← Mkfs.ialloc type
    pure ()
  | .iappend inum p => Mkfs.iappend inum p

def jobs : List Job → MkM Unit
  | [] => pure ()
  | j :: js => do
    job j
    jobs js

/-- The inodes below `count` and the bytes that were appended to each of them. -/
structure Texts where
  count : Nat
  text : Nat → List Byte

namespace Texts

def init : Texts := ⟨1, fun _ => []⟩

def after (T : Texts) : Job → Texts
  | .ialloc _ => { T with count := T.count + 1 }
  | .iappend inum p => { T with text := Function.update T.text inum (T.text inum ++ p) }

def afterAll (T : Texts) : List Job → Texts
  | [] => T
  | j :: js => (T.after j).afterAll js

def Allows (T : Texts) : Job → Prop
  | .ialloc type => type ≠ 0 ∧ (-2 ^ 15 ≤ type ∧ type < 2 ^ 15) ∧ T.count < ninodes
  | .iappend inum p => (1 ≤ inum ∧ inum < T.count) ∧ (T.text inum ++ p).length ≤ maxfile * bsize

instance (T : Texts) : (j : Job) → Decidable (T.Allows j)
  | .ialloc _ => inferInstanceAs (Decidable (_ ∧ (_ ∧ _) ∧ _))
  | .iappend _ _ => inferInstanceAs (Decidable ((_ ∧ _) ∧ _))

def AllowsAll (T : Texts) : List Job → Prop
  | [] => True
  | j :: js => T.Allows j ∧ (T.after j).AllowsAll js

def cost (T : Texts) : Job → Nat
  | .ialloc _ => 0
  | .iappend inum p => 2 * rounds (T.text inum).length p.length

def costAll (T : Texts) : List Job → Nat
  | [] => 0
  | j :: js => T.cost j + (T.after j).costAll js

end Texts

def Job.chunk (i : Nat) : Job → List Byte
  | .ialloc _ => []
  | .iappend inum p => if inum = i then p else []

/-- The chunks that were appended to inode `i`, one after the other. -/
def appended (i : Nat) (js : List Job) : List Byte := js.flatMap (Job.chunk i)

theorem Texts.text_afterAll (T : Texts) (i : Nat) (js : List Job) :
    (T.afterAll js).text i = T.text i ++ appended i js := by
  induction js generalizing T with
  | nil => simp [afterAll, appended]
  | cons j js ih =>
    have hj : (T.after j).text i = T.text i ++ j.chunk i := by
      cases j with
      | ialloc type => simp [after, Job.chunk]
      | iappend inum p =>
        unfold after Job.chunk
        by_cases hi : inum = i
        · subst hi
          simp
        · simp [hi, update_of_ne (Ne.symm hi)]
    rw [afterAll, ih, hj, append_assoc]
    rfl

structure Carries (m : Mk) (T : Texts) : Prop where
  built : Built m T.count
  pos : 1 ≤ T.count
  le : T.count ≤ ninodes
  text : ∀ i, 1 ≤ i → i < T.count → ∃ nd, m.fs.view i = some nd ∧ nd.data = T.text i
  fresh : ∀ i, T.count ≤ i → T.text i = []

section Jobs

variable {m t : Mk} {T : Texts}

theorem carries_blank : Carries blank Texts.init :=
  ⟨built_blank, le_rfl, by decide, fun i h1 h2 => absurd h2 (Nat.not_lt.mpr h1), fun _ _ => rfl⟩

theorem Carries.ialloc (h : Carries m T) {type : Int} (hlt : T.count < ninodes)
    (hb : Built t (T.count + 1)) (hview : t.fs.view =
      update m.fs.view T.count (some ⟨type, 0, 0, 1, []⟩)) :
    Carries t (T.after (.ialloc type)) := by
  refine ⟨hb, Nat.succ_pos _, hlt, fun i h1 hi => ?_, fun i hi => h.fresh i (by
    simp only [Texts.after] at hi
    omega)⟩
  rw [hview]
  by_cases hii : i = T.count
  · rw [hii, update_self]
    exact ⟨_, rfl, (h.fresh _ le_rfl).symm⟩
  · rw [update_of_ne hii]
    simp only [Texts.after] at hi
    exact h.text i h1 (by omega)

theorem Carries.iappend (h : Carries m T) {inum : Nat} {p : List Byte} {nd : Node}
    (hi : inum < T.count) (hnd : nd.data = T.text inum) (hb : Built t T.count)
    (hview : t.fs.view = update m.fs.view inum (some { nd with data := nd.data ++ p })) :
    Carries t (T.after (.iappend inum p)) := by
  refine ⟨hb, h.pos, h.le, fun i h1 hlt => ?_, fun i hge => ?_⟩
  · rw [hview]
    simp only [Texts.after]
    by_cases hii : i = inum
    · rw [hii, update_self, update_self, ← hnd]
      exact ⟨_, rfl, rfl⟩
    · rw [update_of_ne hii, update_of_ne hii]
      exact h.text i h1 hlt
  · have hge : T.count ≤ i := hge
    simp only [Texts.after]
    rw [update_of_ne (by omega)]
    exact h.fresh i hge

theorem job_spec (h : Carries m T) (j : Job) (hj : T.Allows j) :
    Ends (job j) m (fun _ t => Carries t (T.after j) ∧
      t.freeblock.toNat ≤ m.freeblock.toNat + T.cost j)
      (fun e => e = "read" ∧ fssize < m.freeblock.toNat + T.cost j) := by
  have hcap : ninodes ≤ capacity := by decide
  have hle := h.le
  cases j with
  | ialloc type =>
    obtain ⟨hty, hshort, hlt⟩ := hj
    have hn : 1 ≤ T.count ∧ T.count < capacity := ⟨h.pos, by omega⟩
    refine ((ialloc_spec h.built hn type hty hshort).and (ialloc_view h.built hn hty hshort)).bind
      ?_
    rintro _ t ⟨⟨-, hb, hfree, -⟩, hview⟩
    exact Ends.pure ⟨h.ialloc hlt hb hview, by rw [hfree]; exact Nat.le_add_right _ _⟩
  | iappend inum p =>
    obtain ⟨hi, hmax⟩ := hj
    obtain ⟨nd, hnd, hdata⟩ := h.text inum hi.1 hi.2
    have hsize : (m.fs.dinode inum).size = (T.text inum).length := by
      rw [← hdata]
      exact view_size hnd
    rw [length_append] at hmax
    refine ((iappend_spec h.built (by omega) hi p (fun hbig => ?_) (fun hfull => ?_)).and
      (iappend_view h.built (by omega) hi hnd p)).post (fun _ t ht => ?_)
    · rw [hsize] at hbig
      omega
    · rw [hsize] at hfull
      exact ⟨rfl, hfull⟩
    · obtain ⟨⟨hb, -, -, hfree⟩, hview⟩ := ht
      rw [hsize] at hfree
      exact ⟨h.iappend hi.2 hdata hb hview, hfree⟩

theorem jobs_spec (js : List Job) (h : Carries m T) (hj : T.AllowsAll js) :
    Ends (jobs js) m (fun _ t => Carries t (T.afterAll js))
      (fun e => e = "read" ∧ fssize < m.freeblock.toNat + T.costAll js) := by
  induction js generalizing m T with
  | nil => exact Ends.pure h
  | cons j js ih =>
    refine ((job_spec h j hj.1).mono (fun _ _ ht => ht) ?_).bind (fun _ t ht => ?_)
    · rintro e ⟨he, hfull⟩
      exact ⟨he, by unfold Texts.costAll; omega⟩
    · refine (ih ht.1 hj.2).mono (fun _ _ hu => hu) ?_
      rintro e ⟨he, hfull⟩
      exact ⟨he, by unfold Texts.costAll; omega⟩

theorem Carries.reads (h : Carries m T) {i : Nat} (h1 : 1 ≤ i) (hi : i < T.count) :
    Reads m.image i (T.text i) ∧ (i ≠ rootino → Reads m.finish.image i (T.text i)) := by
  obtain ⟨nd, hnd, hdata⟩ := h.text i h1 hi
  have hlt : i < ninodes := lt_of_lt_of_le hi h.le
  rw [← hdata]
  refine ⟨h.built.reads ⟨h1, hi⟩ hnd (h.built.mount_dinode hlt) (fun _ _ => rfl), fun hr => ?_⟩
  refine h.built.reads ⟨h1, hi⟩ hnd ?_ (fun b hb => finish_block m hb)
  rw [h.built.finish_dinode (by omega) hlt, update_of_ne hr]

end Jobs

/-- The image in every state of its making, and at the end apart from the root directory,
whose size is rounded up. -/
theorem appended_read_back (js : List Job) (h : Texts.init.AllowsAll js) :
    Ends (jobs js) blank (fun _ t =>
      (∀ i, 1 ≤ i → i < (Texts.init.afterAll js).count → Reads t.image i (appended i js) ∧
        (i ≠ rootino → Reads t.finish.image i (appended i js))) ∧
      ∀ i k p u, 1 ≤ i → i < (Texts.init.afterAll js).count → k ≠ i →
        (Texts.init.afterAll js).Allows (.iappend k p) → iappend k p t = .ok ((), u) →
        Reads u.image i (appended i js))
      (fun e => e = "read" ∧ fssize < nmeta + Texts.init.costAll js) := by
  have htext : ∀ i, (Texts.init.afterAll js).text i = appended i js :=
    fun i => Texts.text_afterAll Texts.init i js
  refine (jobs_spec js carries_blank h).post (fun _ t ht => ⟨fun i h1 hi => ?_, ?_⟩)
  · rw [← htext]
    exact ht.reads h1 hi
  · intro i k p u h1 hi hk hallow hrun
    have hu := ((job_spec ht (.iappend k p) hallow).ok hrun).1.reads h1 hi
    have hsame : ((Texts.init.afterAll js).after (.iappend k p)).text i = appended i js := by
      rw [← htext]
      exact update_of_ne hk.symm _ _
    rw [hsame] at hu
    exact hu.1

def twoFiles : List Job :=
  [.ialloc tDir, .iappend 1 [1, 2, 3], .ialloc tFile, .iappend 2 [4], .iappend 1 [5]]

theorem twoFiles_allowed : Texts.init.AllowsAll twoFiles :=
  ⟨by decide, by decide, by decide, by decide, by decide, trivial⟩

theorem appended_read_back_two : Texts.init.AllowsAll twoFiles ∧
    ∃ t u, jobs twoFiles blank = .ok ((), t) ∧
      readImage t.image 1 (fun _ => true) 2 9 = .ok ((2, [3, 5]), u) := by
  refine ⟨twoFiles_allowed, ?_⟩
  have hroom : nmeta + Texts.init.costAll twoFiles ≤ fssize := by decide
  obtain ⟨_, t, hrun, hreads, -⟩ := (appended_read_back twoFiles twoFiles_allowed).returns_of_not
    (fun e he => absurd he.2 (Nat.not_lt.mpr hroom))
  obtain ⟨u, hu⟩ := (hreads 1 le_rfl (by decide)).1 (fun _ => true) 2 9 (by decide) (by decide)
    (fun _ _ => rfl)
  exact ⟨t, u, hrun, hu⟩

/-- A request for as many bytes as possible, from one byte on. -/
theorem appended_read_wraps : ∃ t u, jobs twoFiles blank = .ok ((), t) ∧
    ((appended 1 twoFiles).drop 1).take (2 ^ 32 - 1) = [2, 3, 5] ∧
    readImage t.image 1 (fun _ => true) 1 (2 ^ 32 - 1) = .ok ((0, []), u) := by
  have hroom : nmeta + Texts.init.costAll twoFiles ≤ fssize := by decide
  obtain ⟨_, t, hrun, ht⟩ := (jobs_spec twoFiles carries_blank twoFiles_allowed).returns_of_not
    (fun e he => absurd he.2 (Nat.not_lt.mpr hroom))
  obtain ⟨u, hu⟩ := (ht.reads le_rfl (by decide)).1 (fun _ => true) 1 (2 ^ 32 - 1) (by decide)
    (by decide) (fun _ _ => rfl)
  exact ⟨t, u, hrun, take_of_length_le (by decide), hu⟩

end Mkfs

end Xv6
