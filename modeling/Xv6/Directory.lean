import Xv6.CString
import Xv6.InodeData

/-! Directories: inodes whose content is a list of entries. A name is a buffer
that need not be terminated when it fills all of its `DIRSIZ` bytes. -/

namespace Xv6

open Fallible FsM Records CString List Inodes Fs

def dirsiz : Nat := 14

structure Dirent where
  inum : Nat
  name : Buffer
deriving DecidableEq

def direntSize : Nat := 16

def namecmp (s t : Buffer) : Int := strncmp dirsiz s t

def Dirent.encode (de : Dirent) : List Byte :=
  BitVec.ofNat 8 de.inum :: BitVec.ofNat 8 (de.inum / 2 ^ 8) :: de.name

def Dirent.decode (bs : List Byte) : Dirent where
  inum := (bs.getD 0 0).toNat + 2 ^ 8 * (bs.getD 1 0).toNat
  name := bs.drop 2

def dirents (data : List Byte) : List Dirent := (chunks direntSize data).map Dirent.decode

def Dirent.new (name : Buffer) (inum : Nat) : Dirent := ⟨inum % 2 ^ 16, strncpy dirsiz name⟩

def Dirent.free : Dirent := ⟨0, List.replicate dirsiz 0⟩

namespace FsM

/-- The loops over the entries of a directory: from offset `off` to the first
entry that passes the test, or to the end. -/
def scan (dp : Nat) (msg : String) (test : Dirent → Bool) : Nat → Nat → FsM (Nat × Option Dirent)
  | 0, off => pure (off, none)
  | fuel + 1, off => do
    let d ← inode dp
    if off < d.size then
      let r ← readi dp (fun _ => true) off direntSize
      if r.1 ≠ direntSize then halt msg
      else if test (Dirent.decode r.2) then pure (off, some (Dirent.decode r.2))
      else scan dp msg test fuel (off + direntSize)
    else pure (off, none)

/-- The inode number and the offset of the entry; the inode is in the table. -/
def dirlookup (dp : Nat) (name : Buffer) : FsM (Option (Nat × Nat)) := do
  let d ← inode dp
  if d.type ≠ tDir then halt "dirlookup not DIR"
  else
    let r ← scan dp "dirlookup read"
      (fun de => de.inum ≠ 0 ∧ namecmp name de.name = 0) (d.size + 1) 0
    match r.2 with
    | some de =>
      iget de.inum
      pure (some (de.inum, r.1))
    | none => pure none

def writeDirent (dp off : Nat) (de : Dirent) : FsM Int :=
  writei dp (fun a => de.encode[a]?) off direntSize

def dirlink (dp : Nat) (name : Buffer) (inum : Nat) : FsM Int := do
  match ← dirlookup dp name with
  | some (ip, _) =>
    iput ip
    pure (-1)
  | none =>
    let d ← inode dp
    let r ← scan dp "dirlink read" (fun de => de.inum = 0) (d.size + 1) 0
    if (← writeDirent dp r.1 (Dirent.new name inum)) ≠ direntSize then pure (-1) else pure 0

def isdirempty (dp : Nat) : FsM Bool := do
  let d ← inode dp
  let r ← scan dp "isdirempty: readi" (fun de => de.inum ≠ 0) (d.size + 1) (2 * direntSize)
  pure r.2.isNone

end FsM

/-- The inode number and the offset of the first entry with the name. -/
def lookup (es : List Dirent) (name : Buffer) : Option (Nat × Nat) :=
  let k := es.findIdx (fun de => de.inum ≠ 0 ∧ namecmp name de.name = 0)
  (es[k]?).map (fun de => (de.inum, direntSize * k))

def enter (es : List Dirent) (de : Dirent) : List Dirent :=
  let k := es.findIdx (fun de => de.inum = 0)
  if k < es.length then es.set k de else es ++ [de]

def Node.Formatted (n : Node) : Prop := n.data.length % direntSize = 0

instance (n : Node) : Decidable n.Formatted := inferInstanceAs (Decidable (_ = 0))

theorem Dirent.length_encode_free : Dirent.free.encode.length = direntSize := rfl

theorem Dirent.decode_free : Dirent.decode Dirent.free.encode = Dirent.free := by decide

theorem Dirent.length_encode (de : Dirent) : de.encode.length = de.name.length + 2 := rfl

theorem Dirent.decode_encode {de : Dirent} (h : de.inum < 2 ^ 16) : decode de.encode = de := by
  cases de with
  | mk inum name =>
    simp only [decode, encode, mk.injEq]
    refine ⟨?_, rfl⟩
    simp only [getD_cons_zero, getD_cons_succ, BitVec.toNat_ofNat] at h ⊢
    omega

theorem Dirent.length_encode_new (name : Buffer) (inum : Nat) :
    (Dirent.new name inum).encode.length = direntSize := by
  rw [length_encode, Dirent.new, length_strncpy]
  rfl

theorem Dirent.decode_new (name : Buffer) (inum : Nat) :
    decode (Dirent.new name inum).encode = Dirent.new name inum :=
  decode_encode (Nat.mod_lt _ (by decide))

section Scanning

variable {start : Nat} {s t : Fs} {dp : Nat} {n : Node} {E : String → Prop}

theorem length_dirents (data : List Byte) : (dirents data).length = data.length / direntSize := by
  rw [dirents, length_map, length_chunks]

theorem drop_dirents {data : List Byte} {k : Nat} (hk : k < data.length / direntSize) :
    (dirents data).drop k = Dirent.decode ((data.drop (direntSize * k)).take direntSize) ::
      (dirents data).drop (k + 1) := by
  have hlt : k < (dirents data).length := by rw [length_dirents]; exact hk
  rw [drop_eq_getElem_cons hlt]
  congr 1
  have hg : (dirents data)[k]? =
      some (Dirent.decode ((data.drop (direntSize * k)).take direntSize)) := by
    rw [dirents, getElem?_map, getElem?_chunks hk]
    rfl
  rw [getElem?_eq_getElem hlt] at hg
  exact Option.some.inj hg

theorem scan_spec (h : Good start s) (hl : s.inodes.loaded dp = true) (hn : s.view dp = some n)
    {msg : String} (hE : ¬ n.Formatted → E msg) (test : Dirent → Bool) (fuel k : Nat)
    (hfuel : n.data.length < direntSize * (k + fuel)) :
    Ends (scan dp msg test fuel (direntSize * k)) s (fun r t => t = s ∧
      (∃ j, r.1 = direntSize * j) ∧ (n.Formatted → r =
        (direntSize * (k + ((dirents n.data).drop k).findIdx test),
        ((dirents n.data).drop k)[((dirents n.data).drop k).findIdx test]?))) E := by
  have hv := (loaded_iff.mp hl).2
  have hsize : ((s.itable dp).copy).size = n.data.length := by
    rw [← node_of_valid hv]
    exact view_size hn
  have hbytes : n.data.length ≤ maxfile * bsize := by
    rw [← view_size hn]
    exact (h.filled dp).size_le (h.editing hv).type_ne
  have hsmall : maxfile * bsize < 2 ^ 31 := by decide
  have h16 : direntSize = 16 := rfl
  have hend : ∀ {k : Nat}, n.data.length ≤ direntSize * k →
      (dirents n.data).drop k = [] := fun {k} hk => by
    refine drop_eq_nil_of_le ?_
    rw [length_dirents]
    rw [h16] at hk ⊢
    omega
  induction fuel generalizing k with
  | zero =>
    refine Ends.pure ⟨rfl, ⟨k, rfl⟩, fun _ => ?_⟩
    rw [hend (by rw [Nat.add_zero] at hfuel; omega)]
    rfl
  | succ fuel ih =>
    unfold scan
    refine Ends.bind_ok inode_run ?_
    rw [hsize]
    split_ifs with hlt
    · have hread := readi_becomes (m := direntSize) h hl hn (fun _ => true) (direntSize * k)
        (by decide)
      refine (hread.mono (fun _ _ hr => hr) (fun _ hf => hf.elim)).bind ?_
      rintro r u ⟨rfl, hr⟩
      rw [hr (fun _ _ => rfl) (by omega) (by omega)]
      dsimp only
      by_cases hfull : ((n.data.drop (direntSize * k)).take direntSize).length = direntSize
      · rw [if_neg (not_not.mpr (by rw [hfull]))]
        rw [length_take, length_drop] at hfull
        have hk : k < n.data.length / direntSize := by
          rw [h16] at hfull hlt ⊢
          omega
        split_ifs with ht
        · refine Ends.pure ⟨rfl, ⟨k, rfl⟩, fun _ => ?_⟩
          rw [drop_dirents hk, findIdx_cons, ht]
          rfl
        · have hnext := ih (k + 1) (by rw [h16] at hfuel ⊢; omega)
          rw [Nat.mul_succ] at hnext
          refine hnext.post (fun r u hu => ⟨hu.1, hu.2.1, fun hfmt => ?_⟩)
          have ht' : test (Dirent.decode ((n.data.drop (direntSize * k)).take direntSize)) =
            false := by simpa using ht
          rw [hu.2.2 hfmt, drop_dirents hk, findIdx_cons, ht']
          simp only [cond_false, getElem?_cons_succ]
          congr 2
          omega
      · rw [if_pos (by exact_mod_cast hfull)]
        refine Ends.throw (hE (fun hfmt => hfull ?_))
        rw [length_take, length_drop]
        unfold Node.Formatted at hfmt
        rw [h16] at hfmt hlt ⊢
        omega
    · refine Ends.pure ⟨rfl, ⟨k, rfl⟩, fun _ => ?_⟩
      rw [hend (by omega)]
      rfl

theorem dirlookup_spec (h : Good start s) (hl : s.inodes.loaded dp = true)
    (hn : s.view dp = some n) (name : Buffer) (htype : n.type ≠ tDir → E "dirlookup not DIR")
    (hfmt : ¬ n.Formatted → E "dirlookup read")
    (hroom : ninode ≤ s.inuse → E "iget: no inodes") :
    Ends (dirlookup dp name) s (fun r t => n.type = tDir ∧ ((r = none ∧ t = s) ∨
        ∃ i k, r = some (i, direntSize * k) ∧ Becomes start s t (s.inodes.get i)) ∧
      (n.Formatted → r = lookup (dirents n.data) name)) E := by
  have hv := (loaded_iff.mp hl).2
  have hnode := node_of_valid hv
  obtain ⟨hty, -⟩ := view_eq_some hn
  have hsize := view_size hn
  refine Ends.bind_ok inode_run ?_
  rw [← hnode, hty, hsize]
  split_ifs with hd
  · exact Ends.throw (htype hd)
  · have hd := not_not.mp hd
    have hscan := scan_spec h hl hn hfmt
      (fun de => de.inum ≠ 0 ∧ namecmp name de.name = 0) (n.data.length + 1) 0
      (by have h16 : direntSize = 16 := rfl; rw [h16]; omega)
    refine hscan.bind ?_
    rintro r u ⟨rfl, ⟨k, hk⟩, hr⟩
    have hres : n.Formatted →
        r.2.map (fun de => (de.inum, r.1)) = lookup (dirents n.data) name := by
      intro hf
      rw [hr hf]
      unfold lookup
      simp only [drop_zero, Nat.zero_add]
    cases hde : r.2 with
    | none =>
      rw [hde] at hres
      exact Ends.pure ⟨hd, .inl ⟨rfl, rfl⟩, hres⟩
    | some de =>
      rw [hde] at hres
      refine (iget_spec h (fun _ hfull => hroom hfull)).bind (fun _ t ht => ?_)
      rw [hk] at hres ⊢
      exact Ends.pure ⟨hd, .inr ⟨_, _, rfl, ht⟩, hres⟩

theorem isdirempty_spec (h : Good start s) (hl : s.inodes.loaded dp = true)
    (hn : s.view dp = some n) (hfmt : ¬ n.Formatted → E "isdirempty: readi") :
    Ends (isdirempty dp) s (fun r t => t = s ∧ (n.Formatted →
      (r = true ↔ ∀ de ∈ (dirents n.data).drop 2, de.inum = 0))) E := by
  have hv := (loaded_iff.mp hl).2
  have hsize := view_size hn
  refine Ends.bind_ok inode_run ?_
  rw [← node_of_valid hv, hsize]
  have hscan := scan_spec h hl hn hfmt (fun de => de.inum ≠ 0) (n.data.length + 1) 2
    (by have h16 : direntSize = 16 := rfl; rw [h16]; omega)
  rw [Nat.mul_comm 2 direntSize]
  refine hscan.bind ?_
  rintro r u ⟨rfl, -, hr⟩
  refine Ends.pure ⟨rfl, fun hf => ?_⟩
  rw [hr hf, Option.isNone_iff_eq_none, getElem?_eq_none_iff]
  constructor
  · intro hle de hde
    by_contra hne
    have hlt := findIdx_lt_length_of_exists (p := fun de : Dirent => decide (de.inum ≠ 0))
      ⟨de, hde, by simpa using hne⟩
    omega
  · intro hall
    refine le_of_eq (findIdx_eq_length.mpr (fun de hde => ?_)).symm
    simpa using hall de hde

end Scanning

section Linking

variable {start : Nat} {s t : Fs} {dp : Nat} {n : Node} {E : String → Prop}

theorem Inodes.get_drop {A : Inodes} {i : Nat} (h : A.ref i = 0 → A.loaded i = false) :
    (A.get i).drop i = A := by
  by_cases h0 : A.ref i = 0
  · have hl := h h0
    have hr : (A.get i).ref i = 1 := by simp [get, h0]
    have ho : (A.get i).orphaned i = false := by simp [orphaned, get, hl]
    unfold drop
    rw [if_pos hr, ho]
    cases A with
    | mk view ref loaded inuse =>
      dsimp only at h0 hl
      have hl0 : Function.update loaded i false = loaded := by
        rw [← hl, Function.update_eq_self]
      simp [get, h0, hl0]
  · have hr : ¬ (A.get i).ref i = 1 := by simp [get, h0]
    unfold drop
    rw [if_neg hr]
    cases A with
    | mk view ref loaded inuse =>
      dsimp only at h0
      simp [get, h0]

theorem Fs.not_loaded {i : Nat} (h : s.inodes.ref i = 0) : s.inodes.loaded i = false := by
  have h0 : (s.itable i).ref = 0 := h
  simp [inodes, h0]

theorem Inodes.put_self {A : Inodes} {i : Nat} {v : Option Node} (h : A.view i = v) :
    A.put i v = A := by
  unfold put
  rw [← h, Function.update_eq_self]

theorem writeDirent_spec (h : Good start s) (hl : s.inodes.loaded dp = true)
    (htx : 1 ≤ s.outstanding) (hn : s.view dp = some n) (k : Nat) {de : Dirent}
    (hde : de.encode.length = direntSize) :
    Ends (writeDirent dp (direntSize * k) de) s (fun r t =>
      (r ≠ direntSize ∧ Becomes start s t s.inodes) ∨
      (r = direntSize ∧ direntSize * k ≤ n.data.length ∧ Becomes start s t
        (s.inodes.put dp (some { n with
          data := splice n.data (direntSize * k) de.encode })))) E := by
  unfold writeDirent
  rw [← hde]
  have hw := writei_kernel (E := E) h hl htx hn de.encode (direntSize * k) (by rw [hde]; decide)
  rw [hde] at hw ⊢
  refine hw.post ?_
  rintro r t (⟨rfl, rfl⟩ | ⟨tot, rfl, hle, hstop, hoff, hb⟩)
  · exact .inl ⟨by decide, Becomes.refl h⟩
  · have h16 : direntSize = 16 := rfl
    have hbs : bsize = 1024 := rfl
    have hall : tot = 0 ∨ tot = direntSize := by
      unfold StopsAt at hstop
      simp only [h16, hbs] at hstop hle ⊢
      omega
    rcases hall with rfl | rfl
    · rw [take_zero, splice_nil, put_self hn] at hb
      exact .inl ⟨by decide, hb⟩
    · rw [take_of_length_le (by omega)] at hb
      exact .inr ⟨rfl, hoff, hb⟩

theorem dirents_splice (hfmt : n.Formatted) {k : Nat} {de : Dirent}
    (hk : direntSize * k ≤ n.data.length) (hde : de.encode.length = direntSize)
    (hdec : Dirent.decode de.encode = de) :
    dirents (splice n.data (direntSize * k) de.encode) =
      if k < (dirents n.data).length then (dirents n.data).set k de else dirents n.data ++ [de] := by
  have h16 : direntSize = 16 := rfl
  have hq : n.data.length = direntSize * (n.data.length / direntSize) := by
    unfold Node.Formatted at hfmt
    simp only [h16] at hfmt ⊢
    omega
  have hpos : 0 < direntSize := by decide
  rw [length_dirents]
  unfold dirents
  by_cases hlt : k < n.data.length / direntSize
  · rw [if_pos hlt, chunks_splice_set hpos hq hlt hde, map_set, hdec]
  · have he : k = n.data.length / direntSize := by
      simp only [h16] at hlt hk ⊢
      omega
    rw [if_neg hlt, he, chunks_splice_append hpos hq hde, map_append, map_singleton, hdec]

theorem formatted_splice (hfmt : n.Formatted) {k : Nat} {de : Dirent}
    (hk : direntSize * k ≤ n.data.length) (hde : de.encode.length = direntSize) :
    Node.Formatted { n with data := splice n.data (direntSize * k) de.encode } := by
  have h16 : direntSize = 16 := rfl
  unfold Node.Formatted at *
  dsimp only
  rw [length_splice hk, hde]
  simp only [h16] at hfmt hk ⊢
  omega

/-- `dirlink`: an entry for an absent name in the first free place, or no change. -/
theorem dirlink_spec (h : Good start s) (hl : s.inodes.loaded dp = true)
    (htx : 1 ≤ s.outstanding) (hn : s.view dp = some n) (name : Buffer) (inum : Nat)
    (htype : n.type ≠ tDir → E "dirlookup not DIR")
    (hread : ¬ n.Formatted → E "dirlookup read") (hread' : ¬ n.Formatted → E "dirlink read")
    (hroom : ninode ≤ s.inuse → E "iget: no inodes") :
    Ends (dirlink dp name inum) s (fun r t => n.type = tDir ∧
      ((r = -1 ∧ Becomes start s t s.inodes) ∨
      ∃ data, r = 0 ∧ Becomes start s t (s.inodes.put dp (some { n with data := data })) ∧
        (n.Formatted → lookup (dirents n.data) name = none ∧
          Node.Formatted { n with data := data } ∧
          dirents data = enter (dirents n.data) (Dirent.new name inum)))) E := by
  refine (dirlookup_spec h hl hn name htype hread hroom).bind ?_
  rintro r t ⟨hdir, hr, hlook⟩
  rcases hr with ⟨rfl, rfl⟩ | ⟨i, off, rfl, hb⟩
  · dsimp only
    have hv := (loaded_iff.mp hl).2
    refine Ends.bind_ok inode_run ?_
    rw [← node_of_valid hv, view_size hn]
    have hscan := scan_spec h hl hn hread' (fun de => de.inum = 0) (n.data.length + 1) 0
      (by have h16 : direntSize = 16 := rfl; rw [h16]; omega)
    rw [Nat.mul_zero] at hscan
    refine hscan.bind ?_
    rintro r u ⟨rfl, ⟨k, hk⟩, hr⟩
    rw [hk]
    refine (writeDirent_spec h hl htx hn k (Dirent.length_encode_new name inum)).bind ?_
    rintro w t (⟨hw, hb⟩ | ⟨hw, hoff, hb⟩)
    · rw [if_pos hw]
      exact Ends.pure ⟨hdir, .inl ⟨rfl, hb⟩⟩
    · rw [if_neg (not_not.mpr hw)]
      refine Ends.pure ⟨hdir, .inr ⟨_, rfl, hb, fun hfmt => ⟨(hlook hfmt).symm, ?_, ?_⟩⟩⟩
      · exact formatted_splice hfmt hoff (Dirent.length_encode_new name inum)
      · have hk' : k = (dirents n.data).findIdx (fun de => de.inum = 0) := by
          have h1 : r.1 = direntSize * (dirents n.data).findIdx (fun de => de.inum = 0) := by
            rw [hr hfmt]
            simp only [drop_zero, Nat.zero_add]
          rw [hk] at h1
          exact Nat.eq_of_mul_eq_mul_left (by decide) h1
        rw [dirents_splice hfmt hoff (Dirent.length_encode_new name inum)
          (Dirent.decode_new name inum), hk']
        rfl
  · dsimp only
    have href : 1 ≤ (t.itable i).ref := by
      have h1 : t.inodes.ref i = s.inodes.ref i + 1 := by
        rw [hb.inodes]
        simp [Inodes.get]
      have h2 : t.inodes.ref i = (t.itable i).ref := rfl
      omega
    refine (iput_spec hb.good href (fun _ _ => by rw [hb.outstanding]; exact htx)).bind
      (fun _ u hu => ?_)
    rw [hb.inodes, get_drop not_loaded] at hu
    exact Ends.pure ⟨hdir, .inl ⟨rfl, hb.trans hu⟩⟩

end Linking

end Xv6
